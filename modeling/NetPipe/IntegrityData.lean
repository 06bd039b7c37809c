/-
  `SetIntegrityData` and `VerifyIntegrity` of `netpipe.c`: consecutive integers put into the send
  buffer, and looked for in the receive buffer.

  1. What the first one leaves at `s_ptr` (`setIntegrityData_eq`): the numbers of the blocks, in
     the byte order of the host, and behind the last whole block what was there.  The loop is an
     induction on the blocks still to be written, with the part already written in front of them.

  2. What the second one says of the bytes at `r_ptr` (`verifyIntegrity_eq`): it stops at the first
     block that is not its number, and names it; else it returns.

  3. **Both together** (`integrity_exact`): between hosts of one byte order the check passes exactly
     where the whole blocks arrived as they were sent.  The bytes behind the last whole block are
     not looked at, so whatever happens to them goes unnoticed; the theorem says so by not
     mentioning them.

  4. **Two hosts of different byte orders** (`integrity_swapped`): a buffer of two blocks or more
     fails the check although it has come as it was sent.  Block 0 reads the same in either order,
     and so the block that is named is always block 1.
-/
import Mathlib.Data.Nat.Find
import NetPipe.Integrity

namespace NetPipe

open Memory Process

variable {Prot : Type}

/-! ## The functions -/

/-- `p->bufflen / sizeof(int)`, as an `int`. -/
def numSegments (bufflen : Int) : Int := wrap32 (toSizeT bufflen / 4)

/-- The loop of `SetIntegrityData`: `k` blocks from number `i` on. -/
def setIntegrityData.loop (o : ByteOrder) : (k i : Nat) → List UInt8 → Option (List UInt8)
  | 0, _, s => some s
  | k + 1, i, s => (storeAt s (4 * i) (toBytes o (toUint32 i))).bind (loop o k (i + 1))

/-- `SetIntegrityData(p)`. -/
def setIntegrityData (h : Netpipe Prot) : Option (Netpipe Prot) :=
  (h.heap.modify h.args.sPtr fun s =>
    (setIntegrityData.loop h.order (numSegments h.args.bufflen).toNat 0 s).map fun s =>
      (s, ())).map fun r => { h with heap := r.1 }

/-- The loop of `VerifyIntegrity`: the number of the first block that is not its number, and what
    it is instead. -/
def verifyIntegrity.loop (o : ByteOrder) (r : List UInt8) : (k i : Nat) →
    Option (Option (Nat × UInt32))
  | 0, _ => some none
  | k + 1, i => (loadAt r (4 * i) 4).bind fun dat =>
    if ofBytes o dat ≠ toUint32 i then some (some (i, ofBytes o dat)) else loop o r k (i + 1)

/-- What `VerifyIntegrity` prints. -/
def integrityMsg (i : Nat) (got : UInt32) : String :=
  s!"Integrity check failed: Expecting {i} but received {toInt32 got}\n"

/-- `VerifyIntegrity(p)`. -/
def verifyIntegrity {Op : Type} {Res : Op → Type} (h : Netpipe Prot) : Proc Op Res Event Unit := do
  let found ← Proc.ofOption (h.heap.view h.args.rPtr fun r =>
    verifyIntegrity.loop h.order r (numSegments h.args.bufflen).toNat 0)
  match found with
  | none => .ret ()
  | some (i, got) => .exit (-1) (integrityMsg i got)

theorem numSegments_eq {n : Nat} (hn : n < 2 ^ 31) : (numSegments n).toNat = n / 4 := by
  rw [numSegments, toSizeT_eq (by omega) (by omega), wrap32_eq (by omega) (by omega)]
  omega

/-! ## What is sent -/

/-- The blocks from number `i` on. -/
def numbered (o : ByteOrder) : (k i : Nat) → List UInt8
  | 0, _ => []
  | k + 1, i => toBytes o (toUint32 i) ++ numbered o k (i + 1)

@[simp] theorem numbered_length (o : ByteOrder) (k i : Nat) :
    (numbered o k i).length = 4 * k := by
  induction k generalizing i with
  | zero => rfl
  | succ k ih =>
    rw [numbered, List.length_append, toBytes_length, ih]
    omega

/-- The loop overwrites the blocks behind the part already written, by induction on them. -/
theorem setIntegrityData_loop (o : ByteOrder) (k : Nat) : ∀ (i : Nat) (pre mid post : List UInt8),
    4 * i = pre.length → 4 * k = mid.length →
      setIntegrityData.loop o k i (pre ++ (mid ++ post)) =
        some (pre ++ (numbered o k i ++ post)) := by
  induction k with
  | zero =>
    intro i pre mid post _ hmid
    obtain rfl : mid = [] := List.eq_nil_of_length_eq_zero (by omega)
    rfl
  | succ k ih =>
    intro i pre mid post hpre hmid
    have hsplit : pre ++ (mid ++ post) = pre ++ (mid.take 4 ++ (mid.drop 4 ++ post)) := by
      rw [← List.append_assoc (mid.take 4), List.take_append_drop]
    have htake : (mid.take 4).length = 4 := by
      rw [List.length_take]
      omega
    rw [setIntegrityData.loop, hsplit, storeAt_append hpre (by rw [toBytes_length, htake]),
      Option.bind_some, ← List.append_assoc, ih (i + 1), numbered]
    · simp only [List.append_assoc]
    · rw [List.length_append, toBytes_length]
      omega
    · rw [List.length_drop]
      omega

/-- The block with number `j` of a sequence from `i` on. -/
theorem wordAt_numbered (o : ByteOrder) {k j : Nat} (hj : j < k) (i : Nat) (post : List UInt8) :
    wordAt o (numbered o k i ++ post) (4 * j) = toUint32 (i + j : Nat) := by
  induction k generalizing i j with
  | zero => omega
  | succ k ih =>
    rw [numbered, List.append_assoc]
    rcases j with _ | j
    · rw [wordAt, Nat.mul_zero, List.drop_zero, List.take_left' (toBytes_length _ _),
        ofBytes_toBytes, Nat.add_zero]
    · rw [wordAt, show 4 * (j + 1) = 4 + 4 * j by omega, ← List.drop_drop,
        List.drop_left' (toBytes_length _ _), ← wordAt, ih (by omega)]
      congr 1
      omega

/-- **`SetIntegrityData`**, wherever `s_ptr` is in a block with room for the buffer: the numbers
    are written and nothing else is. -/
theorem setIntegrityData_eq {h : Netpipe Prot} {n b off : Nat} {s : List UInt8}
    (hbufflen : h.args.bufflen = n) (hn : n < 2 ^ 31) (hptr : h.args.sPtr = .addr b off)
    (hblock : h.heap.block b = some s) (hroom : off + n ≤ s.length) :
    setIntegrityData h = some { h with heap := ⟨h.heap.next, Function.update h.heap.block b
      (some (s.take off ++ (numbered h.order (n / 4) 0 ++ s.drop (off + 4 * (n / 4)))))⟩ } := by
  have hsplit : s.drop off = [] ++ ((s.drop off).take (4 * (n / 4)) ++
      s.drop (off + 4 * (n / 4))) := by
    rw [← List.drop_drop, List.take_append_drop, List.nil_append]
  have hloop : setIntegrityData.loop h.order (n / 4) 0 (s.drop off) =
      some (numbered h.order (n / 4) 0 ++ s.drop (off + 4 * (n / 4))) := by
    rw [hsplit, setIntegrityData_loop h.order (n / 4) 0 [] _ _ rfl]
    · rw [List.nil_append]
    · rw [List.length_take, List.length_drop]
      omega
  rw [setIntegrityData, hbufflen, numSegments_eq hn, hptr]
  simp only [Heap.modify, hblock, Option.bind_some, hloop, Option.map_some]
  rw [if_pos (by omega)]
  rfl

/-! ## What is looked for -/

/-- The loop, where the blocks up to `j` are their numbers. -/
theorem verifyIntegrity_loop_skip (o : ByteOrder) {r : List UInt8} (j : Nat) : ∀ {k i : Nat},
    4 * (i + j) ≤ r.length → (∀ l < j, wordAt o r (4 * (i + l)) = toUint32 (i + l : Nat)) →
      verifyIntegrity.loop o r (j + k) i = verifyIntegrity.loop o r k (i + j) := by
  induction j with
  | zero =>
    intro k i _ _
    rw [Nat.zero_add, Nat.add_zero]
  | succ j ih =>
    intro k i hlen hwords
    have hfirst := hwords 0 (Nat.zero_lt_succ j)
    rw [Nat.add_zero, wordAt] at hfirst
    rw [show j + 1 + k = (j + k) + 1 by omega, verifyIntegrity.loop, loadAt, if_pos (by omega),
      Option.bind_some, if_neg (not_not.mpr hfirst), ih (by omega),
      show i + 1 + j = i + (j + 1) by omega]
    intro l hl
    have hnext := hwords (l + 1) (by omega)
    rwa [show i + (l + 1) = i + 1 + l by omega] at hnext

/-- **`VerifyIntegrity`**, wherever `r_ptr` is in a block that holds the buffer: it returns where
    all whole blocks are their numbers, and names the first one that is not. -/
theorem verifyIntegrity_eq (Op : Type) (Res : Op → Type) {h : Netpipe Prot} {n b off : Nat}
    {r : List UInt8} (hbufflen : h.args.bufflen = n) (hn : n < 2 ^ 31)
    (hptr : h.args.rPtr = .addr b off) (hblock : h.heap.block b = some r)
    (hroom : off + n ≤ r.length) :
    ((∀ i < n / 4, wordAt h.order (r.drop off) (4 * i) = toUint32 i) →
      (verifyIntegrity h : Proc Op Res Event Unit) = .ret ()) ∧
    ∀ i < n / 4, (∀ j < i, wordAt h.order (r.drop off) (4 * j) = toUint32 j) →
      wordAt h.order (r.drop off) (4 * i) ≠ toUint32 i →
      (verifyIntegrity h : Proc Op Res Event Unit) =
        .exit (-1) (integrityMsg i (wordAt h.order (r.drop off) (4 * i))) := by
  have hview : h.heap.view h.args.rPtr (fun r =>
      verifyIntegrity.loop h.order r (numSegments h.args.bufflen).toNat 0) =
        verifyIntegrity.loop h.order (r.drop off) (n / 4) 0 := by
    rw [hbufflen, numSegments_eq hn, hptr]
    simp only [Heap.view, hblock, Option.bind_some]
    rw [if_pos (by omega)]
  have hskip : ∀ {k j : Nat}, j + k = n / 4 →
      (∀ l < j, wordAt h.order (r.drop off) (4 * l) = toUint32 l) →
      verifyIntegrity.loop h.order (r.drop off) (n / 4) 0 =
        verifyIntegrity.loop h.order (r.drop off) k j := by
    intro k j hkj hwords
    rw [← hkj, verifyIntegrity_loop_skip h.order j (by rw [List.length_drop]; omega), Nat.zero_add]
    intro l hl
    rw [Nat.zero_add]
    exact hwords l hl
  unfold verifyIntegrity
  rw [hview]
  constructor
  · intro hall
    rw [hskip (Nat.add_zero _) hall]
    rfl
  · intro i hi hbefore hbad
    obtain ⟨k, hk⟩ : ∃ k, i + (k + 1) = n / 4 := ⟨n / 4 - i - 1, by omega⟩
    rw [hskip hk hbefore, verifyIntegrity.loop, loadAt, if_pos (by rw [List.length_drop]; omega),
      Option.bind_some]
    rw [wordAt] at hbad ⊢
    rw [if_pos hbad]
    rfl

/-! ## Both together -/

/-- A load that succeeds is one inside a live block. -/
theorem exists_block {heap : Heap} {p : Ptr} {n : Nat} {bs : List UInt8}
    (h : heap.load p n = some bs) : ∃ b off s, p = .addr b off ∧ heap.block b = some s ∧
      off + n ≤ s.length ∧ bs = (s.drop off).take n := by
  cases p with
  | null => cases h
  | addr b off =>
    obtain ⟨s, hs, hload⟩ := Option.bind_eq_some_iff.mp h
    rw [loadAt] at hload
    by_cases hroom : off + n ≤ s.length
    · rw [if_pos hroom] at hload
      exact ⟨b, off, s, rfl, hs, hroom, (Option.some.inj hload).symm⟩
    · rw [if_neg hroom] at hload
      cases hload

/-- A word inside the first `n` bytes. -/
theorem wordAt_take (o : ByteOrder) (s : List UInt8) {n i : Nat} (hi : i < n / 4) :
    wordAt o (s.take n) (4 * i) = wordAt o s (4 * i) := by
  rw [wordAt, wordAt, List.drop_take, List.take_take, Nat.min_eq_left (by omega)]

/-- Words that are equal are bytes that are equal. -/
theorem words_eq_iff (o : ByteOrder) {p s : List UInt8} {k : Nat} (hp : 4 * k ≤ p.length)
    (hs : 4 * k ≤ s.length) :
    (∀ i < k, wordAt o s (4 * i) = wordAt o p (4 * i)) ↔ s.take (4 * k) = p.take (4 * k) := by
  constructor
  · intro hwords
    induction k with
    | zero => rfl
    | succ k ih =>
      have hbefore := ih (by omega) (by omega) fun i hi => hwords i (by omega)
      have hlast := (wordAt_inj o (by omega) (by omega)).mp (hwords k (Nat.lt_succ_self k))
      rw [Nat.mul_succ, List.take_add, List.take_add, hbefore, hlast]
  · rintro htake i hi
    rw [← wordAt_take o s (n := 4 * k) (by omega), htake, wordAt_take o p (by omega)]

section exact

variable {Prot' : Type} (Op : Type) (Res : Op → Type) (h : Netpipe Prot) (h' : Netpipe Prot')
  {n : Nat} {old got : List UInt8}

/-- The words of what is sent are their numbers, those behind the last whole block are what they
    were. -/
theorem exists_sent (hbufflen : h.args.bufflen = n) (hn : n < 2 ^ 31)
    (hold : h.heap.load h.args.sPtr n = some old) :
    ∃ h₁ sent, setIntegrityData h = some h₁ ∧ h₁.heap.load h₁.args.sPtr n = some sent ∧
      sent.length = n ∧ (∀ i < n / 4, wordAt h.order sent (4 * i) = toUint32 i) ∧
      sent.drop (4 * (n / 4)) = old.drop (4 * (n / 4)) := by
  obtain ⟨b, off, s, hptr, hblock, hroom, rfl⟩ := exists_block hold
  have hlen : (s.take off).length = off := by
    rw [List.length_take]
    omega
  refine ⟨_, (numbered h.order (n / 4) 0 ++ s.drop (off + 4 * (n / 4))).take n,
    setIntegrityData_eq hbufflen hn hptr hblock hroom, ?_, ?_, ?_, ?_⟩
  · rw [hptr]
    show (Option.bind (Function.update h.heap.block b _ b) fun s => loadAt s off n) = _
    rw [Function.update_self, Option.bind_some, loadAt, if_pos (by simp; omega),
      List.drop_left' hlen]
  · rw [List.length_take, List.length_append, numbered_length, List.length_drop]
    omega
  · intro i hi
    rw [wordAt_take _ _ hi, wordAt_numbered _ hi, Nat.zero_add]
  · rw [List.drop_take, List.drop_take, List.drop_left' (numbered_length ..), List.drop_drop]

/-- **The integrity check is exact**, on the whole blocks: with `n` bytes at `s_ptr` of the one
    host and whatever `n` bytes at `r_ptr` of the other one, of the same byte order, it passes
    exactly where the whole blocks of the two are the same, and else names the first block that is
    not, with what has come in its place. -/
theorem integrity_exact (hbufflen : h.args.bufflen = n) (hbufflen' : h'.args.bufflen = n)
    (hn : n < 2 ^ 31) (horder : h'.order = h.order) (hold : h.heap.load h.args.sPtr n = some old)
    (hgot : h'.heap.load h'.args.rPtr n = some got) :
    ∃ h₁ sent, setIntegrityData h = some h₁ ∧ h₁.heap.load h₁.args.sPtr n = some sent ∧
      sent.drop (4 * (n / 4)) = old.drop (4 * (n / 4)) ∧
      ((verifyIntegrity h' : Proc Op Res Event Unit) = .ret () ↔
        got.take (4 * (n / 4)) = sent.take (4 * (n / 4))) ∧
      ∀ i < n / 4, got.take (4 * i) = sent.take (4 * i) →
        wordAt h.order got (4 * i) ≠ wordAt h.order sent (4 * i) →
        (verifyIntegrity h' : Proc Op Res Event Unit) =
          .exit (-1) (integrityMsg i (wordAt h.order got (4 * i))) := by
  obtain ⟨h₁, sent, hset, hsent, hlen, hwords, htail⟩ := exists_sent h hbufflen hn hold
  obtain ⟨b, off, r, hptr, hblock, hroom, rfl⟩ := exists_block hgot
  obtain ⟨hpass, hfail⟩ := verifyIntegrity_eq Op Res hbufflen' hn hptr hblock hroom
  have hlen' : ((r.drop off).take n).length = n := by
    rw [List.length_take, List.length_drop]
    omega
  rw [horder] at hpass hfail
  have hword : ∀ i < n / 4, wordAt h.order (r.drop off) (4 * i) =
      wordAt h.order ((r.drop off).take n) (4 * i) :=
    fun i hi => (wordAt_take h.order (r.drop off) hi).symm
  have hsame : ∀ k ≤ n / 4, (∀ i < k, wordAt h.order (r.drop off) (4 * i) = toUint32 i) ↔
      ((r.drop off).take n).take (4 * k) = sent.take (4 * k) := by
    intro k hk
    rw [← words_eq_iff h.order (by omega) (by omega)]
    refine forall₂_congr fun i hi => ?_
    rw [hword i (by omega), hwords i (by omega)]
  have hnamed : ∀ i < n / 4, ((r.drop off).take n).take (4 * i) = sent.take (4 * i) →
      wordAt h.order ((r.drop off).take n) (4 * i) ≠ wordAt h.order sent (4 * i) →
      (verifyIntegrity h' : Proc Op Res Event Unit) =
        .exit (-1) (integrityMsg i (wordAt h.order ((r.drop off).take n) (4 * i))) := by
    intro i hi hbefore hbad
    rw [← hword i hi, hwords i hi] at hbad
    rw [← hword i hi]
    exact hfail i hi ((hsame i hi.le).mpr hbefore) hbad
  refine ⟨h₁, sent, hset, hsent, htail, ⟨?_, fun h => hpass ((hsame _ le_rfl).mpr h)⟩, hnamed⟩
  intro hret
  by_contra hne
  -- the first block that differs
  have hex : ∃ i, i < n / 4 ∧ wordAt h.order (r.drop off) (4 * i) ≠ toUint32 i := by
    by_contra hall
    push Not at hall
    exact hne ((hsame _ le_rfl).mp hall)
  classical
  obtain ⟨hi, hbad⟩ := Nat.find_spec hex
  have hbefore : ∀ j < Nat.find hex, wordAt h.order (r.drop off) (4 * j) = toUint32 j := by
    intro j hj
    by_contra hj'
    exact Nat.find_min hex hj ⟨by omega, hj'⟩
  rw [hfail _ hi hbefore hbad] at hret
  cases hret

/-- A word of one byte order, read in the other one. -/
theorem wordAt_swapped {o o' : ByteOrder} {s : List UInt8} {j : Nat} (hj : j + 4 ≤ s.length) :
    wordAt o' s j = ofBytes o' (toBytes o (wordAt o s j)) := by
  have hlen : ((s.drop j).take 4).length = 4 := by
    rw [List.length_take, List.length_drop]
    omega
  rw [wordAt, wordAt, toBytes_ofBytes o hlen]

/-- **Hosts of different byte orders**: the check fails on a buffer that has come as it was sent,
    unless it is shorter than two blocks; it expects 1 and receives 1 backwards. -/
theorem integrity_swapped (hbufflen : h.args.bufflen = n) (hbufflen' : h'.args.bufflen = n)
    (hn : n < 2 ^ 31) (horder : h'.order ≠ h.order) (hold : h.heap.load h.args.sPtr n = some old) :
    ∃ h₁ sent, setIntegrityData h = some h₁ ∧ h₁.heap.load h₁.args.sPtr n = some sent ∧
      (h'.heap.load h'.args.rPtr n = some sent → (verifyIntegrity h' : Proc Op Res Event Unit) =
        if n < 8 then .ret () else .exit (-1) (integrityMsg 1 16777216)) := by
  obtain ⟨h₁, sent, hset, hsent, hlen, hwords, -⟩ := exists_sent h hbufflen hn hold
  refine ⟨h₁, sent, hset, hsent, fun hgot => ?_⟩
  obtain ⟨b, off, r, hptr, hblock, hroom, rfl⟩ := exists_block hgot
  obtain ⟨hpass, hfail⟩ := verifyIntegrity_eq Op Res hbufflen' hn hptr hblock hroom
  have hword : ∀ i < n / 4, wordAt h'.order (r.drop off) (4 * i) =
      ofBytes h'.order (toBytes h.order (toUint32 i)) := by
    intro i hi
    rw [← wordAt_take _ _ hi, wordAt_swapped (o := h.order) (by rw [hlen]; omega), hwords i hi]
  have hback : ∀ w : UInt32,
      ofBytes h'.order (toBytes h.order w) = ofLeBytes (leBytes w).reverse := by
    intro w
    cases ho : h.order with
    | little =>
      cases ho' : h'.order with
      | little => exact absurd (ho'.trans ho.symm) horder
      | big => rfl
    | big =>
      cases ho' : h'.order with
      | little => rfl
      | big => exact absurd (ho'.trans ho.symm) horder
  have hzero : 0 < n / 4 → wordAt h'.order (r.drop off) (4 * 0) = toUint32 (0 : Nat) := by
    intro h0
    rw [hword 0 h0, hback]
    decide
  by_cases hshort : n < 8
  · rw [if_pos hshort]
    refine hpass fun i hi => ?_
    obtain rfl : i = 0 := by omega
    exact hzero hi
  · rw [if_neg hshort]
    have hone : wordAt h'.order (r.drop off) (4 * 1) = 16777216 := by
      rw [hword 1 (by omega), hback]
      decide
    rw [← hone]
    refine hfail 1 (by omega) ?_ ?_
    · intro j hj
      obtain rfl : j = 0 := by omega
      exact hzero (by omega)
    · rw [hone]
      decide

end exact

/-- Two blocks and two bytes, with the second block and the last byte damaged on their way. -/
theorem integrity_exact_damaged :
    ∃ h₁ sent, setIntegrityData (twoBuffers .little () (.replicate 10 0) (.replicate 10 7)) =
        some h₁ ∧ h₁.heap.load h₁.args.sPtr 10 = some sent ∧
      (verifyIntegrity (twoBuffers .little () [0, 0, 0, 0, 2, 0, 0, 0, 7, 8] (.replicate 10 7)) :
        Proc Unit (fun _ => Unit) Event Unit) = .exit (-1) (integrityMsg 1 2) := by
  obtain ⟨h₁, sent, hset, hsent, -, -, hfail⟩ := integrity_exact Unit (fun _ => Unit)
    (twoBuffers .little () (.replicate 10 0) (.replicate 10 7))
    (twoBuffers .little () [0, 0, 0, 0, 2, 0, 0, 0, 7, 8] (.replicate 10 7))
    rfl rfl (by decide) rfl rfl rfl
  refine ⟨h₁, sent, hset, hsent, ?_⟩
  obtain rfl := Option.some.inj hset
  obtain rfl : [0, 0, 0, 0, 1, 0, 0, 0, 7, 7] = sent := Option.some.inj hsent
  exact hfail 1 (by decide) (by decide) (by decide)

/-- From a little-endian host to a big-endian one. -/
theorem integrity_swapped_two :
    ∃ h₁ sent, setIntegrityData (twoBuffers .little () (.replicate 8 0) (.replicate 8 7)) =
        some h₁ ∧ h₁.heap.load h₁.args.sPtr 8 = some sent ∧
      (verifyIntegrity (twoBuffers .big () [0, 0, 0, 0, 1, 0, 0, 0] (.replicate 8 7)) :
        Proc Unit (fun _ => Unit) Event Unit) = .exit (-1) (integrityMsg 1 16777216) := by
  obtain ⟨h₁, sent, hset, hsent, hfail⟩ := integrity_swapped Unit (fun _ => Unit)
    (twoBuffers .little () (.replicate 8 0) (.replicate 8 7))
    (twoBuffers .big () [0, 0, 0, 0, 1, 0, 0, 0] (.replicate 8 7))
    rfl rfl (by decide) (by decide) rfl
  refine ⟨h₁, sent, hset, hsent, ?_⟩
  obtain rfl := Option.some.inj hset
  obtain rfl : [0, 0, 0, 0, 1, 0, 0, 0] = sent := Option.some.inj hsent
  exact hfail rfl

end NetPipe
