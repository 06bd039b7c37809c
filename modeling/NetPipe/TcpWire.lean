/-
  What the control functions of `tcp.c` read off a stream that may end anywhere.

  One process is run against a `Wire`: bytes to come, then the end of the stream or an error, and
  one answer for each `write`.  Every byte carries the number of the `write` it comes from.

  1. **`readFully`** fills its buffer, or answers what the last `read` did (`wire_readFully`).  The
     invariant of its loop is `Drawn`: what has been read is what is missing from the stream.

  2. **`RecvRepeat`, `RecvTime`** decode the next four bytes or leave the process
     (`wire_recvRepeat`, `wire_recvTime`): one lemma for both (`wire_readWord`).

  3. **`Sync`** returns for "SyncMe" only: a shorter answer leaves a blank in the buffer, and no
     part of the string is a blank (`wire_sync`).  The array it reads into is an argument
     (`syncFrom`), as `NetPipe.IbSync` needs another one.

  4. Together: control reads are all or exit, wherever the stream ends (`control_reads`).
-/
import NetPipe.TcpLoops
import Mathlib.Data.PNat.Defs

namespace NetPipe.Tcp

open Memory Process Duplex

/-! ## The wire -/

/-- A byte on the wire, with the number of the `write` it comes from. -/
structure Tagged where
  byte : UInt8
  msg : Nat
  deriving DecidableEq, Repr

/-- The bytes `bs`, as `write` number `k` puts them. -/
def tagged (k : Nat) (bs : List UInt8) : List Tagged := bs.map fun b => ⟨b, k⟩

/-- The bytes alone. -/
def bytes (xs : List Tagged) : List UInt8 := xs.map Tagged.byte

@[simp] theorem length_tagged (k : Nat) (bs : List UInt8) : (tagged k bs).length = bs.length :=
  List.length_map _

@[simp] theorem bytes_append (xs ys : List Tagged) : bytes (xs ++ ys) = bytes xs ++ bytes ys :=
  List.map_append

@[simp] theorem length_bytes (xs : List Tagged) : (bytes xs).length = xs.length :=
  List.length_map _

@[simp] theorem bytes_tagged (k : Nat) (bs : List UInt8) : bytes (tagged k bs) = bs := by
  rw [bytes, tagged, List.map_map]
  exact List.map_id bs

/-- What comes after the last byte. -/
inductive Cut where
  | eof
  | error
  deriving DecidableEq, Repr

/-- What `read` answers there. -/
def Cut.answer : Cut → Option (List UInt8)
  | .eof => some []
  | .error => none

/-- What `readFully` returns there. -/
def Cut.result : Cut → Int
  | .eof => 0
  | .error => -1

theorem Cut.result_nonpos (cut : Cut) : cut.result ≤ 0 := by
  cases cut <;> decide

/-- The bytes put so far and by how many calls of `write`, and the bytes still to come. -/
structure Wire where
  writes : Nat
  outgoing : List Tagged
  incoming : List Tagged
  deriving DecidableEq, Repr

/-- The next `n` bytes are taken. -/
def Wire.drop (w : Wire) (n : Nat) : Wire := { w with incoming := w.incoming.drop n }

/-- The next `write` puts the first `n` bytes of `bs`. -/
def Wire.put (w : Wire) (bs : List UInt8) (n : Nat) : Wire :=
  { w with writes := w.writes + 1, outgoing := w.outgoing ++ tagged w.writes (bs.take n) }

/-- What each `write` answers: a positive count, or an error.  More than is asked for counts as
    everything. -/
abbrev Results := Nat → Option ℕ+

/-- The process's surroundings: `write` number `k` answers `results k`; `read` gets any part of
    what is to come, and behind it the cut. -/
def wireEnv (results : Results) (cut : Cut) : Env (StreamOp Site) StreamOp.Res Event Wire where
  emit _ w := w
  alloc _ _ := True
  answer
    | .write _ bs, w, r, w' =>
        r = (results w.writes).map (fun n => min n bs.length) ∧
          w' = w.put bs ((results w.writes).elim 0 fun n => n)
    | .read _ n, w, r, w' =>
        (w.incoming = [] ∧ r = cut.answer ∧ w' = w) ∨
        ∃ j, (0 < j ∨ n = 0) ∧ j ≤ n ∧ j ≤ w.incoming.length ∧
          r = some (bytes (w.incoming.take j)) ∧ w' = w.drop j

/-- From `w`, the program comes to an end, and however it does, it has returned with `Q` or left
    the process with `left`. -/
def Ends {α : Type} (E : Env (StreamOp Site) StreamOp.Res Event Wire) (p : TcpProg α) (w : Wire)
    (Q : α → Wire → Prop) (left : Wire → Prop) : Prop :=
  (∃ out w', Exec E p w out w') ∧ ∀ out w', Exec E p w out w' → out.Ends Q left w'

section wire

variable {results : Results} {cut : Cut} {w : Wire} {α : Type}

@[simp] theorem Wire.drop_zero (w : Wire) : w.drop 0 = w := rfl

/-- The bytes read are there. -/
theorem Wire.le_incoming {bs : List UInt8} {n : Nat} (h : bytes (w.incoming.take n) = bs)
    (hn : bs.length = n) : n ≤ w.incoming.length := by
  rw [← h, length_bytes, List.length_take] at hn
  omega

theorem Wire.drop_drop (w : Wire) (i j : Nat) : (w.drop i).drop j = w.drop (i + j) := by
  simp only [Wire.drop, List.drop_drop]

/-- There is always an answer. -/
theorem exists_wire_exec (p : TcpProg α) (w : Wire) :
    ∃ out w', Exec (wireEnv results cut) p w out w' := by
  refine Exec.total (fun _ => ⟨none, trivial⟩) ?_ p w
  intro o w
  cases o with
  | write site bs => exact ⟨_, _, rfl, rfl⟩
  | read site n =>
    by_cases hend : w.incoming = []
    · exact ⟨_, _, Or.inl ⟨hend, rfl, rfl⟩⟩
    · have := List.length_pos_iff.mpr hend
      exact ⟨_, _, Or.inr ⟨min n 1, by omega, by omega, by omega, rfl, rfl⟩⟩

theorem Ends.of_wp {p : TcpProg α} {Q : α → Wire → Prop} {left : Wire → Prop}
    (h : wp ((wireEnv results cut).strict left) p Q w) : Ends (wireEnv results cut) p w Q left :=
  ⟨exists_wire_exec p w, fun _ _ hexec => hexec.ends h⟩

/-- A program that cannot leave the process returns. -/
theorem Ends.returns {p : TcpProg α} {Q : α → Wire → Prop} {left : Wire → Prop}
    (h : Ends (wireEnv results cut) p w Q left) (hstay : ∀ w', ¬ left w') :
    ∃ a w', Exec (wireEnv results cut) p w (.returned a) w' ∧ Q a w' := by
  obtain ⟨⟨out, w', hexec⟩, hall⟩ := h
  have hends := hall out w' hexec
  cases out with
  | returned a => exact ⟨a, w', hexec, hends⟩
  | exited c msg => exact absurd hends (hstay w')
  | faulted => exact hends.elim

/-! ## `readFully` -/

/-- What has been taken off the wire `w` once a loop `got` this. -/
def Drawn (w : Wire) (got : List UInt8) (w' : Wire) : Prop :=
  got.length ≤ w.incoming.length ∧ got = bytes (w.incoming.take got.length) ∧
    w' = w.drop got.length

/-- One read of a loop: the next bytes, or the cut. -/
theorem Drawn.read {left : Wire → Prop} {site : Site} {got : List UInt8} {w' : Wire} {n : Nat}
    {err eof : Wire → Prop} (h : Drawn w got w') (hlt : got.length < n)
    (hcut : got = bytes w.incoming → match cut with | .eof => eof w' | .error => err w') :
    ((wireEnv results cut).strict left).io (.read site (n - got.length)) w'
      (Reads err eof (n - got.length) fun bs => Drawn w (got ++ bs)) := by
  obtain ⟨hle, hgot, rfl⟩ := h
  rintro r w' (⟨hend, rfl, rfl⟩ | ⟨j, h0, hj, hj', rfl, rfl⟩)
  · -- nothing is left behind what the loop got
    have hall : w.incoming.length ≤ got.length := List.drop_eq_nil_iff.mp hend
    rw [List.take_of_length_le hall] at hgot
    cases cut with
    | eof => exact hcut hgot
    | error => exact hcut hgot
  · have hdrop : (w.drop got.length).incoming = w.incoming.drop got.length := rfl
    rw [hdrop, List.length_drop] at hj'
    rw [hdrop]
    have hlen : (bytes ((w.incoming.drop got.length).take j)).length = j := by
      rw [length_bytes, List.length_take, List.length_drop]
      omega
    refine .of_ne_nil (List.ne_nil_of_length_pos (by omega)) (by omega) ⟨?_, ?_, ?_⟩
    · rw [List.length_append]
      omega
    · rw [List.length_append, hlen, List.take_add, bytes_append, ← hgot]
    · rw [List.length_append, hlen, Wire.drop_drop]

/-- **`readFully`** fills the buffer, or answers what the last `read` did. -/
theorem wire_readFully {left : Wire → Prop} {site : Site} {len : Nat} {buf post : List UInt8}
    {Q : Int × List UInt8 → Wire → Prop} (hbuf : buf.length = len) (hlen : 0 < len)
    (hfull : len ≤ w.incoming.length →
      Q (len, bytes (w.incoming.take len) ++ post) (w.drop len))
    (hcut : w.incoming.length < len →
      Q (cut.result, bytes w.incoming ++ (buf.drop w.incoming.length ++ post))
        (w.drop w.incoming.length)) :
    wp ((wireEnv results cut).strict left) (readFully site (buf ++ post) len) Q w := by
  refine wp_readFully (I := Drawn w) hbuf (fun got w' hI hlt => hI.read hlt ?_) ?_ hlen
    ⟨Nat.zero_le _, rfl, rfl⟩
  · intro hgot
    have hall : got.length = w.incoming.length := by rw [hgot, length_bytes]
    rw [hI.2.2, hall, hgot]
    rw [hall] at hlt
    cases cut with
    | eof => exact hcut hlt
    | error => exact hcut hlt
  · rintro got w' ⟨hle, hgot, rfl⟩ rfl
    rw [hgot, length_bytes, List.length_take, Nat.min_eq_left hle]
    exact hfull hle

/-! ## `RecvRepeat` and `RecvTime` -/

section control

variable {left : Wire → Prop} {h : Host}

/-- Four bytes read whole stand for one word; fewer leave `readFully` with 0 or -1. -/
theorem wire_readWord {site : Site} {o : ByteOrder} {k : Int × List UInt8 → TcpProg α}
    {Q : α → Wire → Prop}
    (hfull : ∀ nword, toBytes .big (ntohl o (ofBytes o nword)) = bytes (w.incoming.take 4) →
      wp ((wireEnv results cut).strict left) (k (4, nword)) Q (w.drop 4))
    (hcut : w.incoming.length < 4 → ∀ nword,
      wp ((wireEnv results cut).strict left) (k (cut.result, nword)) Q
        (w.drop w.incoming.length)) :
    wp ((wireEnv results cut).strict left) ((readFully site (List.replicate 4 0) 4).bind k)
      Q w := by
  rw [← List.append_nil (List.replicate 4 0)]
  refine wp_bind (wire_readFully List.length_replicate (by decide) ?_ fun hlt => hcut hlt _)
  intro hfour
  rw [List.append_nil]
  refine hfull _ (toBytes_ntohl o ?_)
  rw [length_bytes, List.length_take, Nat.min_eq_left hfour]

theorem wire_recvRepeat {Q : UInt32 × Host → Wire → Prop}
    (hfull : ∀ rpt, toBytes .big rpt = bytes (w.incoming.take 4) → Q (rpt, h) (w.drop 4))
    (hcut : w.incoming.length < 4 → left (w.drop w.incoming.length)) :
    wp ((wireEnv results cut).strict left) (recvRepeat h) Q w := by
  refine wire_readWord (fun nrpt hnrpt => hfull _ hnrpt) ?_
  intro hlt nrpt
  -- 0 fails the second test, -1 the first
  cases cut with
  | eof => exact hcut hlt
  | error => exact hcut hlt

theorem wire_recvTime {T : Type} {ofTicks : UInt32 → T} {Q : T × Host → Wire → Prop}
    (hfull : ∀ ltime, toBytes .big ltime = bytes (w.incoming.take 4) →
      Q (ofTicks ltime, h) (w.drop 4))
    (hcut : w.incoming.length < 4 → left (w.drop w.incoming.length)) :
    wp ((wireEnv results cut).strict left) (recvTime ofTicks h) Q w := by
  refine wire_readWord (fun ntime hntime => hfull _ hntime) ?_
  intro hlt ntime
  cases cut with
  | eof => exact hcut hlt
  | error => exact hcut hlt

/-! ## `Sync` -/

/-- The comparison is one of lists where the string has no terminating null. -/
theorem strncmp_eq_false : ∀ {s t : List UInt8}, (∀ b ∈ s, b ≠ 0) → s.length ≤ t.length →
    (strncmp s.length s t = false ↔ t.take s.length = s)
  | [], t, _, _ => by simp [strncmp]
  | a :: s, [], _, hlen => absurd hlen (by simp)
  | a :: s, b :: t, hs, hlen => by
    have ih := strncmp_eq_false (fun c hc => hs c (List.mem_cons_of_mem a hc))
      (Nat.le_of_succ_le_succ hlen)
    have ha : a ≠ 0 := hs a List.mem_cons_self
    rw [List.length_cons, strncmp, List.take_succ_cons, List.cons.injEq]
    by_cases hab : a = b
    · rw [if_neg (not_not.mpr hab), if_neg ha, ih]
      exact ⟨fun h => ⟨hab.symm, h⟩, And.right⟩
    · rw [if_pos hab]
      exact ⟨fun h => absurd h (by decide), fun h => absurd h.1.symm hab⟩

theorem strncmp_prefix (response : List UInt8) (hlen : 6 ≤ response.length) :
    strncmp 6 syncMe response = false ↔ response.take 6 = syncMe :=
  strncmp_eq_false (s := syncMe) (by simp [syncMe]) hlen

/-- A control write. -/
theorem wire_write {site : Site} {bs : List UInt8} {k : Option Nat → TcpProg α}
    {Q : α → Wire → Prop}
    (herr : results w.writes = none →
      wp ((wireEnv results cut).strict left) (k none) Q (w.put bs 0))
    (hQ : ∀ n, results w.writes = some n →
      wp ((wireEnv results cut).strict left) (k (some (min n bs.length))) Q (w.put bs n)) :
    wp ((wireEnv results cut).strict left) (.io (.write site bs) k) Q w := by
  rintro r w' ⟨rfl, rfl⟩
  cases hres : results w.writes with
  | none => exact herr hres
  | some n => exact hQ n hres

/-- `Sync`, with what the response array holds before the call and what is printed of a wrong
    string. -/
def syncFrom (response : List UInt8) (incorrect : String) (h : Host) : TcpProg Host :=
  .io (.write .sync syncMe) fun
    | none => .exit 3 "NetPIPE: error writing or reading synchronization string"
    | some _ => do
      let (bytesRead, response) ← readFully .sync response 6
      if bytesRead < 0 then
        .exit 3 "NetPIPE: error writing or reading synchronization string"
      else if strncmp 6 syncMe response then .exit 3 incorrect
      else .ret h

/-- The comparison, with six bytes `got` in the array. -/
theorem wire_compare {got post : List UInt8} {incorrect : String} {Q : Host → Wire → Prop}
    (hgot : got.length = 6) (hok : got = syncMe → Q h w) (hwrong : got ≠ syncMe → left w) :
    wp ((wireEnv results cut).strict left)
      (if strncmp 6 syncMe (got ++ post) then .exit 3 incorrect else .ret h) Q w := by
  have hcmp := strncmp_prefix (got ++ post) (by rw [List.length_append]; omega)
  rw [List.take_left' hgot] at hcmp
  by_cases hstring : got = syncMe
  · rw [if_neg (by rw [hcmp.mpr hstring]; decide)]
    exact hok hstring
  · rw [if_pos (eq_true_of_ne_false fun hc => hstring (hcmp.mp hc))]
    exact hwrong hstring

/-- At the end of the stream, what the array held before completes the string. -/
def Stale (response : List UInt8) (cut : Cut) (w : Wire) : Prop :=
  cut = .eof ∧ w.incoming.length < 6 ∧
    bytes w.incoming ++ (response.take 6).drop w.incoming.length = syncMe

/-- **`Sync`** returns for the string, and where the rest of it was there before. -/
theorem wire_syncFrom {response : List UInt8} {incorrect : String} {Q : Host → Wire → Prop}
    (hlen : 6 ≤ response.length) (herr : results w.writes = none → left (w.put syncMe 0))
    (hok : ∀ n, results w.writes = some n → bytes (w.incoming.take 6) = syncMe →
      Q h ((w.put syncMe n).drop 6))
    (hstale : results w.writes ≠ none → Stale response cut w →
      ∀ n, Q h ((w.put syncMe n).drop w.incoming.length))
    (hwrong : ∀ n i, results w.writes = some n → bytes (w.incoming.take 6) ≠ syncMe →
      ¬ Stale response cut w → left ((w.put syncMe n).drop i)) :
    wp ((wireEnv results cut).strict left) (syncFrom response incorrect h) Q w := by
  refine wire_write herr ?_
  intro n hn
  have hbuf : (response.take 6).length = 6 := by
    rw [List.length_take, Nat.min_eq_left hlen]
  have hincoming : (w.put syncMe n).incoming = w.incoming := rfl
  rw [← List.take_append_drop 6 response]
  refine wp_bind (wire_readFully hbuf (by decide) ?_ ?_)
  · rw [hincoming]
    intro hsix
    have hgot : (bytes (w.incoming.take 6)).length = 6 := by
      rw [length_bytes, List.length_take, Nat.min_eq_left hsix]
    exact wire_compare hgot (hok n hn) fun hne => hwrong n 6 hn hne fun hstale =>
      absurd hstale.2.1 (by omega)
  · rw [hincoming]
    intro hlt
    have hshort : bytes (w.incoming.take 6) ≠ syncMe := fun hstring =>
      absurd (Wire.le_incoming hstring rfl) (by omega)
    cases cut with
    | error => exact hwrong n _ hn hshort fun hstale => absurd hstale.1 (by decide)
    | eof =>
      -- the last count is 0, which is not an error
      have hgot : (bytes w.incoming ++ (response.take 6).drop w.incoming.length).length = 6 := by
        rw [List.length_append, length_bytes, List.length_drop, hbuf]
        omega
      rw [← List.append_assoc]
      exact wire_compare hgot (fun hstring => hstale (by rw [hn]; simp) ⟨rfl, hlt, hstring⟩ n)
        fun hne => hwrong n _ hn hshort fun hstale => hne hstale.2.2

/-- `tcp.c` fills the array with blanks, and the string has none. -/
theorem not_stale_blanks : ¬ Stale (List.replicate 6 0x20 ++ [0]) cut w := by
  rintro ⟨-, hlt, hstring⟩
  have hblanks : (List.replicate 6 (0x20 : UInt8) ++ [0]).take 6 = List.replicate 6 0x20 := rfl
  have hblank : (0x20 : UInt8) ∈ syncMe := by
    rw [← hstring, hblanks, List.drop_replicate]
    exact List.mem_append_right _ (List.mem_replicate.mpr ⟨by omega, rfl⟩)
  exact absurd hblank (by decide)

/-- **`Sync`** of `tcp.c` returns for the string only: the array holds blanks, so the rest of a
    string that is cut off was not there before. -/
theorem wire_sync {Q : Host → Wire → Prop} (herr : results w.writes = none → left (w.put syncMe 0))
    (hok : ∀ n, results w.writes = some n → bytes (w.incoming.take 6) = syncMe →
      Q h ((w.put syncMe n).drop 6))
    (hwrong : ∀ n i, results w.writes = some n → bytes (w.incoming.take 6) ≠ syncMe →
      left ((w.put syncMe n).drop i)) :
    wp ((wireEnv results cut).strict left) (sync h) Q w := by
  show wp _ (syncFrom (List.replicate 6 0x20 ++ [0]) _ h) Q w
  exact wire_syncFrom (by decide) herr hok (fun _ hstale => absurd hstale not_stale_blanks)
    fun n i hn hne _ => hwrong n i hn hne

end control

/-! ## All or exit -/

/-- **Control reads are all or exit**, for any bytes to come, in any pieces, up to the end of the
    stream or an error.  `readFully` returns `len` exactly where `len` bytes come, which are then
    taken and put into the buffer; `RecvRepeat` and `RecvTime` return the value the next four bytes
    encode and `Sync` returns exactly for "SyncMe", where its write has succeeded; elsewhere they
    leave the process. -/
theorem control_reads (results : Results) (cut : Cut) (w : Wire) (h : Host) {T : Type}
    (ofTicks : UInt32 → T) :
    (∀ (site : Site) (buf : List UInt8) (len : Nat), 0 < len → len ≤ buf.length →
      Ends (wireEnv results cut) (readFully site buf len) w
        (fun a w' =>
          (a.1 = len ↔ len ≤ w.incoming.length) ∧
          (len ≤ w.incoming.length →
            a.2 = bytes (w.incoming.take len) ++ buf.drop len ∧ w' = w.drop len) ∧
          (w.incoming.length < len → a.1 = cut.result))
        fun _ => False) ∧
    Ends (wireEnv results cut) (recvRepeat h) w
      (fun a _ => a.2 = h ∧ toBytes .big a.1 = bytes (w.incoming.take 4))
      (fun _ => w.incoming.length < 4) ∧
    Ends (wireEnv results cut) (recvTime ofTicks h) w
      (fun a _ => a.2 = h ∧
        ∃ ltime, a.1 = ofTicks ltime ∧ toBytes .big ltime = bytes (w.incoming.take 4))
      (fun _ => w.incoming.length < 4) ∧
    Ends (wireEnv results cut) (sync h) w
      (fun h' _ => h' = h ∧ results w.writes ≠ none ∧ bytes (w.incoming.take 6) = syncMe)
      (fun _ => results w.writes = none ∨ bytes (w.incoming.take 6) ≠ syncMe) := by
  refine ⟨?_, ?_, ?_, ?_⟩
  · intro site buf len hlen hbuf
    apply Ends.of_wp
    have htake : (buf.take len).length = len := by
      rw [List.length_take, Nat.min_eq_left hbuf]
    rw [← List.take_append_drop len buf]
    refine wire_readFully htake hlen ?_ ?_
    · intro hle
      refine ⟨⟨fun _ => hle, fun _ => rfl⟩, fun _ => ⟨?_, rfl⟩, fun hlt => absurd hle (by omega)⟩
      rw [List.drop_left' htake]
    · intro hlt
      have hres := cut.result_nonpos
      exact ⟨⟨fun hr => by simp only at hr; omega, fun hle => by omega⟩,
        fun hle => absurd hlt (by omega), fun _ => rfl⟩
  · exact .of_wp (wire_recvRepeat (fun _ hrpt => ⟨rfl, hrpt⟩) id)
  · exact .of_wp (wire_recvTime (fun ltime hltime => ⟨rfl, ltime, rfl, hltime⟩) id)
  · refine .of_wp (wire_sync Or.inl ?_ fun _ _ _ => Or.inr)
    intro n hn hstring
    refine ⟨rfl, ?_, hstring⟩
    rw [hn]
    exact Option.some_ne_none n

end wire

/-- A host that receives. -/
def littleHost : Host := init (netpipeObject .little () none)

/-- "SyncMe", and nothing behind it. -/
theorem control_reads_syncMe :
    ∃ h w, Exec (wireEnv (fun _ => some 6) .eof) (sync littleHost) ⟨0, [], tagged 0 syncMe⟩
      (.returned h) w := by
  obtain ⟨-, -, -, hsync⟩ := control_reads (fun _ => some 6) .eof ⟨0, [], tagged 0 syncMe⟩
    littleHost (id : UInt32 → UInt32)
  obtain ⟨h, w, hexec, -⟩ := hsync.returns (by
    rintro _ (hnone | hwrong)
    · exact absurd hnone (by decide)
    · exact absurd (by decide) hwrong)
  exact ⟨h, w, hexec⟩

end NetPipe.Tcp
