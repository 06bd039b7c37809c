/-
  `mpi_atoa.c`: what the exchange transmits.

  `MyMalloc` gives the send buffer a block for every rank, and `InitBufferData` fills the first
  one.  What the other ranks get is what `malloc` has left in the rest, and nothing the module
  does later looks at it: the exchange is silent about what it carries.

  1. `MyMalloc`: the two buffers, with whatever contents (`returned_allocate`).  These contents
     are a parameter of all that follows.

  2. A rank that fills its buffers and exchanges them keeps to its rounds
     (`keeps_fillAndExchange`), for any number of exchanges.  The load-bearing observation is that
     an exchange leaves the send buffers alone, so from the first one on the receive buffers stay
     the same.

  3. So all that arrives is initialised exactly where `malloc` happens to have left a 'b' in every
     byte behind the first block, on every rank (`initialised_iff`).
-/
import NetPipe.AtoaSession

namespace NetPipe.Atoa

open Memory Process Ranks Mpi Choreo

/-! ## The allocation -/

/-- `run_iters` around `MyMalloc`, without the cache: the buffers and the pointers to them. -/
def allocate (h : Host) (bufflen : Int) : Prog Host := do
  let h ← myMalloc { h with args.bufflen := bufflen } bufflen 0 0
  .ret { h with
    args.rPtr := h.args.rBuff, args.rBuffOrig := h.args.rBuff,
    args.sPtr := h.args.sBuff, args.sBuffOrig := h.args.sBuff }

/-- The same host once `malloc` has come up with these blocks. -/
def withBuffers (h : Host) (bufflen : Int) (r s : List UInt8) : Host :=
  let (rBuff, heap) := h.heap.alloc r
  let (sBuff, heap) := heap.alloc s
  { h with
    heap
    args.bufflen := bufflen, args.rBuff := rBuff, args.rBuffOrig := rBuff, args.rPtr := rBuff
    args.sBuff := sBuff, args.sBuffOrig := sBuff, args.sPtr := sBuff }

section allocation

variable {h : Host} {n : Nat} {r s : List UInt8}

theorem same_withBuffers (h : Host) (bufflen : Int) (r s : List UInt8) :
    Same h (withBuffers h bufflen r s) := ⟨rfl, rfl, rfl⟩

theorem placed_withBuffers (hr : (r.length : Int) = h.args.prot.nprocs * n)
    (hs : (s.length : Int) = h.args.prot.nprocs * n) : Placed (withBuffers h n r s) n r s := by
  refine ⟨rfl, hr, hs, h.heap.next, h.heap.next + 1, by omega, ?_⟩
  simp [withBuffers, Heap.alloc, Function.update_of_ne]

/-- Two blocks are asked for, both of the length of all ranks' blocks. -/
theorem allocate_eq (hcache : h.args.cache = false) (hn : 0 ≤ h.args.prot.nprocs)
    (hlt : (n : Int) * h.args.prot.nprocs < 2 ^ 31) :
    allocate h n = .malloc (h.args.prot.nprocs * n).toNat fun
      | none => .exit (-2)
        s!" Could not allocate memory for the recv buffer, Proc ID = {h.args.prot.iproc}\n"
      | some r => .malloc (h.args.prot.nprocs * n).toNat fun
        | none => .exit (-2)
          s!" Could not allocate memory for the recv buffer, Proc ID = {h.args.prot.iproc}\n"
        | some s => .ret (withBuffers h n r s) := by
  have hlen : toSizeT (wrap32 (nbytes1 h n + 0)) = (h.args.prot.nprocs * n).toNat := by
    rw [← toSizeT_nbytes1 hn hlt, Int.toNat_natCast]
  rw [← hlen]
  refine congrArg (Proc.malloc _) (funext ?_)
  intro a
  cases a with
  | none => rfl
  | some r =>
    simp only [hcache, Bool.false_eq_true, if_false]
    refine congrArg (Proc.malloc _) (funext ?_)
    intro a
    cases a with
    | none => rfl
    | some s => simp [withBuffers, Proc.bind, hcache]

/-- **`MyMalloc`** returns with any two blocks of that length. -/
theorem returned_allocate (hcache : h.args.cache = false) (hn : 0 ≤ h.args.prot.nprocs)
    (hlt : (n : Int) * h.args.prot.nprocs < 2 ^ 31) {h' : Host} {st : Unit} :
    Exec (allocating _ _) (allocate h n) () (.returned h') st ↔
      ∃ r s, (r.length : Int) = h.args.prot.nprocs * n ∧
        (s.length : Int) = h.args.prot.nprocs * n ∧ h' = withBuffers h n r s := by
  have hnonneg : 0 ≤ h.args.prot.nprocs * n := Int.mul_nonneg hn (Int.natCast_nonneg n)
  constructor
  · have hwp : wp ((allocating _ _).handler True) (allocate h n) (fun h' _ => ∃ r s : List UInt8,
        (r.length : Int) = h.args.prot.nprocs * n ∧ (s.length : Int) = h.args.prot.nprocs * n ∧
          h' = withBuffers h n r s) () := by
      rw [allocate_eq hcache hn hlt]
      rintro (_ | r) hr
      · trivial
      · rintro (_ | s) hs
        · trivial
        · refine ⟨r, s, ?_, ?_, rfl⟩
          · rw [hr r rfl, Int.toNat_of_nonneg hnonneg]
          · rw [hs s rfl, Int.toNat_of_nonneg hnonneg]
    exact fun hexec => hexec.returned hwp
  · rintro ⟨r, s, hr, hs, rfl⟩
    rw [allocate_eq hcache hn hlt]
    refine .malloc (r := some r) ?_ (.malloc (r := some s) ?_ .ret)
    · rintro _ ⟨⟩
      omega
    · rintro _ ⟨⟩
      omega

end allocation

/-! ## Exchanges -/

/-- What `InitBufferData` makes of a send buffer. -/
def filled (m : Nat) (s : List UInt8) : List UInt8 := List.replicate m 98 ++ s.drop m

/-- `k` exchanges; `SendData` and `RecvData` make the same call. -/
def exchanges : (k : Nat) → Host → Prog Host
  | 0, h => .ret h
  | k + 1, h => do
    let h ← sendData h
    exchanges k h

/-- The buffers filled and exchanged `k` times; what is in the receive buffer then. -/
def fillAndExchange (k : Nat) (h : Host) : Prog (List UInt8) := do
  let h ← initBufferData h h.args.bufflen 0 0
  let h ← exchanges k h
  .ofOption (h.heap.load h.args.rPtr (h.args.prot.nprocs * h.args.bufflen).toNat)

/-- `MPI_Alltoall` from these send buffers. -/
def dataRound {n : Nat} (cap : ℕ∞) (count : Nat) (bufs : Fin n → List UInt8) :
    Round (communicator n cap) :=
  alltoallRound cap count (fun j bs => bs = bufs j) (fun i bs => bs = exchanged count bufs i)
    fun _ hbufs _ => funext hbufs ▸ rfl

section keeps

variable {n : Nat} {cap : ℕ∞} {idle : Idle n Msg Coll} {i : Fin n} {m : Nat} {s : List UInt8}
  {bufs : Fin n → List UInt8} {rest : List (Part Msg (communicator n cap))}
  {Q : Host → List (Part Msg (communicator n cap)) → Prop}

/-- After the first exchange the receive buffer stays the same. -/
theorem keeps_exchanges (hlen : ∀ j, (bufs j).length = n * m) (k : Nat) : ∀ (h : Host)
    (r : List UInt8), IsRank h n i → Placed h m r (bufs i) →
    (r = exchanged m bufs i ∨ 0 < k) →
    (∀ h', Same h h' → Placed h' m (exchanged m bufs i) (bufs i) → Q h' rest) →
    wp (rankHandler cap idle i) (exchanges k h) Q
      (List.replicate k (.round (dataRound cap m bufs)) ++ rest) := by
  induction k with
  | zero =>
    intro h r _ hh hr hQ
    obtain rfl := hr.resolve_right (Nat.lt_irrefl 0)
    exact hQ h .rfl hh
  | succ k ih =>
    intro h r hrank hh _ hQ
    refine wp_bind (wp_sendData hh (handler_coll ⟨bufs i, rfl, rfl⟩ ?_))
    rintro _ rfl
    constructor
    · rw [hrank.nprocs, exchanged_length hlen]
      rfl
    · intro h' hsame hh'
      refine ih h' _ (hrank.same hsame) hh' (Or.inl rfl) ?_
      -- the same blocks arrive again, so what comes after does not depend on `k`
      intro h'' hsame' hh''
      exact hQ h'' (hsame.trans hsame') hh''

theorem filled_length {n : Nat} {s : List UInt8} (hn : 0 < n) (hs : s.length = n * m) :
    (filled m s).length = n * m := by
  have hle : 1 * m ≤ n * m := Nat.mul_le_mul_right m hn
  rw [filled, List.length_append, List.length_replicate, List.length_drop, hs]
  omega

/-- **The whole of it**: whatever is in the buffers, `k` rounds, and the receive buffer holds
    what the exchange makes of the send buffers as `InitBufferData` has left them. -/
theorem keeps_fillAndExchange (hm : m < 2 ^ 31) (hlt : (m : Int) * n < 2 ^ 31) {k : Nat}
    (hk : 0 < k) {h : Host} {r : List UInt8} {s : Fin n → List UInt8}
    (hlen : ∀ j, (s j).length = n * m) (hrank : IsRank h n i) (hh : Placed h m r (s i)) :
    Keeps idle (fun bs => bs = exchanged m (fun j => filled m (s j)) i) i (fillAndExchange k h)
      (List.replicate k (.round (dataRound cap m fun j => filled m (s j)))) := by
  have hn : 0 < n := Nat.zero_lt_of_lt i.isLt
  have hprocs : 1 ≤ h.args.prot.nprocs := by rw [hrank.nprocs]; omega
  obtain ⟨h₁, hinit, hsame, hh₁⟩ :=
    initBufferData_eq hh hrank.cache hm hprocs (hrank.nprocs.symm ▸ hlt)
  unfold fillAndExchange
  rw [hh.bufflen, hinit, ← List.append_nil (List.replicate k _)]
  show wp _ ((exchanges k h₁).bind _) _ _
  refine wp_bind (keeps_exchanges (fun j => filled_length hn (hlen j)) k h₁ _ (hrank.same hsame)
    hh₁ (Or.inr hk) ?_)
  intro h₂ hsame₂ hh₂
  rw [hh₂.bufflen, hh₂.load_ptrs.1]
  exact ⟨rfl, rfl⟩

end keeps

/-! ## What arrives -/

section main

variable {n m : Nat} {cap : ℕ∞}

/-- The ranks fill and exchange; every byte that has arrived is a 'b'. -/
def Initialised (cap : ℕ∞) (k : Nat) (h : Fin n → Host) : Prop :=
  Completes (communicator n cap) (.start fun i => fillAndExchange k (h i))
    fun _ bs => ∀ b ∈ bs, b = 98

section allocated

variable {order : Fin n → ByteOrder} {h : Fin n → Host} {s : Fin n → List UInt8}

/-- A rank whose `MyMalloc` has returned. -/
theorem allocated (hlt : (m : Int) * n < 2 ^ 31) {i : Fin n}
    (halloc : Exec (allocating _ _) (allocate (host (order i) i n) m) () (.returned (h i)) ())
    (hs : (h i).heap.load (h i).args.sPtr (n * m) = some (s i)) :
    ∃ r, (s i).length = n * m ∧ IsRank (h i) n i ∧ Placed (h i) m r (s i) := by
  have hrank := isRank_host (order i) i
  have hnprocs : (host (order i) i n).args.prot.nprocs = n := hrank.nprocs
  obtain ⟨r, s', hr, hs', heq⟩ := (returned_allocate hrank.cache (by omega)
    (hnprocs.symm ▸ hlt)).mp halloc
  have hh := heq ▸ placed_withBuffers hr hs'
  have hrank' := heq ▸ hrank.same (same_withBuffers _ m r s')
  have hload := hh.load_ptrs.2
  rw [hrank'.nprocs, ← Int.natCast_mul, Int.toNat_natCast, hs] at hload
  obtain rfl := Option.some.inj hload
  rw [hnprocs] at hs'
  exact ⟨r, by exact_mod_cast hs', hrank', hh⟩

/-- All ranks end with what the exchange makes of the filled buffers. -/
theorem exchanged_filled (hprocs : 2 ≤ n) (cap : ℕ∞) (hlt : m * n < 2 ^ 31) {k : Nat} (hk : 1 ≤ k)
    (halloc : ∀ i, Exec (allocating _ _) (allocate (host (order i) i n) m) () (.returned (h i)) ())
    (hs : ∀ i, (h i).heap.load (h i).args.sPtr (n * m) = some (s i)) :
    (∀ i, (s i).length = n * m) ∧
      Completes (communicator n cap) (.start fun i => fillAndExchange k (h i))
        fun i bs => bs = exchanged m (fun j => filled m (s j)) i := by
  have hlt' : (m : Int) * n < 2 ^ 31 := by exact_mod_cast hlt
  have hm : m < 2 ^ 31 := lt_of_le_of_lt (Nat.le_mul_of_pos_right m (by omega)) hlt
  choose r hlen hrank hh using fun i => allocated hlt' (halloc i) (hs i)
  refine ⟨hlen, completes
    (σ := List.replicate k (.round (dataRound cap m fun j => filled m (s j)))) ?_⟩
  intro i
  rw [← List.map_replicate, script_rounds, List.map_replicate]
  exact keeps_fillAndExchange hm hlt' hk hlen (hrank i) (hh i)

/-- **What is exchanged is initialised** exactly where `malloc` gave every rank a send buffer in
    which all blocks but the first hold nothing but 'b' already. -/
theorem initialised_iff (hprocs : 2 ≤ n ∧ (n : Int) ≤ MAXPROCS) (cap : ℕ∞)
    (order : Fin n → ByteOrder) (hlt : m * n < 2 ^ 31) {k : Nat} (hk : 1 ≤ k)
    (halloc : ∀ i, Exec (allocating _ _) (allocate (host (order i) i n) m) () (.returned (h i)) ())
    (hs : ∀ i, (h i).heap.load (h i).args.sPtr (n * m) = some (s i)) :
    Initialised cap k h ↔ ∀ i, ∀ b ∈ (s i).drop m, b = 98 := by
  obtain ⟨hlen, hcompletes⟩ := exchanged_filled hprocs.1 cap hlt hk halloc hs
  have hbytes := forall_exchanged (fun j => filled_length (by omega) (hlen j)) (· = 98)
  have hfilled : (∀ j, ∀ b ∈ filled m (s j), b = 98) ↔ ∀ j, ∀ b ∈ (s j).drop m, b = 98 := by
    simp [filled, or_imp]
  rw [← hfilled, ← hbytes]
  constructor
  · intro hinit i
    obtain ⟨c, hc, hstuck⟩ := exists_stuck (N := communicator n cap)
      (.start fun i => fillAndExchange k (h i))
    obtain ⟨bs, hret, hall⟩ := hinit.returned c hc hstuck i
    obtain ⟨bs', hret', rfl⟩ := hcompletes.returned c hc hstuck i
    obtain rfl : bs = _ := Proc.ret.inj (hret.symm.trans hret')
    exact hall
  · intro hall
    refine .of_stuck ?_
    intro c hc hstuck i
    obtain ⟨bs, hret, rfl⟩ := hcompletes.returned c hc hstuck i
    exact ⟨_, hret, hall i⟩

end allocated

/-- `MyMalloc` of a byte for each of two ranks. -/
theorem exec_withBuffers {i : Fin 2} {r s : List UInt8} (hr : r.length = 2) (hs : s.length = 2) :
    Exec (allocating _ _) (allocate (host .little i 2) ((1 : Nat) : Int)) ()
      (.returned (withBuffers (host .little i 2) 1 r s)) () := by
  refine (returned_allocate rfl (show (0 : Int) ≤ 2 by decide)
    (show ((1 : Nat) : Int) * 2 < 2 ^ 31 by decide)).mpr ⟨r, s, ?_, ?_, rfl⟩
  · rw [hr]
    rfl
  · rw [hs]
    rfl

/-- Two ranks and a byte, in memory where all is 'b' already. -/
theorem initialised_bytes :
    Initialised 0 1 fun i : Fin 2 => withBuffers (host .little i 2) 1 [0, 0] [98, 98] :=
  (initialised_iff (m := 1) (s := fun _ => [98, 98]) (by decide) 0 (fun _ => .little) (by decide)
    (Nat.le_refl 1) (fun _ => exec_withBuffers rfl rfl) fun _ => rfl).mpr
    fun _ _ hb => List.mem_singleton.mp hb

/-- The same in memory of zeros: rank 1 gets zeros. -/
theorem uninitialised_bytes :
    (∀ i : Fin 2, Exec (allocating _ _) (allocate (host .little i 2) 1) ()
      (.returned (withBuffers (host .little i 2) 1 [0, 0] [0, 0])) ()) ∧
    ¬ Initialised 0 1 fun i : Fin 2 => withBuffers (host .little i 2) 1 [0, 0] [0, 0] := by
  have halloc : ∀ i : Fin 2, Exec (allocating _ _) (allocate (host .little i 2) ((1 : Nat) : Int))
      () (.returned (withBuffers (host .little i 2) 1 [0, 0] [0, 0])) () :=
    fun _ => exec_withBuffers rfl rfl
  refine ⟨halloc, ?_⟩
  intro hinit
  obtain ⟨-, hcompletes⟩ := exchanged_filled (s := fun _ => [0, 0]) (by decide) 0 (by decide)
    (Nat.le_refl 1) halloc fun _ => rfl
  obtain ⟨c, hc, hstuck⟩ := exists_stuck (N := communicator 2 0)
    (.start fun i : Fin 2 => fillAndExchange 1 (withBuffers (host .little i 2) 1 [0, 0] [0, 0]))
  obtain ⟨bs, hret, hall⟩ := hinit.returned c hc hstuck 1
  obtain ⟨bs', hret', rfl⟩ := hcompletes.returned c hc hstuck 1
  obtain rfl : bs = _ := Proc.ret.inj (hret.symm.trans hret')
  exact absurd (hall 0 (by decide)) (by decide)

end main

end NetPipe.Atoa
