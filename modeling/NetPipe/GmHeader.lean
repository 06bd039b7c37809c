/-
  `gm.c`: size and repeat count through one word of memory that is copied out later.

  `SendRepeat` stores its value in `*lrpt` and hands `lrpt` to GM, which copies the word out at
  some moment after that; nothing waits for the callback.  `RecvRepeat` provides a buffer, which
  is good for one message, and reads it with `readFully`.  What is sent is the long as it is in
  memory, and not in network order as the comment has it.

  1. **The functions.**  The transmitter's half is a list of instructions, for GM works between any
     two of them; the receiver's half is one call of `readFully`.

  2. **A value on the other host** (`arrived_eq`): between hosts of different byte orders nothing
     but its sign is left, as the receiver reads the half of the long that holds it.

  3. **The two hosts**, step by step.  The word is the register of `Lib.Slot`: storing a value is a
     write, copying it out a read, and there are never more of the latter.  That is the
     load-bearing field of `Flow`; messages are kept in order on their way, so what has been
     received is what has been copied out, and each run of the register is one of the hosts
     (`exists_run`).

  4. **Both together** (`repeat_exact`): every run ends with both hosts through, what is handed out
     is what becomes of a late reading of the values, and any late reading may be it.
-/
import Mathlib.Data.List.Basic
import NetPipe.Gm
import NetPipe.Lib.Process
import NetPipe.Lib.Slot

namespace NetPipe.Gm

open Memory

/-- There are two hosts: what the literals `0` and `1` for them rest on. -/
scoped instance neZero_two : NeZero 2 := ⟨two_ne_zero⟩

/-! ## The functions -/

/-- `*lrpt = (int)rpt`: a long of 64 bits. -/
def longOfInt (rpt : UInt32) : UInt64 := .ofNat (toSizeT (toInt32 rpt))

/-- The eight bytes of a long, as a host of this byte order keeps them. -/
def longBytes : ByteOrder → UInt64 → List UInt8
  | .little, v => toBytes .little v.toUInt32 ++ toBytes .little (v >>> 32).toUInt32
  | .big, v => toBytes .big (v >>> 32).toUInt32 ++ toBytes .big v.toUInt32

/-- `(int)*lrpt`, from the eight bytes that are there. -/
def intOfLong : ByteOrder → List UInt8 → UInt32
  | .little, bs => ofBytes .little (bs.take 4)
  | .big, bs => ofBytes .big (bs.drop 4)

/-- What the transmitter does. -/
inductive Instr where
  /-- `*lrpt = (int)rpt`. -/
  | store (rpt : UInt32)
  /-- `gm_send_to_peer_with_callback(gm_p, lrpt, ..)`. -/
  | send
  deriving DecidableEq, Repr

/-- `SendRepeat(p, rpt)`. -/
def sendRepeat (rpt : UInt32) : List Instr := [.store rpt, .send]

/-- `RecvRepeat(p, rpt)`, with these events and `lrpt` at this address: `*rpt`, and memory. -/
def recvRepeat (order : ByteOrder) (lrpt : Nat) (events : List Event) (m : Mem) :
    Option (UInt32 × Mem) :=
  match readFully lrpt 8 events m with
  | some (_, m, _) => some (intOfLong order ((List.range 8).map fun j => m (lrpt + j)), m)
  | none => none

/-! ## A value on the other host -/

/-- What the receiver makes of a value. -/
def arrived (order : Fin 2 → ByteOrder) (rpt : UInt32) : UInt32 :=
  intOfLong (order 1) (longBytes (order 0) (longOfInt rpt))

/-- The upper half of a long that was an integer. -/
def signWord (rpt : UInt32) : UInt32 := if toInt32 rpt < 0 then 0xFFFFFFFF else 0

theorem longBytes_length (o : ByteOrder) (v : UInt64) : (longBytes o v).length = 8 := by
  cases o <;> simp [longBytes]

theorem toNat_longOfInt (rpt : UInt32) :
    (longOfInt rpt).toNat = rpt.toNat + (signWord rpt).toNat * 2 ^ 32 := by
  have hlt := rpt.toNat_lt
  rw [longOfInt, signWord, toSizeT, toInt32, BitVec.toInt_eq_toNat_cond]
  simp only [UInt32.toNat_toBitVec, UInt64.toNat_ofNat']
  split
  · rw [if_neg (by omega), UInt32.toNat_zero]
    omega
  · rw [if_pos (by omega), show (0xFFFFFFFF : UInt32).toNat = 2 ^ 32 - 1 from rfl]
    omega

theorem lower_longOfInt (rpt : UInt32) : (longOfInt rpt).toUInt32 = rpt := by
  have hlt := rpt.toNat_lt
  apply UInt32.toNat_inj.mp
  rw [UInt64.toNat_toUInt32, toNat_longOfInt]
  omega

theorem upper_longOfInt (rpt : UInt32) : (longOfInt rpt >>> 32).toUInt32 = signWord rpt := by
  have hlt := rpt.toNat_lt
  have hsign := (signWord rpt).toNat_lt
  apply UInt32.toNat_inj.mp
  rw [UInt64.toNat_toUInt32, UInt64.toNat_shiftRight, toNat_longOfInt,
    show (32 : UInt64).toNat % 64 = 32 from rfl, Nat.shiftRight_eq_div_pow]
  omega

/-- All its bytes are the same. -/
theorem ofBytes_signWord (o o' : ByteOrder) (rpt : UInt32) :
    ofBytes o (toBytes o' (signWord rpt)) = signWord rpt := by
  rw [signWord]
  cases o <;> cases o' <;> split <;> rfl

/-- **A value on the other host.**  With one byte order it is itself; else the receiver's low
    half is the sender's high half backwards, all of whose bytes are the sign. -/
theorem arrived_eq (order : Fin 2 → ByteOrder) (rpt : UInt32) :
    arrived order rpt = if order 0 = order 1 then rpt else signWord rpt := by
  have htake : ∀ (o o' : ByteOrder) (v w : UInt32),
      (toBytes o v ++ toBytes o' w).take 4 = toBytes o v := by
    intro o o' v w
    rw [List.take_append_of_le_length (by simp), List.take_of_length_le (by simp)]
  have hdrop : ∀ (o o' : ByteOrder) (v w : UInt32),
      (toBytes o v ++ toBytes o' w).drop 4 = toBytes o' w := fun o o' v w =>
    List.drop_left' (toBytes_length o v)
  rw [arrived]
  cases order 0 <;> cases order 1
  · rw [if_pos rfl, longBytes, intOfLong, htake, lower_longOfInt, ofBytes_toBytes]
  · rw [if_neg (by decide), longBytes, intOfLong, hdrop, upper_longOfInt, ofBytes_signWord]
  · rw [if_neg (by decide), longBytes, intOfLong, htake, upper_longOfInt, ofBytes_signWord]
  · rw [if_pos rfl, longBytes, intOfLong, hdrop, lower_longOfInt, ofBytes_toBytes]

/-! ## A message received -/

/-- How GM hands over a message, after any number of polls: in memory of its own, or in the buffer
    provided. -/
inductive Delivers (lrpt : Nat) (message : List UInt8) (m : Mem) : List Event → Mem → Prop where
  | fastPeerRecv : Delivers lrpt message m [.fastPeerRecv message] m
  | recv : Delivers lrpt message m [.recv message.length] (bcopy message lrpt m)
  | peerRecv : Delivers lrpt message m [.peerRecv message.length] (bcopy message lrpt m)
  | noRecv {events m'} : Delivers lrpt message m events m' →
      Delivers lrpt message m (.noRecv :: events) m'
  | unknown {events m'} : Delivers lrpt message m events m' →
      Delivers lrpt message m (.unknown :: events) m'

section delivers

variable {lrpt : Nat} {message : List UInt8} {m m' : Mem} {events : List Event}

/-- **`readFully`** of a message that has come whole, by induction on the polls. -/
theorem readFully_delivered (h : Delivers lrpt message m events m') (hpos : 0 < message.length)
    (hint : message.length < 2 ^ 31) :
    readFully lrpt message.length events m' = some (1, bcopy message lrpt m, []) := by
  have hwrap : wrap32 message.length = message.length := wrap32_eq (by omega) (by omega)
  have hleft : (message.length : Int) > 0 := by omega
  unfold readFully
  induction h with
  | fastPeerRecv | recv | peerRecv =>
    simp only [readFully.loop, if_pos hleft, hwrap, sub_self]
    rfl
  | noRecv _ ih | unknown _ ih =>
    simp only [readFully.loop, if_pos hleft]
    exact ih

/-- What is at `lrpt` then. -/
theorem load_bcopy {n : Nat} (hlen : message.length = n) :
    ((List.range n).map fun j => bcopy message lrpt m (lrpt + j)) = message := by
  refine List.ext_getElem (by simp [hlen]) fun j hj hj' => ?_
  simp [bcopy, List.getElem?_eq_getElem hj']

theorem recvRepeat_delivered (order : ByteOrder) (h : Delivers lrpt message m events m')
    (hlen : message.length = 8) :
    recvRepeat order lrpt events m' = some (intOfLong order message, bcopy message lrpt m) := by
  have hread := readFully_delivered h (by omega) (by omega)
  rw [hlen] at hread
  rw [recvRepeat, show (8 : Int) = (8 : Nat) from rfl, hread]
  simp only [load_bcopy hlen]

end delivers

/-! ## The two hosts -/

/-- The transmitter: `*lrpt`, the rest of its program, and the sends whose bytes are still to be
    copied.  The receiver: the calls of `RecvRepeat` to go, memory, and what it has been handed.  In
    between, the messages, which GM keeps in order. -/
structure Hosts where
  word : UInt64
  todo : List Instr
  posted : Nat
  wire : List (List UInt8)
  togo : Nat
  mem : Mem
  got : List UInt32

/-- Before these values are sent. -/
def start (word : UInt64) (mem : Mem) (sent : List UInt32) : Hosts :=
  ⟨word, sent.flatMap sendRepeat, 0, [], sent.length, mem, []⟩

/-- One step: of the transmitter, of its network interface, or one call of `RecvRepeat`. -/
inductive Step (order : Fin 2 → ByteOrder) (lrpt : Nat) (c : Hosts) : Hosts → Prop where
  | store {rpt rest} : c.todo = .store rpt :: rest →
      Step order lrpt c { c with todo := rest, word := longOfInt rpt }
  | send {rest} : c.todo = .send :: rest →
      Step order lrpt c { c with todo := rest, posted := c.posted + 1 }
  | copy {n} : c.posted = n + 1 →
      Step order lrpt c { c with posted := n, wire := c.wire ++ [longBytes (order 0) c.word] }
  | receive {message rest n events m rpt m'} : c.wire = message :: rest → c.togo = n + 1 →
      Delivers lrpt message c.mem events m →
      recvRepeat (order 1) lrpt events m = some (rpt, m') →
      Step order lrpt c { c with wire := rest, togo := n, mem := m', got := c.got ++ [rpt] }

/-- Any number of steps. -/
abbrev Steps (order : Fin 2 → ByteOrder) (lrpt : Nat) : Hosts → Hosts → Prop :=
  Relation.ReflTransGen (Step order lrpt)

/-- Both hosts have gone through their calls. -/
def Finished (c : Hosts) : Prop := c.todo = [] ∧ c.togo = 0

/-- The message of a value. -/
def message (order : Fin 2 → ByteOrder) (rpt : UInt32) : List UInt8 :=
  longBytes (order 0) (longOfInt rpt)

/-- Where the transmitter is: with `written` in the word one after the other, and `k` of its calls
    of GM behind it. -/
inductive Sending (sent written : List UInt32) (k : Nat) (c : Hosts) : Prop where
  | call (rest : List UInt32) : c.todo = rest.flatMap sendRepeat → sent = written ++ rest →
      k = written.length → Sending sent written k c
  | set (rest : List UInt32) : c.todo = .send :: rest.flatMap sendRepeat →
      sent = written ++ rest → k + 1 = written.length → Sending sent written k c

/-- **The invariant**: `read` are the values copied out of the word; some of them have been
    received, the others are on their way.  `sending` is why there are never more values copied out
    than written: each call stores before it posts, and a posted send copies out once. -/
structure Flow (order : Fin 2 → ByteOrder) (sent written read : List UInt32) (c : Hosts) :
    Prop where
  register : Slot.Steps ([], []) (written, read)
  sending : Sending sent written (read.length + c.posted) c
  word : ∀ rpt, written.getLast? = some rpt → c.word = longOfInt rpt
  received : ∃ taken pending, read = taken ++ pending ∧ taken.length + c.togo = sent.length ∧
    c.got = taken.map (arrived order) ∧ c.wire = pending.map (message order)

section flow

variable {order : Fin 2 → ByteOrder} {lrpt : Nat} {sent written read : List UInt32} {c c' : Hosts}

theorem flow_start (order : Fin 2 → ByteOrder) (word : UInt64) (mem : Mem) (sent : List UInt32) :
    Flow order sent [] [] (start word mem sent) where
  register := .refl
  sending := .call sent rfl rfl rfl
  word := nofun
  received := ⟨[], [], rfl, Nat.zero_add _, rfl, rfl⟩

/-- A value is stored. -/
theorem Flow.store (h : Flow order sent written read c) {rpt : UInt32} {rest : List Instr}
    (htodo : c.todo = .store rpt :: rest) :
    Flow order sent (written ++ [rpt]) read { c with todo := rest, word := longOfInt rpt } := by
  obtain ⟨hregister, hsending, -, hreceived⟩ := h
  refine ⟨hregister.tail .write, ?_, ?_, hreceived⟩
  · cases hsending with
    | set => simp_all
    | call more hcall hsent hk =>
      cases more with
      | nil => simp_all
      | cons v more =>
        rw [hcall, List.flatMap_cons, sendRepeat] at htodo
        cases htodo
        refine .set more rfl (by rw [hsent, List.append_cons]) ?_
        rw [List.length_append, List.length_singleton]
        simp only
        omega
  · intro v hv
    rw [List.getLast?_concat] at hv
    cases hv
    rfl

/-- And handed to GM. -/
theorem Flow.send (h : Flow order sent written read c) {rest : List Instr}
    (htodo : c.todo = .send :: rest) :
    Flow order sent written read { c with todo := rest, posted := c.posted + 1 } := by
  obtain ⟨hregister, hsending, hword, hreceived⟩ := h
  refine ⟨hregister, ?_, hword, hreceived⟩
  cases hsending with
  | set more hset hsent hk =>
    rw [hset] at htodo
    cases htodo
    exact .call more rfl hsent hk
  | call more hcall =>
    cases more with
    | nil => simp_all
    | cons v more => simp_all [sendRepeat]

/-- The word is copied out. -/
theorem Flow.copy (h : Flow order sent written read c) {n : Nat} (hposted : c.posted = n + 1) :
    ∃ rpt, Flow order sent written (read ++ [rpt])
      { c with posted := n, wire := c.wire ++ [longBytes (order 0) c.word] } := by
  obtain ⟨hregister, hsending, hword, taken, pending, hread, hlen, hgot, hwire⟩ := h
  have hlt : read.length < written.length := by
    cases hsending with
    | call _ _ _ hk | set _ _ _ hk => omega
  obtain rfl | ⟨init, rpt, rfl⟩ := written.eq_nil_or_concat
  · simp at hlt
  rw [List.concat_eq_append] at *
  have hv : c.word = longOfInt rpt := hword rpt List.getLast?_concat
  rw [List.length_append, List.length_singleton] at hlt
  refine ⟨rpt, hregister.tail (.read (by omega)), ?_, hword, taken, pending ++ [rpt], ?_, hlen,
    hgot, ?_⟩
  · have hk : (read ++ [rpt]).length + n = read.length + c.posted := by
      rw [List.length_append, List.length_singleton]
      omega
    rw [hk]
    cases hsending with
    | call more htodo hsent hk => exact .call more htodo hsent hk
    | set more htodo hsent hk => exact .set more htodo hsent hk
  · rw [hread, List.append_assoc]
  · rw [hwire, hv, List.map_append]
    rfl

/-- And received. -/
theorem Flow.receive (h : Flow order sent written read c) {message : List UInt8}
    {rest : List (List UInt8)} {n : Nat} {events : List Event} {m m' : Mem} {rpt : UInt32}
    (hwire : c.wire = message :: rest) (htogo : c.togo = n + 1)
    (hdelivers : Delivers lrpt message c.mem events m)
    (hrecv : recvRepeat (order 1) lrpt events m = some (rpt, m')) :
    Flow order sent written read
      { c with wire := rest, togo := n, mem := m', got := c.got ++ [rpt] } := by
  obtain ⟨hregister, hsending, hword, taken, pending, hread, hlen, hgot, hwire'⟩ := h
  refine ⟨hregister, ?_, hword, ?_⟩
  · cases hsending with
    | call more htodo hsent hk => exact .call more htodo hsent hk
    | set more htodo hsent hk => exact .set more htodo hsent hk
  · obtain ⟨v, pending, rfl, rfl, rfl⟩ := List.map_eq_cons_iff.mp (hwire'.symm.trans hwire)
    rw [recvRepeat_delivered _ hdelivers (longBytes_length _ _)] at hrecv
    cases hrecv
    refine ⟨taken ++ [v], pending, by rw [hread, List.append_cons], ?_, ?_, rfl⟩
    · rw [List.length_append, List.length_singleton]
      simp only
      omega
    · rw [hgot, List.map_append]
      rfl

/-- **Step lemma**: storing is a write of the register, copying out is a read of it, and a call
    of the receiver takes the first message there is. -/
theorem Flow.step (h : Flow order sent written read c) (hs : Step order lrpt c c') :
    ∃ written read, Flow order sent written read c' := by
  cases hs with
  | store htodo => exact ⟨_, _, h.store htodo⟩
  | send htodo => exact ⟨_, _, h.send htodo⟩
  | copy hposted =>
    obtain ⟨rpt, h'⟩ := h.copy hposted
    exact ⟨_, _, h'⟩
  | receive hwire htogo hdelivers hrecv => exact ⟨_, _, h.receive hwire htogo hdelivers hrecv⟩

/-- **Run lemma.** -/
theorem Flow.steps (h : Flow order sent written read c) (hs : Steps order lrpt c c') :
    ∃ written read, Flow order sent written read c' := by
  induction hs with
  | refl => exact ⟨written, read, h⟩
  | tail _ hstep ih =>
    obtain ⟨written, read, h⟩ := ih
    exact h.step hstep

/-- Where no step is possible, both hosts are done. -/
theorem Flow.stuck (h : Flow order sent written read c) (hs : ∀ c', ¬ Step order lrpt c c') :
    Finished c := by
  obtain ⟨-, hsending, -, taken, pending, hread, hlen, -, hwire⟩ := h
  have hposted : c.posted = 0 := by
    by_contra hne
    exact hs _ (.copy (Nat.succ_pred hne).symm)
  cases hsending with
  | set rest htodo => exact absurd (.send htodo) (hs _)
  | call rest htodo hsent hk =>
    cases rest with
    | cons v rest => exact absurd (.store htodo) (hs _)
    | nil =>
      rw [List.append_nil] at hsent
      rw [hposted, hread, List.length_append, ← hsent] at hk
      refine ⟨htodo, ?_⟩
      cases pending with
      | nil =>
        rw [List.length_nil] at hk
        omega
      | cons v pending =>
        rw [List.length_cons] at hk
        obtain ⟨n, hn⟩ : ∃ n, c.togo = n + 1 := ⟨c.togo - 1, by omega⟩
        exact absurd (.receive hwire hn .fastPeerRecv
          (recvRepeat_delivered _ .fastPeerRecv (longBytes_length _ _))) (hs _)

/-- Once they are, everything has been stored, copied and received. -/
theorem Flow.finished (h : Flow order sent written read c) (hfin : Finished c) :
    Slot.Late sent read ∧ read.length = sent.length ∧ c.got = read.map (arrived order) := by
  obtain ⟨hregister, hsending, -, taken, pending, hread, hlen, hgot, -⟩ := h
  rw [hfin.2] at hlen
  have hle : read.length = taken.length + pending.length := by rw [hread, List.length_append]
  cases hsending with
  | set rest htodo => cases htodo.symm.trans hfin.1
  | call rest htodo hsent hk =>
    have hrest : sent.length = written.length + rest.length := by
      rw [hsent, List.length_append]
    obtain rfl : rest = [] := List.length_eq_zero_iff.mp (by omega)
    obtain rfl : pending = [] := List.length_eq_zero_iff.mp (by omega)
    rw [List.append_nil] at hsent hread
    rw [← hsent] at hregister
    rw [← hread] at hgot
    exact ⟨Slot.late_of_steps hregister, by omega, hgot⟩

end flow

/-! ## Each run of the register is one of the hosts -/

section realise

variable {order : Fin 2 → ByteOrder} {lrpt : Nat} {sent written read : List UInt32}

/-- **Any steps of the register** are steps of the transmitter, before anything is received. -/
theorem exists_sent (order : Fin 2 → ByteOrder) (lrpt : Nat) (word : UInt64) (mem : Mem)
    {s : List UInt32 × List UInt32} (h : Slot.Steps ([], []) s) :
    ∀ {more : List UInt32}, sent = s.1 ++ more →
      ∃ word' posted, s.2.length + posted = s.1.length ∧
        (∀ rpt, s.1.getLast? = some rpt → word' = longOfInt rpt) ∧
        Steps order lrpt (start word mem sent) ⟨word', more.flatMap sendRepeat, posted,
          s.2.map (message order), sent.length, mem, []⟩ := by
  induction h with
  | refl =>
    rintro more rfl
    exact ⟨word, 0, rfl, nofun, .refl⟩
  | tail _ hstep ih =>
    intro more hmore
    cases hstep with
    | @write written got v =>
      rw [List.append_assoc] at hmore
      obtain ⟨word', posted, hlen, -, hsteps⟩ := ih hmore
      refine ⟨longOfInt v, posted + 1, ?_, ?_, (hsteps.tail (.store rfl)).tail (.send rfl)⟩
      · rw [List.length_append, List.length_singleton, ← hlen, Nat.add_assoc]
      · intro rpt hrpt
        rw [List.getLast?_concat] at hrpt
        cases hrpt
        rfl
    | @read written got v hle =>
      obtain ⟨word', posted, hlen, hword, hsteps⟩ := ih hmore
      have hv : word' = longOfInt v := hword v List.getLast?_concat
      have hlt : got.length < (written ++ [v]).length := by
        rw [List.length_append, List.length_singleton]
        omega
      obtain ⟨n, rfl⟩ : ∃ n, posted = n + 1 :=
        Nat.exists_eq_add_one.mpr (Nat.lt_of_add_lt_add_left (hlt.trans_eq hlen.symm))
      refine ⟨word', n, ?_, hword, ?_⟩
      · rw [← hlen, List.length_append, List.length_singleton, Nat.add_assoc, Nat.add_comm 1]
      · have hcopy := hsteps.tail (.copy rfl)
        rw [hv] at hcopy ⊢
        rwa [List.map_append, List.map_singleton]

/-- Whatever is under way is received. -/
theorem exists_received (word : UInt64) (todo : List Instr) (posted : Nat) (vs : List UInt32) :
    ∀ (mem : Mem) (got : List UInt32), ∃ mem', Steps order lrpt
      ⟨word, todo, posted, vs.map (message order), vs.length, mem, got⟩
      ⟨word, todo, posted, [], 0, mem', got ++ vs.map (arrived order)⟩ := by
  induction vs with
  | nil =>
    intro mem got
    rw [List.map_nil, List.map_nil, List.append_nil]
    exact ⟨mem, .refl⟩
  | cons v vs ih =>
    intro mem got
    obtain ⟨mem', hsteps⟩ := ih (bcopy (message order v) lrpt mem) (got ++ [arrived order v])
    rw [← List.append_cons] at hsteps
    exact ⟨mem', .head (.receive rfl rfl .fastPeerRecv
      (recvRepeat_delivered _ .fastPeerRecv (longBytes_length _ _))) hsteps⟩

/-- **Each late reading** is what some run comes to: the register does its steps first, with
    everything under way at the end, and then it is all received. -/
theorem exists_run (order : Fin 2 → ByteOrder) (lrpt : Nat) (word : UInt64) (mem : Mem)
    (hlate : Slot.Late sent read) (hlen : read.length = sent.length) :
    ∃ c, Steps order lrpt (start word mem sent) c ∧ Finished c ∧
      c.got = read.map (arrived order) := by
  obtain ⟨word', posted, -, -, hsent⟩ := exists_sent order lrpt word mem
    (Slot.steps_of_late hlate) (List.append_nil sent).symm
  obtain ⟨mem', hreceived⟩ := exists_received word' [] posted read mem []
  rw [← hlen] at hsent
  exact ⟨_, hsent.trans hreceived, ⟨rfl, rfl⟩, List.nil_append _⟩

end realise

/-! ## Both together -/

/-- The steps there are to come. -/
def Hosts.weight (c : Hosts) : Nat := 3 * c.todo.length + 2 * c.posted + c.wire.length

theorem Step.weight_lt {order : Fin 2 → ByteOrder} {lrpt : Nat} {c c' : Hosts}
    (h : Step order lrpt c c') : c'.weight < c.weight := by
  cases h with
  | store htodo | send htodo =>
    simp only [Hosts.weight, htodo, List.length_cons]
    omega
  | copy hposted =>
    simp only [Hosts.weight, hposted, List.length_append, List.length_singleton]
    omega
  | receive hwire =>
    simp only [Hosts.weight, hwire, List.length_cons]
    omega

/-- Every run from here comes to an end, with both hosts done. -/
structure Completes (order : Fin 2 → ByteOrder) (lrpt : Nat) (c₀ : Hosts) : Prop where
  finished : ∀ c, Steps order lrpt c₀ c → (∀ c', ¬ Step order lrpt c c') → Finished c
  finite : ∀ f : Nat → Hosts, f 0 = c₀ → ¬ ∀ k, Step order lrpt (f k) (f (k + 1))

section main

variable {order : Fin 2 → ByteOrder} {lrpt : Nat} {word : UInt64} {mem : Mem}
  {sent got : List UInt32}

theorem completes (order : Fin 2 → ByteOrder) (lrpt : Nat) (word : UInt64) (mem : Mem)
    (sent : List UInt32) : Completes order lrpt (start word mem sent) where
  finished c hc hstuck := by
    obtain ⟨written, read, h⟩ := (flow_start order word mem sent).steps hc
    exact h.stuck hstuck
  finite f _ := by
    have hwf : WellFounded fun c' c : Hosts => Step order lrpt c c' :=
      Subrelation.wf Step.weight_lt (measure Hosts.weight).wf
    exact Process.not_infinite hwf f

/-- What the receiver has been handed once both are done. -/
theorem repeats_iff :
    (∃ c, Steps order lrpt (start word mem sent) c ∧ Finished c ∧ c.got = got) ↔
      ∃ read, Slot.Late sent read ∧ read.length = sent.length ∧
        got = read.map (arrived order) := by
  constructor
  · rintro ⟨c, hc, hfin, rfl⟩
    obtain ⟨written, read, h⟩ := (flow_start order word mem sent).steps hc
    exact ⟨read, h.finished hfin⟩
  · rintro ⟨read, hlate, hlen, rfl⟩
    exact exists_run order lrpt word mem hlate hlen

/-- The values that arrive as they are. -/
theorem arrived_eq_self_iff {rpt : UInt32} : arrived order rpt = rpt ↔
    order 0 = order 1 ∨ rpt = 0 ∨ rpt = 0xFFFFFFFF := by
  rw [arrived_eq]
  by_cases horder : order 0 = order 1
  · rw [if_pos horder]
    exact iff_of_true rfl (Or.inl horder)
  · rw [if_neg horder, signWord]
    constructor
    · intro h
      split at h
      · exact Or.inr (Or.inr h.symm)
      · exact Or.inr (Or.inl h.symm)
    · rintro (h | rfl | rfl)
      · exact absurd h horder
      · rfl
      · rfl

/-- **Values sent one after the other**: every run comes to its end, and what the receiver then has
    been handed is what becomes of the late readings of the values, and nothing else.  The size and
    the repeat count that `run_iters` sends are right in every run where they are the same number
    only, which has to be 0 or -1 where the byte orders differ; every value that is not negative
    arrives as 0 there, which is the signal to exit. -/
theorem repeat_exact (order : Fin 2 → ByteOrder) (lrpt : Nat) (word : UInt64) (mem : Mem)
    (sent : List UInt32) :
    Completes order lrpt (start word mem sent) ∧
    (∀ got, (∃ c, Steps order lrpt (start word mem sent) c ∧ Finished c ∧ c.got = got) ↔
      ∃ read, Slot.Late sent read ∧ read.length = sent.length ∧
        got = read.map (arrived order)) ∧
    (∀ size nrepeat, sent = [size, nrepeat] →
      ((∀ c, Steps order lrpt (start word mem sent) c → Finished c → c.got = sent) ↔
        size = nrepeat ∧ (order 0 = order 1 ∨ size = 0 ∨ size = 0xFFFFFFFF))) ∧
    (order 0 ≠ order 1 → (∀ rpt ∈ sent, 0 ≤ toInt32 rpt) →
      ∀ c, Steps order lrpt (start word mem sent) c → Finished c →
        c.got = List.replicate sent.length 0) := by
  refine ⟨completes .., fun got => repeats_iff, ?_, ?_⟩
  · rintro size nrepeat rfl
    constructor
    · intro hall
      have hright : ∀ x, x = size ∨ x = nrepeat →
          [arrived order x, arrived order nrepeat] = [size, nrepeat] := by
        intro x hx
        have hlate : Slot.Late [size, nrepeat] [x, nrepeat] := Slot.late_pair_iff.mpr ⟨hx, rfl⟩
        obtain ⟨c, hc, hfin, hgot⟩ := exists_run order lrpt word mem hlate rfl
        exact hgot.symm.trans (hall c hc hfin)
      obtain ⟨hsize, hnrepeat⟩ : arrived order size = size ∧ arrived order nrepeat = nrepeat := by
        simpa using hright size (Or.inl rfl)
      have hlater : arrived order nrepeat = size := by
        simpa [hnrepeat] using hright nrepeat (Or.inr rfl)
      exact ⟨hlater.symm.trans hnrepeat, arrived_eq_self_iff.mp hsize⟩
    · rintro ⟨rfl, hself⟩ c hc hfin
      obtain ⟨read, hlate, hlen, hgot⟩ := repeats_iff.mp ⟨c, hc, hfin, rfl⟩
      obtain ⟨x, y, rfl⟩ := List.length_eq_two.mp hlen
      obtain ⟨hx, rfl⟩ := Slot.late_pair_iff.mp hlate
      obtain rfl : x = y := hx.elim id id
      rw [hgot, List.map_cons, List.map_singleton, arrived_eq_self_iff.mpr hself]
  · intro horder hpos c hc hfin
    obtain ⟨read, hlate, hlen, hgot⟩ := repeats_iff.mp ⟨c, hc, hfin, rfl⟩
    rw [hgot, ← hlen, List.eq_replicate_iff]
    refine ⟨List.length_map .., ?_⟩
    intro w hw
    obtain ⟨rpt, hrpt, rfl⟩ := List.mem_map.mp hw
    rw [arrived_eq, if_neg horder, signWord, if_neg (not_lt.mpr (hpos rpt (hlate.mem hrpt)))]

end main

end NetPipe.Gm
