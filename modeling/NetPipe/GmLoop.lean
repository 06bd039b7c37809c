/-
  `gm.c`: the timed loop, and the buffers freed behind it.

  `SendData` hands the send buffer to GM, which copies it out at some moment after that; nobody
  waits for the callback.  `RecvData` provides the receive buffer and waits for a message.
  `run_iters` frees both buffers as soon as its loop is over.

  1. **The functions**, and the two hosts step by step (`Step`).  A `RecvData` is one step here,
     with its message on the way to it; that `readFully` of `NetPipe.Gm` does this, in whatever form
     GM hands the message over, is `readFully_recvData`.

  2. **Moves in turn** (`timedLoop_moves`) — the two loops are one sequence of moves, a send and the
     receive of what the other one has sent, made by the hosts by turns.

  3. **Where a run is** (`Stage`) — the load-bearing invariant: there is one message at most, posted
     or on its way, and it says whose move is next.  As a host only makes its move once it has
     received the other's, its own previous message has been copied out by then.

  4. **The end** (`loop_exact`) — so the send buffer of the transmitter has been copied out before
     it is freed; that of the receiver, whose last move nothing follows, may still have to be.
-/
import NetPipe.Buffers
import NetPipe.GmHeader
import NetPipe.Lib.OneSided

namespace NetPipe.GmLoop

open Memory
open OneSided (other_other ne_other eq_or_eq_other)
open scoped OneSided

variable {Prot : Type}

/-! ## The functions -/

/-- What `run_iters` calls in the loop and behind it. -/
inductive Call where
  | sendData
  | recvData
  | freeBuff
  deriving DecidableEq, Repr

/-- The timed loop, with `k` iterations to go. -/
def timedLoop (tr : Bool) : (k : Nat) → List Call
  | 0 => []
  | k + 1 => (if tr then [.sendData, .recvData] else [.recvData, .sendData]) ++ timedLoop tr k

/-- The bytes that `SendData(p)` has handed to GM, when they are copied out. -/
def sendBytes (h : Netpipe Prot) : Option (List UInt8) :=
  h.heap.load h.args.sPtr h.args.bufflen.toNat

/-- The receive buffer. -/
def recvBytes (h : Netpipe Prot) : Option (List UInt8) :=
  h.heap.load h.args.rPtr h.args.bufflen.toNat

/-- `RecvData(p)`, where this message has come into the buffer it has provided. -/
def recvData (h : Netpipe Prot) (message : List UInt8) : Option (Netpipe Prot) := do
  let heap ← h.heap.store h.args.rPtr message
  some { h with heap }

/-- `FreeBuff(args->s_buff_orig, args->r_buff_orig)`. -/
def freeBuff (h : Netpipe Prot) : Option (Netpipe Prot) := do
  let heap ← h.heap.free h.args.sBuffOrig
  let heap ← heap.free h.args.rBuffOrig
  some { h with heap }

/-- A host: the calls to come, the sends GM has not copied out yet, the messages on the way to it,
    and what was in the receive buffer after each `RecvData`. -/
structure Host (Prot : Type) where
  self : Netpipe Prot
  todo : List Call
  posted : Nat
  inbox : List (List UInt8)
  got : List (List UInt8)

/-- Both of them; the other one of `x` is `1 - x`. -/
abbrev Hosts (Prot : Type) := Fin 2 → Host Prot

/-- Behind `Sync`. -/
def loopStart (h : Fin 2 → Netpipe Prot) (k : Nat) : Hosts Prot := fun x =>
  ⟨h x, timedLoop (h x).args.tr k ++ [.freeBuff], 0, [], []⟩

/-- A call of a host.  `readFully` returns at once where there is nothing to be read. -/
inductive Own (p : Host Prot) : Host Prot → Prop where
  | sendData {rest} : p.todo = .sendData :: rest →
      Own p { p with todo := rest, posted := p.posted + 1 }
  | recvData {rest message more self bs} : p.todo = .recvData :: rest →
      p.inbox = message :: more → recvData p.self message = some self →
      recvBytes self = some bs →
      Own p { p with self := self, todo := rest, inbox := more, got := p.got ++ [bs] }
  | recvNothing {rest} : p.todo = .recvData :: rest → p.self.args.bufflen = 0 →
      Own p { p with todo := rest, got := p.got ++ [[]] }
  | freeBuff {rest self} : p.todo = .freeBuff :: rest → freeBuff p.self = some self →
      Own p { p with self := self, todo := rest }

/-- One step: a call of a host, or a send buffer copied out. -/
inductive Step (c : Hosts Prot) : Hosts Prot → Prop where
  | own {x p'} : Own (c x) p' → Step c (Function.update c x p')
  | copy {x n message} : (c x).posted = n + 1 → sendBytes (c x).self = some message →
      Step c (Function.update (Function.update c x { c x with posted := n }) (1 - x)
        { c (1 - x) with inbox := (c (1 - x)).inbox ++ [message] })

/-- Any number of steps. -/
abbrev Steps : Hosts Prot → Hosts Prot → Prop := Relation.ReflTransGen Step

/-- No step is possible. -/
def Stuck (c : Hosts Prot) : Prop := ∀ c', ¬ Step c c'

/-- Both hosts are through. -/
def Finished (c : Hosts Prot) : Prop := ∀ x, (c x).todo = []

/-- GM still has to copy out a send buffer that has been freed. -/
def Dangling (c : Hosts Prot) (x : Fin 2) : Prop :=
  0 < (c x).posted ∧ sendBytes (c x).self = none

/-! ## Moves in turn -/

/-- The calls of a host that makes the next of `m` moves, or waits for it. -/
def moves : (next : Bool) → (m : Nat) → List Call
  | _, 0 => [.freeBuff]
  | true, m + 1 => .sendData :: moves false m
  | false, m + 1 => .recvData :: moves true m

theorem timedLoop_moves (tr : Bool) (k : Nat) :
    timedLoop tr k ++ [.freeBuff] = moves tr (2 * k) := by
  induction k with
  | zero => cases tr <;> rfl
  | succ k ih =>
    rw [timedLoop, List.append_assoc, ih, Nat.mul_succ]
    cases tr <;> rfl

/-- A host between two calls: its buffers are in place, or it is through. -/
inductive Place (n : Nat) (s : List UInt8) (p : Host Prot) (next : Bool) (m : Nat) : Prop where
  | live (r : List UInt8) : p.todo = moves next m → Armed p.self n r s → Place n s p next m
  | freed : p.todo = [] → sendBytes p.self = none → m = 0 → Place n s p next m

/-- And what is posted, on the way to it, and handed to it: `theirs`, in each of `k` receives. -/
structure At (n k : Nat) (s theirs : List UInt8) (p : Host Prot) (next : Bool) (m posted : Nat)
    (inbox : List (List UInt8)) : Prop where
  place : Place n s p next m
  posted : p.posted = posted
  inbox : p.inbox = inbox
  got : ∃ j, p.got = List.replicate j theirs ∧ j + (moves next m).count .recvData = k

section host

variable {n k m posted : Nat} {s theirs r : List UInt8} {p p' : Host Prot} {next : Bool}
  {inbox : List (List UInt8)} {h : Netpipe Prot}

/-- The buffers can be freed, and then nothing is left to be copied out. -/
theorem exists_freeBuff (hh : Armed h n r s) :
    ∃ h', freeBuff h = some h' ∧ sendBytes h' = none := by
  obtain ⟨i, j, hij, hi, hj, -, -, hro, -, hsp, hso⟩ := hh.blocks
  have hi' : Function.update h.heap.block j none i = some r := by
    rw [Function.update_of_ne hij, hi]
  simp only [freeBuff, hso, hro, Heap.free, hj, hi', Option.bind_eq_bind, Option.bind_some]
  refine ⟨_, rfl, ?_⟩
  rw [sendBytes, hsp]
  simp [Heap.load, Function.update_of_ne hij.symm]

/-- A message fits into the receive buffer. -/
theorem exists_recvData (hh : Armed h n r s) (hlen : theirs.length = n) :
    ∃ h', recvData h theirs = some h' ∧ Armed h' n theirs s ∧ recvBytes h' = some theirs := by
  have hr : Armed h n ([] ++ (r ++ [])) s := by rwa [List.append_nil, List.nil_append]
  obtain ⟨heap, hstore, hh'⟩ := hr.store_rPtr (hlen.trans hh.length_r.symm)
  rw [List.length_nil, Ptr.add_zero] at hstore
  rw [List.append_nil, List.nil_append] at hh'
  refine ⟨_, ?_, hh', hh'.load_rPtr⟩
  rw [recvData, hstore]
  rfl

/-- **`RecvData` is `readFully`**, with the buffer at `addr`: however GM hands over the message, the
    call takes all of the events, changes nothing else in memory, and leaves in the buffer what
    `recvData` does. -/
theorem readFully_recvData (hh : Armed h n r s) (hlen : theirs.length = n) (hn : 0 < n)
    (hint : n < 2 ^ 31) {addr : Nat} {mem mem' : Gm.Mem} {events : List Gm.Event}
    (hdelivers : Gm.Delivers addr theirs mem events mem') :
    ∃ h' mem'', recvData h theirs = some h' ∧
      Gm.readFully addr h.args.bufflen events mem' = some (1, mem'', []) ∧
      recvBytes h' = some ((List.range n).map fun j => mem'' (addr + j)) ∧
      ∀ a, a < addr ∨ addr + n ≤ a → mem'' a = mem a := by
  obtain ⟨h', hrecv, -, hbytes⟩ := exists_recvData hh hlen
  have hread := Gm.readFully_delivered hdelivers (by omega) (by omega)
  refine ⟨h', Gm.bcopy theirs addr mem, hrecv, ?_, ?_, ?_⟩
  · rwa [hh.bufflen, ← hlen]
  · rw [hbytes, Gm.load_bcopy hlen]
  · intro a ha
    rcases ha with ha | ha
    · exact if_neg (by omega)
    · rw [Gm.bcopy, if_pos (by omega), List.getElem?_eq_none (by omega)]
      rfl

/-- Only the calls to come and the buffers matter. -/
theorem Place.congr (h : Place n s p next m) (htodo : p'.todo = p.todo) (hself : p'.self = p.self) :
    Place n s p' next m := by
  cases h with
  | live r hmoves harmed => exact .live r (htodo.trans hmoves) (hself ▸ harmed)
  | freed hnil hnone hm => exact .freed (htodo.trans hnil) (hself ▸ hnone) hm

/-- With a call to come the buffers are in place. -/
theorem At.live (h : At n k s theirs p next m posted inbox) {call : Call} {rest : List Call}
    (htodo : p.todo = call :: rest) :
    moves next m = call :: rest ∧ ∃ r, Armed p.self n r s := by
  cases h.place with
  | live r hmoves harmed => exact ⟨hmoves.symm.trans htodo, r, harmed⟩
  | freed hnil => cases hnil.symm.trans htodo

/-- **What a host does** in a call: it sends, it receives, or it frees its buffers. -/
theorem At.own (hn : 0 < n) (hlen : theirs.length = n)
    (h : At n k s theirs p next m posted inbox) (hinbox : ∀ message ∈ inbox, message = theirs)
    (hs : Own p p') :
    (∃ m', next = true ∧ m = m' + 1 ∧ At n k s theirs p' false m' (posted + 1) inbox) ∨
    (∃ m' more, next = false ∧ m = m' + 1 ∧ inbox = theirs :: more ∧
      At n k s theirs p' true m' posted more) ∨
    m = 0 ∧ At n k s theirs p' next m posted inbox := by
  obtain ⟨j, hgot, hcount⟩ := h.got
  cases hs with
  | sendData htodo =>
    obtain ⟨hmoves, r, harmed⟩ := h.live htodo
    cases m with
    | zero => cases hmoves
    | succ m =>
      cases next with
      | false => cases hmoves
      | true =>
        cases hmoves
        rw [moves, List.count_cons_of_ne (by decide)] at hcount
        exact Or.inl ⟨m, rfl, rfl, .live r rfl harmed, congrArg (· + 1) h.posted, h.inbox, j, hgot,
          hcount⟩
  | recvData htodo hmore hrecv hbs =>
    obtain ⟨hmoves, r, harmed⟩ := h.live htodo
    obtain rfl := h.inbox.symm.trans hmore
    obtain rfl := hinbox _ List.mem_cons_self
    obtain ⟨h', hrecv', harmed', hbs'⟩ := exists_recvData harmed hlen
    cases hrecv.symm.trans hrecv'
    cases hbs.symm.trans hbs'
    cases m with
    | zero => cases hmoves
    | succ m =>
      cases next with
      | true => cases hmoves
      | false =>
        cases hmoves
        rw [moves, List.count_cons_self] at hcount
        refine Or.inr (Or.inl ⟨m, _, rfl, rfl, rfl, ?_⟩)
        refine ⟨.live _ rfl harmed', h.posted, rfl, j + 1, ?_, ?_⟩
        · rw [hgot, List.replicate_succ']
        · omega
  | recvNothing htodo hzero =>
    obtain ⟨-, r, harmed⟩ := h.live htodo
    have hbufflen := harmed.bufflen
    omega
  | freeBuff htodo hfree =>
    obtain ⟨hmoves, r, harmed⟩ := h.live htodo
    obtain ⟨h', hfree', hnone⟩ := exists_freeBuff harmed
    cases hfree.symm.trans hfree'
    cases m with
    | succ m => cases next <;> cases hmoves
    | zero =>
      cases next <;> cases hmoves <;>
        exact Or.inr (Or.inr ⟨rfl, .freed rfl hnone rfl, h.posted, h.inbox, j, hgot, hcount⟩)

/-- One that waits, with nothing on the way to it, can only free its buffers. -/
theorem At.own_waiting (hn : 0 < n) (hlen : theirs.length = n)
    (h : At n k s theirs p false m posted []) (hs : Own p p') :
    At n k s theirs p' false m posted [] := by
  rcases h.own hn hlen nofun hs with ⟨_, hnext, _⟩ | ⟨_, _, -, -, hnil, _⟩ | ⟨-, hp⟩
  · cases hnext
  · cases hnil
  · exact hp

end host

/-! ## Where a run is -/

/-- Host `x` has its next move or waits for it, with this posted; the other one waits for a move of
    `x`, or has the next one, with this on the way to it. -/
structure Sides (n k : Nat) (s : Fin 2 → List UInt8) (c : Hosts Prot) (x : Fin 2)
    (next : Bool) (m m' posted : Nat) (inbox : List (List UInt8)) : Prop where
  mine : At n k (s x) (s (1 - x)) (c x) next m posted []
  theirs : At n k (s (1 - x)) (s x) (c (1 - x)) false m' 0 inbox

/-- **The invariant**, `m` being the moves to come: they are made by the two hosts in turn, and the
    last one is the receiver's.  It has a case for each place a message can be in, and so says that
    there is no second one. -/
inductive Stage (n k : Nat) (s : Fin 2 → List UInt8) (c : Hosts Prot) : Prop where
  | turn (x : Fin 2) (m : Nat) : Sides n k s c x true m m 0 [] → m ≤ 2 * k → x.val = m % 2 →
      Stage n k s c
  | posted (x : Fin 2) (m : Nat) : Sides n k s c x false m (m + 1) 1 [] → m < 2 * k →
      x.val = (m + 1) % 2 → Stage n k s c
  | sent (x : Fin 2) (m : Nat) : Sides n k s c x false m (m + 1) 0 [s x] → m < 2 * k →
      x.val = (m + 1) % 2 → Stage n k s c

section stage

variable {n k m m' posted : Nat} {s : Fin 2 → List UInt8} {c c' : Hosts Prot} {x : Fin 2}
  {next : Bool} {inbox : List (List UInt8)} {p' : Host Prot}

/-- A step of the one. -/
theorem Sides.set_mine {next' : Bool} {m₁ posted' : Nat}
    (h : Sides n k s c x next m m' posted inbox)
    (hp : At n k (s x) (s (1 - x)) p' next' m₁ posted' []) :
    Sides n k s (Function.update c x p') x next' m₁ m' posted' inbox := by
  constructor
  · rwa [Function.update_self]
  · rw [Function.update_of_ne (ne_other x).symm]
    exact h.theirs

/-- And of the other one. -/
theorem Sides.set_theirs {m₁ : Nat} {inbox' : List (List UInt8)}
    (h : Sides n k s c x next m m' posted inbox)
    (hp : At n k (s (1 - x)) (s x) p' false m₁ 0 inbox') :
    Sides n k s (Function.update c (1 - x) p') x next m m₁ posted inbox' := by
  constructor
  · rw [Function.update_of_ne (ne_other x)]
    exact h.mine
  · rwa [Function.update_self]

/-- The message is received, and the other host has the next move. -/
theorem Sides.turn_over (h : Sides n k s c x false m (m + 1) 0 [s x])
    (hp : At n k (s (1 - x)) (s x) p' true m 0 []) :
    Sides n k s (Function.update c (1 - x) p') (1 - x) true m m 0 [] := by
  constructor
  · rwa [Function.update_self, other_other]
  · rw [other_other, Function.update_of_ne (ne_other x)]
    exact h.mine

/-- The send buffer is copied out. -/
theorem Sides.copy (h : Sides n k s c x next m m' (posted + 1) []) {message : List UInt8}
    (hload : sendBytes (c x).self = some message) :
    Sides n k s (Function.update (Function.update c x { c x with posted := posted }) (1 - x)
      { c (1 - x) with inbox := (c (1 - x)).inbox ++ [message] }) x next m m' posted [s x] := by
  obtain ⟨hmine, htheirs⟩ := h
  have hmessage : message = s x := by
    cases hmine.place with
    | live r _ harmed => exact Option.some.inj (hload.symm.trans harmed.load_sPtr)
    | freed _ hnone => cases hnone.symm.trans hload
  have hcopied : At n k (s x) (s (1 - x)) { c x with posted := posted } next m posted [] :=
    ⟨hmine.place.congr rfl rfl, rfl, hmine.inbox, hmine.got⟩
  refine (Sides.set_mine ⟨hmine, htheirs⟩ hcopied).set_theirs ?_
  refine ⟨htheirs.place.congr rfl rfl, htheirs.posted, ?_, htheirs.got⟩
  simp only [htheirs.inbox, hmessage, List.nil_append]

/-- **Step lemma**, by the case the run is in: the host whose move it is posts a message, the
    message is copied out, or it is received, and then it is the other host's move. -/
theorem Stage.step (hn : 0 < n) (hlen : ∀ x, (s x).length = n) (h : Stage n k s c)
    (hs : Step c c') : Stage n k s c' := by
  cases hs with
  | @own z p' hs =>
    cases h with
    | turn x m h hm hx =>
      rcases eq_or_eq_other x z with rfl | rfl
      · rcases h.mine.own hn (hlen _) nofun hs with ⟨m', -, rfl, hp⟩ | ⟨_, _, hnext, _⟩ | ⟨-, hp⟩
        · exact .posted z m' (h.set_mine hp) (by omega) hx
        · cases hnext
        · exact .turn z m (h.set_mine hp) hm hx
      · exact .turn x m (h.set_theirs (h.theirs.own_waiting hn (hlen _) hs)) hm hx
    | posted x m h hm hx =>
      rcases eq_or_eq_other x z with rfl | rfl
      · exact .posted z m (h.set_mine (h.mine.own_waiting hn (hlen _) hs)) hm hx
      · exact .posted x m (h.set_theirs (h.theirs.own_waiting hn (hlen _) hs)) hm hx
    | sent x m h hm hx =>
      rcases eq_or_eq_other x z with rfl | rfl
      · exact .sent z m (h.set_mine (h.mine.own_waiting hn (hlen _) hs)) hm hx
      · have hinbox : ∀ message ∈ [s x], message = s x := fun _ => List.mem_singleton.mp
        rcases h.theirs.own hn (hlen _) hinbox hs with
          ⟨_, hnext, _⟩ | ⟨m', more, -, hm', hmore, hp⟩ | ⟨hm', _⟩
        · cases hnext
        · cases hm'
          cases hmore
          exact .turn (1 - x) m (h.turn_over hp) hm.le (by omega)
        · cases hm'
  | @copy z l message hposted hload =>
    cases h with
    | posted x m h hm hx =>
      rcases eq_or_eq_other x z with rfl | rfl
      · cases hposted.symm.trans h.mine.posted
        exact .sent z m (h.copy hload) hm hx
      · cases hposted.symm.trans h.theirs.posted
    | turn x m h | sent x m h =>
      rcases eq_or_eq_other x z with rfl | rfl
      · cases hposted.symm.trans h.mine.posted
      · cases hposted.symm.trans h.theirs.posted

/-- **Run lemma.** -/
theorem Stage.steps (hn : 0 < n) (hlen : ∀ x, (s x).length = n) (h : Stage n k s c)
    (hs : Steps c c') : Stage n k s c' := by
  induction hs with
  | refl => exact h
  | tail _ hstep ih => exact ih.step hn hlen hstep

end stage

/-! ## The end of a run -/

/-- The two hosts in front of the loop, with these buffers. -/
structure Ready (n : Nat) (s : Fin 2 → List UInt8) (h : Fin 2 → Netpipe Prot) : Prop where
  armed : ∀ x, ∃ r, Armed (h x) n r (s x)
  tr : (h 0).args.tr = true ∧ (h 1).args.tr = false

section ends

variable {n k m : Nat} {s : Fin 2 → List UInt8} {h : Fin 2 → Netpipe Prot} {c : Hosts Prot}
  {x : Fin 2} {next : Bool} {posted : Nat} {inbox : List (List UInt8)}

theorem count_moves (k : Nat) :
    (moves true (2 * k)).count .recvData = k ∧ (moves false (2 * k)).count .recvData = k := by
  induction k with
  | zero => exact ⟨rfl, rfl⟩
  | succ k ih => simp [Nat.mul_succ, moves, ih]

theorem sides_start (hready : Ready n s h) (k : Nat) :
    Sides n k s (loopStart h k) 0 true (2 * k) (2 * k) 0 [] := by
  obtain ⟨r₀, h₀⟩ := hready.armed 0
  obtain ⟨r₁, h₁⟩ := hready.armed 1
  refine ⟨⟨.live r₀ ?_ h₀, rfl, rfl, 0, rfl, ?_⟩, ⟨.live r₁ ?_ h₁, rfl, rfl, 0, rfl, ?_⟩⟩
  · rw [← timedLoop_moves, ← hready.tr.1]
    rfl
  · rw [(count_moves k).1, Nat.zero_add]
  · rw [← timedLoop_moves, ← hready.tr.2]
    rfl
  · rw [(count_moves k).2, Nat.zero_add]

theorem stage_start (hready : Ready n s h) (k : Nat) : Stage n k s (loopStart h k) :=
  .turn 0 (2 * k) (sides_start hready k) le_rfl (by simp)

theorem Ready.length_eq (hready : Ready n s h) (x : Fin 2) : (s x).length = n := by
  obtain ⟨r, harmed⟩ := hready.armed x
  exact harmed.length_s

/-- A host that has a move to make, or one to wait for, has its buffers. -/
theorem Place.of_succ {s : List UInt8} {p : Host Prot} (h : Place n s p next (m + 1)) :
    p.todo = moves next (m + 1) ∧ ∃ r, Armed p.self n r s := by
  cases h with
  | live r htodo harmed => exact ⟨htodo, r, harmed⟩
  | freed _ _ hm => cases hm

theorem Sides.posted_eq {m' : Nat} (h : Sides n k s c x next m m' 0 inbox) (z : Fin 2) :
    (c z).posted = 0 := by
  rcases eq_or_eq_other x z with rfl | rfl
  · exact h.mine.posted
  · exact h.theirs.posted

/-- The transmitter's send buffer has been copied out whenever it is freed. -/
theorem Stage.not_dangling (h : Stage n k s c) : ¬ Dangling c 0 := by
  rintro ⟨hposted, hnone⟩
  cases h with
  | turn x m h | sent x m h => exact hposted.ne' (h.posted_eq 0)
  | posted x m h hm hx =>
    rcases eq_or_eq_other x 0 with rfl | hother
    · -- there is a move to come, the receiver's
      obtain ⟨m, rfl⟩ : ∃ m', m = m' + 1 := ⟨m - 1, by simp at hx; omega⟩
      obtain ⟨-, r, harmed⟩ := h.mine.place.of_succ
      cases hnone.symm.trans harmed.load_sPtr
    · rw [hother, h.theirs.posted] at hposted
      exact hposted.ne rfl

/-- Where no step is possible, both hosts are through, or the receiver has freed a buffer that GM
    has to copy out. -/
theorem Stage.stuck (hlen : ∀ x, (s x).length = n) (h : Stage n k s c) (hs : Stuck c) :
    Finished c ∨ Dangling c 1 := by
  have hnot := h.not_dangling
  have hfree : ∀ {x : Fin 2} {s : List UInt8} {next : Bool}, Place n s (c x) next 0 →
      (c x).todo = [] := by
    intro x s next hplace
    cases hplace with
    | freed htodo => exact htodo
    | live r htodo harmed =>
      obtain ⟨h', hfree, -⟩ := exists_freeBuff harmed
      cases next <;> exact absurd (.own (.freeBuff htodo hfree)) (hs _)
  cases h with
  | turn x m h =>
    cases m with
    | zero =>
      refine Or.inl fun z => ?_
      rcases eq_or_eq_other x z with rfl | rfl
      · exact hfree h.mine.place
      · exact hfree h.theirs.place
    | succ m =>
      obtain ⟨htodo, -⟩ := h.mine.place.of_succ
      exact absurd (.own (.sendData htodo)) (hs _)
  | posted x m h =>
    have hdangling : Dangling c x := by
      refine ⟨by rw [h.mine.posted]; exact Nat.one_pos, ?_⟩
      cases hload : sendBytes (c x).self with
      | none => rfl
      | some message => exact absurd (.copy h.mine.posted hload) (hs _)
    rcases show x = 0 ∨ x = 1 by omega with rfl | rfl
    · exact absurd hdangling hnot
    · exact Or.inr hdangling
  | sent x m h =>
    obtain ⟨htodo, r, harmed⟩ := h.theirs.place.of_succ
    obtain ⟨h', hrecv, -, hbs⟩ := exists_recvData harmed (hlen x)
    exact absurd (.own (.recvData htodo h.theirs.inbox hrecv hbs)) (hs _)

theorem moves_ne_nil (next : Bool) (m : Nat) : moves next m ≠ [] := by
  cases m <;> cases next <;> simp [moves]

/-- A host that is through has received what it should. -/
theorem At.finished {s theirs : List UInt8} {p : Host Prot}
    (h : At n k s theirs p next m posted inbox) (htodo : p.todo = []) :
    p.got = List.replicate k theirs := by
  obtain ⟨j, hgot, hcount⟩ := h.got
  cases h.place with
  | live r hmoves => exact absurd (hmoves.symm.trans htodo) (moves_ne_nil next m)
  | freed _ _ hm =>
    rw [hm] at hcount
    cases next <;> (obtain rfl : j = k := hcount; exact hgot)

theorem Stage.finished (h : Stage n k s c) (hfin : Finished c) (x : Fin 2) :
    (c x).got = List.replicate k (s (1 - x)) := by
  have hsides : ∀ {z : Fin 2} {next : Bool} {m m' posted : Nat} {inbox : List (List UInt8)},
      Sides n k s c z next m m' posted inbox → (c x).got = List.replicate k (s (1 - x)) := by
    intro z next m m' posted inbox h
    rcases eq_or_eq_other z x with rfl | rfl
    · exact h.mine.finished (hfin _)
    · rw [other_other]
      exact h.theirs.finished (hfin _)
  cases h with
  | turn z m h | posted z m h | sent z m h => exact hsides h

end ends

/-! ## A send buffer that is freed too early -/

section early

variable {n k m : Nat} {s : Fin 2 → List UInt8} {h : Fin 2 → Netpipe Prot} {c : Hosts Prot}
  {x : Fin 2}

/-- The host with the next move makes it. -/
theorem Sides.exists_posted (hn : 0 < n) (hlen : ∀ x, (s x).length = n)
    (h : Sides n k s c x true (m + 1) (m + 1) 0 []) :
    ∃ c' r, Step c c' ∧ Sides n k s c' x false m (m + 1) 1 [] ∧ (c' x).todo = moves false m ∧
      Armed (c' x).self n r (s x) := by
  obtain ⟨htodo, r, harmed⟩ := h.mine.place.of_succ
  have hown := Own.sendData htodo
  rcases h.mine.own hn (hlen _) nofun hown with ⟨m', -, hm, hp⟩ | ⟨_, _, hnext, _⟩ | ⟨hm, _⟩
  · cases hm
    refine ⟨_, r, .own hown, h.set_mine hp, ?_, ?_⟩
    · rw [Function.update_self]
    · rwa [Function.update_self]
  · cases hnext
  · cases hm

/-- It is copied out and received. -/
theorem Sides.exists_turn (hn : 0 < n) (hlen : ∀ x, (s x).length = n)
    (h : Sides n k s c x true (m + 1) (m + 1) 0 []) :
    ∃ c', Steps c c' ∧ Sides n k s c' (1 - x) true m m 0 [] := by
  obtain ⟨c₁, r, hstep₁, h₁, -, harmed⟩ := h.exists_posted hn hlen
  have hstep₂ := Step.copy h₁.mine.posted harmed.load_sPtr
  have h₂ : Sides n k s _ x false m (m + 1) 0 [s x] := h₁.copy harmed.load_sPtr
  obtain ⟨htodo, r', harmed'⟩ := h₂.theirs.place.of_succ
  obtain ⟨h', hrecv, -, hbs⟩ := exists_recvData harmed' (hlen x)
  have hown := Own.recvData htodo h₂.theirs.inbox hrecv hbs
  have hinbox : ∀ message ∈ [s x], message = s x := fun _ => List.mem_singleton.mp
  rcases h₂.theirs.own hn (hlen _) hinbox hown with
    ⟨_, hnext, _⟩ | ⟨m', more, -, hm, hmore, hp⟩ | ⟨hm, _⟩
  · cases hnext
  · cases hm
    cases hmore
    exact ⟨_, .tail (.tail (.single hstep₁) hstep₂) (.own hown), h₂.turn_over hp⟩
  · cases hm

/-- Some run comes to each of the moves. -/
theorem exists_turns (hn : 0 < n) (hready : Ready n s h) (k d : Nat) : ∀ {m : Nat}, m + d = 2 * k →
    ∃ c x, Steps (loopStart h k) c ∧ Sides n k s c x true m m 0 [] ∧ x.val = m % 2 := by
  induction d with
  | zero =>
    rintro m rfl
    exact ⟨_, 0, .refl, sides_start hready k, by simp⟩
  | succ d ih =>
    intro m hm
    obtain ⟨c, x, hc, hsides, hx⟩ := ih (m := m + 1) (by omega)
    obtain ⟨c', hc', hsides'⟩ := hsides.exists_turn hn hready.length_eq
    exact ⟨c', 1 - x, hc.trans hc', hsides', by omega⟩

/-- With an iteration or more, the receiver may free the buffer of its last send too early. -/
theorem exists_dangling (hn : 0 < n) (hready : Ready n s h) (hk : 0 < k) :
    ∃ c, Steps (loopStart h k) c ∧ Dangling c 1 := by
  obtain ⟨c, x, hc, hsides, hx⟩ := exists_turns hn hready k (2 * k - 1) (m := 1) (by omega)
  obtain rfl : x = 1 := Fin.ext hx
  obtain ⟨c₁, r, hstep, hsides₁, htodo, harmed⟩ := hsides.exists_posted hn hready.length_eq
  obtain ⟨h', hfree, hnone⟩ := exists_freeBuff harmed
  refine ⟨_, (hc.tail hstep).tail (.own (.freeBuff htodo hfree)), ?_, ?_⟩
  · rw [Function.update_self]
    exact Nat.lt_of_lt_of_eq Nat.one_pos hsides₁.mine.posted.symm
  · rwa [Function.update_self]

end early

/-! ## Both together -/

/-- The steps there are to come at a host. -/
def Host.weight (p : Host Prot) : Nat := 3 * p.todo.length + 2 * p.posted + p.inbox.length

theorem Own.weight_lt {p p' : Host Prot} (h : Own p p') : p'.weight < p.weight := by
  cases h with
  | sendData htodo | recvNothing htodo | freeBuff htodo =>
    simp only [Host.weight, htodo, List.length_cons]
    omega
  | recvData htodo hinbox =>
    simp only [Host.weight, htodo, hinbox, List.length_cons]
    omega

theorem Step.weight_lt {c c' : Hosts Prot} (h : Step c c') :
    (c' 0).weight + (c' 1).weight < (c 0).weight + (c 1).weight := by
  have hsum : ∀ (d : Hosts Prot) (x : Fin 2),
      (d 0).weight + (d 1).weight = (d x).weight + (d (1 - x)).weight := by
    intro d x
    rcases show x = 0 ∨ x = 1 by omega with rfl | rfl
    · rfl
    · exact Nat.add_comm ..
  cases h with
  | @own x p' h =>
    have hlt := h.weight_lt
    rw [hsum _ x, hsum c x, Function.update_self, Function.update_of_ne (ne_other x).symm]
    omega
  | @copy x l message hposted hload =>
    rw [hsum _ x, hsum c x, Function.update_self, Function.update_of_ne (ne_other x),
      Function.update_self]
    simp only [Host.weight, hposted, List.length_append, List.length_singleton]
    omega

/-- **Every run comes to an end.** -/
theorem no_infinite_run (f : Nat → Hosts Prot) : ¬ ∀ i, Step (f i) (f (i + 1)) := by
  have hwf : WellFounded fun c' c : Hosts Prot => Step c c' :=
    Subrelation.wf Step.weight_lt (measure fun c : Hosts Prot => (c 0).weight + (c 1).weight).wf
  exact Process.not_infinite hwf f

/-- **The timed loop and the buffers behind it.**  Every run comes to an end, and where it does both
    hosts are through and have received the other one's bytes in each iteration, or GM has still to
    copy out a send buffer that has been freed.  That never is the transmitter's; it may be the
    receiver's, in a run of any number of iterations. -/
theorem loop_exact {n : Nat} {s : Fin 2 → List UInt8} {h : Fin 2 → Netpipe Prot} (hn : 0 < n)
    (hready : Ready n s h) (k : Nat) :
    (∀ f : Nat → Hosts Prot, f 0 = loopStart h k → ¬ ∀ i, Step (f i) (f (i + 1))) ∧
    (∀ c, Steps (loopStart h k) c → ¬ Dangling c 0 ∧ (Stuck c → Finished c ∨ Dangling c 1) ∧
      (Finished c → ∀ x, (c x).got = List.replicate k (s (1 - x)))) ∧
    ((∃ c, Steps (loopStart h k) c ∧ Dangling c 1) ↔ 0 < k) := by
  have hstage : ∀ c, Steps (loopStart h k) c → Stage n k s c := fun c hc =>
    (stage_start hready k).steps hn hready.length_eq hc
  refine ⟨fun f _ => no_infinite_run f, fun c hc => ?_, ?_, exists_dangling hn hready⟩
  · exact ⟨(hstage c hc).not_dangling, (hstage c hc).stuck hready.length_eq,
      (hstage c hc).finished⟩
  · rintro ⟨c, hc, hposted, -⟩
    cases hstage c hc with
    | turn x m hsides => exact absurd (hsides.posted_eq 1) hposted.ne'
    | posted x m _ hm | sent x m _ hm => omega

/-- One iteration is enough. -/
theorem loop_exact_one :
    ∃ c, Steps (loopStart ![oneSide true [1, 2], oneSide false [3, 4]] 1) c ∧ Dangling c 1 :=
  have hready : Ready 2 ![[1, 2], [3, 4]] ![oneSide true [1, 2], oneSide false [3, 4]] :=
    ⟨Fin.forall_fin_two.mpr ⟨⟨_, armed_oneSide true [1, 2]⟩, ⟨_, armed_oneSide false [3, 4]⟩⟩,
      rfl, rfl⟩
  (loop_exact Nat.two_pos hready 1).2.2.mpr Nat.one_pos

end NetPipe.GmLoop
