/-
  Choreographies: what a number of ranks are going to do together, act by act.

  An act is a message from one rank to another, or a round in which all ranks call a collective.
  One list of acts is the plan of the whole session; the script of a rank is its part in it, act by
  act (`script`).  Nothing is said of the order in which different ranks come to their parts: that
  is up to the network of `Lib.Ranks`, and all results are about every execution.

  1. **One program at a time** (`handler`, `Keeps`).  The state of the handler is the part of the
     script that is still ahead, and a request is accepted where it is the next part.  So "the
     program keeps to its script" is a `wp`, proved of each program on its own with the rules of
     `Lib.Process`; the other ranks do not come into it.

  2. **Safety** (`Inv`, `Inv.step`, `Inv.steps`).  In every reachable configuration each rank has
     done a prefix of its script, what is under way is what has been sent and not yet received, and
     the calls of a round are those it allows.  The load-bearing fact is `Inv.first_mail`: a rank
     receives by sender and tag, and as its next part names the first message that is on its way
     from there, the first one with that tag is this very message.

  3. **Progress** (`Inv.reached`, `Inv.stuck`).  Where no step is possible every act has been done
     by everybody, by induction on the number of acts.  Let all ranks be past the first `k` acts:
     each is at act number `k` or past it (`Inv.reached_or_at`), a message of this act has nothing
     in front of it, a round has everybody's call, and so a rank that is still at it could go on.

  4. **Whole runs** (`ends`, `completes`, `done_rounds`, `delivered`) put the two together.

  A program may have a script that is over before it is (`Idle`): it then waits for ever, for a
  message nobody sends or in a collective that some rank does not call.  And one that leaves the
  process instead (section 5, `stay`) is treated as one that waits for ever where it left, which is
  the same to the other ranks.
-/
import NetPipe.Lib.Ranks

namespace Choreo

open Process Ranks

variable {n : Nat} {Msg Coll : Type} {CRes : Coll → Type} {Ev α : Type}

/-! ## Acts and scripts -/

/-- A collective that everybody calls: the calls there may be, and what they are given. -/
structure Round (N : Network n Coll CRes) where
  allowed : Fin n → Coll → Prop
  gives : Fin n → (c : Coll) → CRes c → Prop
  sound : ∀ ops i r, (∀ j, allowed j (ops j)) → N.complete ops i (ops i) r → gives i (ops i) r
  live : ∀ ops i, (∀ j, allowed j (ops j)) → ∃ r, N.complete ops i (ops i) r

/-- What happens next. -/
inductive Act (Msg : Type) (N : Network n Coll CRes) where
  | msg (source dest : Fin n) (ne : source ≠ dest) (tag : Int) (msg : Msg)
  | round (R : Round N)

/-- What a rank has to do. -/
inductive Part (Msg : Type) (N : Network n Coll CRes) where
  | send (dest : Fin n) (tag : Int) (msg : Msg)
  | recv (source : Fin n) (tag : Int) (msg : Msg)
  | round (R : Round N)

variable {N : Network n Coll CRes}

/-- The part of rank `i` in an act. -/
def Act.part (i : Fin n) : Act Msg N → Option (Part Msg N)
  | .msg source dest _ tag m =>
    if source = i then some (.send dest tag m)
    else if dest = i then some (.recv source tag m)
    else none
  | .round R => some (.round R)

/-- The parts of rank `i`, in order. -/
def script (σ : List (Act Msg N)) (i : Fin n) : List (Part Msg N) := σ.filterMap (Act.part i)

/-- What is sent to rank `j`. -/
def sends (j : Fin n) (s : List (Part Msg N)) : List (Int × Msg) :=
  s.filterMap fun
    | .send dest tag msg => if dest = j then some (tag, msg) else none
    | _ => none

/-- What is received from rank `i`. -/
def recvs (i : Fin n) (s : List (Part Msg N)) : List (Int × Msg) :=
  s.filterMap fun
    | .recv source tag msg => if source = i then some (tag, msg) else none
    | _ => none

/-- The rounds among these parts. -/
def rounds (s : List (Part Msg N)) : List (Round N) :=
  s.filterMap fun
    | .round R => some R
    | _ => none

/-- The messages from `i` to `j`. -/
def traffic (i j : Fin n) (σ : List (Act Msg N)) : List (Int × Msg) :=
  σ.filterMap fun
    | .msg source dest _ tag msg => if source = i ∧ dest = j then some (tag, msg) else none
    | .round _ => none

/-- All rounds. -/
def allRounds (σ : List (Act Msg N)) : List (Round N) :=
  σ.filterMap fun
    | .round R => some R
    | _ => none

section scripts

variable (σ τ : List (Act Msg N)) (i j : Fin n) (s t : List (Part Msg N))

@[simp] theorem script_append : script (σ ++ τ) i = script σ i ++ script τ i :=
  List.filterMap_append ..

/-- The same acts over and over. -/
theorem script_replicate (k : Nat) :
    script (List.replicate k σ).flatten i = (List.replicate k (script σ i)).flatten := by
  rw [script, List.filterMap_flatten, List.map_replicate]
  rfl

@[simp] theorem sends_append : sends j (s ++ t) = sends j s ++ sends j t :=
  List.filterMap_append ..

@[simp] theorem recvs_append : recvs i (s ++ t) = recvs i s ++ recvs i t :=
  List.filterMap_append ..

@[simp] theorem rounds_append : rounds (s ++ t) = rounds s ++ rounds t :=
  List.filterMap_append ..

@[simp] theorem rounds_nil : rounds ([] : List (Part Msg N)) = [] := rfl

@[simp] theorem recvs_cons_self (tag : Int) (msg : Msg) :
    recvs i (.recv i tag msg :: s) = (tag, msg) :: recvs i s := by
  simp [recvs]

/-- Whatever one rank sends to another one is received there, in the same order. -/
theorem sends_script : sends j (script σ i) = traffic i j σ := by
  rw [sends, script, List.filterMap_filterMap, traffic]
  congr 1
  funext a
  cases a with
  | round R => rfl
  | msg source dest ne tag msg =>
    by_cases hs : source = i
    · by_cases hd : dest = j <;> simp [Act.part, hs, hd]
    · by_cases hd : dest = i <;> simp [Act.part, hs, hd]

theorem recvs_script : recvs i (script σ j) = traffic i j σ := by
  rw [recvs, script, List.filterMap_filterMap, traffic]
  congr 1
  funext a
  cases a with
  | round R => rfl
  | msg source dest ne tag msg =>
    by_cases hs : source = j
    · have hd : dest ≠ j := fun h => ne (hs.trans h.symm)
      simp [Act.part, hs, hd]
    · by_cases hd : dest = j <;> simp [Act.part, hs, hd]

theorem rounds_script : rounds (script σ i) = allRounds σ := by
  rw [rounds, script, List.filterMap_filterMap, allRounds]
  congr 1
  funext a
  cases a with
  | round R => rfl
  | msg source dest ne tag msg =>
    by_cases hs : source = i
    · simp [Act.part, hs]
    · by_cases hd : dest = i <;> simp [Act.part, hs, hd]

/-- Where all acts are rounds, everybody has the same script. -/
theorem script_rounds (rs : List (Round N)) :
    script (rs.map .round : List (Act Msg N)) i = rs.map .round := by
  rw [script, List.filterMap_map]
  exact congrFun List.filterMap_eq_map rs

theorem allRounds_rounds (rs : List (Round N)) :
    allRounds (rs.map .round : List (Act Msg N)) = rs := by
  rw [allRounds, List.filterMap_map]
  exact List.filterMap_some

end scripts

/-! ## Programs that keep to a script -/

/-- Where a rank may stand for ever once its script is over. -/
abbrev Idle (n : Nat) (Msg Coll : Type) := Fin n → RankOp Msg Coll → Prop

/-- The request is the next part of the script, and the program goes on well after what it is
    given. -/
def PartOk (i : Fin n) (s : List (Part Msg N)) :
    (o : RankOp Msg Coll) → (RankOp.Res CRes o → List (Part Msg N) → Prop) → Prop
  | .send dest tag msg, Q => ∃ (j : Fin n) (rest : List (Part Msg N)), dest = j ∧
      s = .send j tag msg :: rest ∧ Q () rest
  | .recv source tag, Q => ∃ (j : Fin n) (msg : Msg) (rest : List (Part Msg N)), source = j ∧
      s = .recv j tag msg :: rest ∧ Q msg rest
  | .coll c, Q => ∃ (R : Round N) (rest : List (Part Msg N)), s = .round R :: rest ∧
      R.allowed i c ∧ ∀ r, R.gives i c r → Q r rest

theorem partOk_nil {i : Fin n} {o : RankOp Msg Coll}
    {Q : RankOp.Res CRes o → List (Part Msg N) → Prop} : ¬ PartOk i [] o Q := by
  cases o <;> simp [PartOk]

section inversion

variable {i j : Fin n} {s : List (Part Msg N)} {o : RankOp Msg Coll}
  {Q : RankOp.Res CRes o → List (Part Msg N) → Prop}

/-- The request that goes with a message to be sent. -/
theorem PartOk.eq_send {tag : Int} {msg : Msg} (h : PartOk i (.send j tag msg :: s) o Q) :
    o = .send j tag msg := by
  cases o with
  | send =>
    obtain ⟨j', rest, rfl, heq, -⟩ := h
    cases heq
    rfl
  | recv =>
    obtain ⟨j', m, rest, -, heq, -⟩ := h
    cases heq
  | coll =>
    obtain ⟨R, rest, heq, -⟩ := h
    cases heq

/-- The request that goes with a message to be received. -/
theorem PartOk.eq_recv {tag : Int} {msg : Msg} (h : PartOk i (.recv j tag msg :: s) o Q) :
    o = .recv j tag := by
  cases o with
  | recv =>
    obtain ⟨j', m, rest, rfl, heq, -⟩ := h
    cases heq
    rfl
  | send =>
    obtain ⟨j', rest, -, heq, -⟩ := h
    cases heq
  | coll =>
    obtain ⟨R, rest, heq, -⟩ := h
    cases heq

/-- The request that goes with a round. -/
theorem PartOk.eq_coll {R : Round N} (h : PartOk i (.round R :: s) o Q) :
    ∃ op, o = .coll op ∧ R.allowed i op := by
  cases o with
  | coll op =>
    obtain ⟨R', rest, heq, hop, -⟩ := h
    cases heq
    exact ⟨op, rfl, hop⟩
  | send =>
    obtain ⟨j', rest, -, heq, -⟩ := h
    cases heq
  | recv =>
    obtain ⟨j', m, rest, -, heq, -⟩ := h
    cases heq

end inversion

/-- The handler whose state is the script still ahead of rank `i`.  It rules out leaving the process
    and undefined behaviour, and accepts a request that is no part of the script only where the
    script is over and the rank may stand there for ever. -/
def handler (N : Network n Coll CRes) (idle : Idle n Msg Coll) (Ev : Type) (i : Fin n) :
    Handler (RankOp Msg Coll) (RankOp.Res CRes) Ev (List (Part Msg N)) where
  emit _ s Q := Q s
  alloc m r := ∃ bs, r = some bs ∧ bs.length = m
  io o s Q := (s = [] ∧ idle i o) ∨ PartOk i s o Q
  exit _ _ _ := False
  fault _ := False
  emit_mono hQ h := hQ _ h
  io_mono := by
    intro o s Q Q' hQ h
    refine h.imp_right ?_
    intro h
    cases o with
    | send dest tag msg =>
      obtain ⟨j, rest, hj, hs, h⟩ := h
      exact ⟨j, rest, hj, hs, hQ _ _ h⟩
    | recv source tag =>
      obtain ⟨j, msg, rest, hj, hs, h⟩ := h
      exact ⟨j, msg, rest, hj, hs, hQ _ _ h⟩
    | coll c =>
      obtain ⟨R, rest, hs, hc, h⟩ := h
      exact ⟨R, rest, hs, hc, fun r hr => hQ _ _ (h r hr)⟩

/-- The program keeps to the script and returns at its end, with `Post`. -/
abbrev Keeps (idle : Idle n Msg Coll) (Post : α → Prop) (i : Fin n) (p : RankProg Msg CRes Ev α) :
    List (Part Msg N) → Prop :=
  wp (handler N idle Ev i) p fun a s => s = [] ∧ Post a

/-- A rank in the middle of its run.  A send that has been issued is struck off the script already,
    although the rank may still wait for the network to take it: to the receiver it is there. -/
def Fits (idle : Idle n Msg Coll) (Post : α → Prop) (i : Fin n) (p : Party Msg CRes Ev α)
    (rest : List (Part Msg N)) : Prop :=
  match p.issued, p.prog with
  | false, prog => Keeps idle Post i prog rest
  | true, .io (.send dest _ _) k => (∃ j : Fin n, dest = j) ∧ Keeps idle Post i (k ()) rest
  | true, _ => False

/-- A call in a round that allows it. -/
theorem handler_coll {idle : Idle n Msg Coll} {i : Fin n} {c : Coll} {R : Round N}
    {rest : List (Part Msg N)} {Q : CRes c → List (Part Msg N) → Prop} (hc : R.allowed i c)
    (hQ : ∀ r, R.gives i c r → Q r rest) :
    (handler N idle Ev i).io (.coll c) (.round R :: rest) Q :=
  Or.inr ⟨R, rest, rfl, hc, hQ⟩

/-- Nothing comes of standing there: nobody sends any more, or some rank does not call.  Without
    this a rank that has its script behind it might be woken up again. -/
structure Idle.Blocked (idle : Idle n Msg Coll) : Prop where
  send : ∀ i dest tag msg, ¬ idle i (.send dest tag msg)
  recv : ∀ i source tag, idle i (.recv source tag) → ∃ j : Fin n, source = j
  coll : ∀ i c, idle i (.coll c) → ∃ j, ∀ c', ¬ idle j (.coll c')

/-! ## Safety -/

/-- **The invariant**: `past` has been done, `rest` is ahead.  The last field carries the safety
    proof: what is on its way from `i` to `j` is what `i` has sent and `j` has not yet received, so
    with `split` the network never holds anything but messages that the scripts account for. -/
structure Inv (idle : Idle n Msg Coll) (Post : Fin n → α → Prop) (σ : List (Act Msg N))
    (past rest : Fin n → List (Part Msg N)) (c : Config n Msg CRes Ev α) : Prop where
  split : ∀ i, past i ++ rest i = script σ i
  fits : ∀ i, Fits idle (Post i) i (c.party i) (rest i)
  done : ∀ i, List.Forall₂ (fun R op => R.allowed i op) (rounds (past i)) (c.party i).done
  mail : ∀ i j : Fin n, sends j (past i) = recvs i (past j) ++ c.mail (i, j)

section inv

variable {idle : Idle n Msg Coll} {Post : Fin n → α → Prop} {σ : List (Act Msg N)}
  {past rest : Fin n → List (Part Msg N)} {c c' : Config n Msg CRes Ev α}

theorem Inv.start {prog : Fin n → RankProg Msg CRes Ev α}
    (h : ∀ i, Keeps idle (Post i) i (prog i) (script σ i)) :
    Inv idle Post σ (fun _ => []) (script σ) (Config.start prog) :=
  ⟨fun _ => rfl, h, fun _ => .nil, fun _ _ => rfl⟩

/-- What is under way and what will be sent is what will be received. -/
theorem Inv.mail_rest (h : Inv idle Post σ past rest c) (i j : Fin n) :
    c.mail (i, j) ++ sends j (rest i) = recvs i (rest j) := by
  have hsends := sends_script σ i j
  have hrecvs := recvs_script σ i j
  rw [← h.split i, sends_append, h.mail i j] at hsends
  rw [← h.split j, recvs_append] at hrecvs
  rw [← hrecvs, List.append_assoc] at hsends
  exact List.append_cancel_left hsends

theorem Inv.rounds_eq (h : Inv idle Post σ past rest c) (i : Fin n) :
    rounds (past i) ++ rounds (rest i) = allRounds σ := by
  rw [← rounds_append, h.split, rounds_script]

theorem inside_getElem? {p : RankProg Msg CRes Ev α} {m : Nat} {op : Coll}
    (h : (inside p)[m]? = some op) : m = 0 ∧ ∃ k, p = .io (.coll op) k := by
  unfold inside at h
  split at h
  · obtain ⟨hm, rfl⟩ := List.getElem?_eq_some_iff.mp h
    have hm : m = 0 := Nat.lt_one_iff.mp hm
    subst hm
    exact ⟨rfl, _, rfl⟩
  · cases h

/-- What a rank at a collective is at. -/
theorem Inv.at_coll (h : Inv idle Post σ past rest c) {i : Fin n} {op : Coll}
    {k : CRes op → RankProg Msg CRes Ev α} (hp : (c.party i).prog = .io (.coll op) k) :
    (c.party i).issued = false ∧ ((rest i = [] ∧ idle i (.coll op)) ∨
      ∃ R rest', rest i = .round R :: rest' ∧ R.allowed i op ∧
        ∀ r, R.gives i op r → Keeps idle (Post i) i (k r) rest') := by
  have hfits := h.fits i
  unfold Fits at hfits
  rw [hp] at hfits
  cases hi : (c.party i).issued with
  | false =>
    rw [hi] at hfits
    exact ⟨rfl, hfits⟩
  | true =>
    rw [hi] at hfits
    cases hfits

/-- A call of a rank is one its round allows, or the one it stands at for ever. -/
theorem Inv.called (h : Inv idle Post σ past rest c) {i : Fin n} {m : Nat} {op : Coll}
    (hop : (c.party i).calls[m]? = some op) :
    (∃ R, (allRounds σ)[m]? = some R ∧ R.allowed i op) ∨
      m = (allRounds σ).length ∧ idle i (.coll op) := by
  have hdone := h.done i
  have hrounds := h.rounds_eq i
  have hlen := hdone.length_eq
  rw [Party.calls, List.getElem?_append] at hop
  split at hop
  · -- a call that has returned
    left
    rename_i hlt
    obtain ⟨hlt', rfl⟩ := List.getElem?_eq_some_iff.mp hop
    refine ⟨(rounds (past i))[m], ?_, hdone.get (hlen ▸ hlt) hlt⟩
    rw [← hrounds, List.getElem?_append_left (hlen ▸ hlt), List.getElem?_eq_getElem]
  · -- the call the rank is in
    rename_i hge
    obtain ⟨hm, k, hp⟩ := inside_getElem? hop
    obtain rfl : m = (c.party i).done.length := by omega
    obtain ⟨-, ⟨hrest, hidle⟩ | ⟨R, rest', hrest, hR, -⟩⟩ := h.at_coll hp
    · right
      rw [hrest, rounds_nil, List.append_nil] at hrounds
      exact ⟨hlen ▸ congrArg List.length hrounds, hidle⟩
    · left
      refine ⟨R, ?_, hR⟩
      rw [← hrounds, hrest, ← hlen, List.getElem?_append_right (Nat.le_refl _), Nat.sub_self]
      rfl

/-! ### One step -/

theorem key_inj {a b i j : Fin n} : (((a : Int), (b : Int)) = ((i : Int), (j : Int))) ↔
    a = i ∧ b = j := by
  simp [Fin.ext_iff]

/-- A step of rank `i` that is no part of the script. -/
theorem Inv.set (h : Inv idle Post σ past rest c) {i : Fin n} {p p' : Party Msg CRes Ev α}
    (hp : c.party i = p) (hdone : p'.done = p.done)
    (hfits : Fits idle (Post i) i p (rest i) → Fits idle (Post i) i p' (rest i)) :
    Inv idle Post σ past rest (c.set i p') := by
  subst hp
  refine ⟨h.split, ?_, ?_, h.mail⟩
  · intro j
    by_cases hj : j = i
    · subst hj
      simpa only [Config.set, Function.update_self] using hfits (h.fits j)
    · simpa only [Config.set, Function.update_of_ne hj] using h.fits j
  · intro j
    by_cases hj : j = i
    · subst hj
      simpa only [Config.set, Function.update_self, hdone] using h.done j
    · simpa only [Config.set, Function.update_of_ne hj] using h.done j

/-- Rank `i` has done the next part of its script. -/
theorem Inv.advance (h : Inv idle Post σ past rest c) {i : Fin n} {x : Part Msg N}
    {rest' : List (Part Msg N)} {p' : Party Msg CRes Ev α} {mail' : Int × Int → List (Int × Msg)}
    (hrest : rest i = x :: rest') (hfits : Fits idle (Post i) i p' rest')
    (hdone : List.Forall₂ (fun R op => R.allowed i op) (rounds (past i ++ [x])) p'.done)
    (hmail : ∀ a b : Fin n, c.mail (a, b) ++ (if a = i then sends b [x] else []) =
      (if b = i then recvs a [x] else []) ++ mail' (a, b)) :
    ∃ past' rest', Inv idle Post σ past' rest' ⟨Function.update c.party i p', mail'⟩ := by
  refine ⟨Function.update past i (past i ++ [x]), Function.update rest i rest', ?_,
    ?_, ?_, ?_⟩
  · intro j
    by_cases hj : j = i
    · subst hj
      rw [Function.update_self, Function.update_self, ← h.split j, hrest, List.append_assoc]
      rfl
    · rw [Function.update_of_ne hj, Function.update_of_ne hj, h.split j]
  · intro j
    by_cases hj : j = i
    · subst hj
      simpa only [Function.update_self] using hfits
    · simpa only [Function.update_of_ne hj] using h.fits j
  · intro j
    by_cases hj : j = i
    · subst hj
      simpa only [Function.update_self] using hdone
    · simpa only [Function.update_of_ne hj] using h.done j
  · intro a b
    have hsends : sends b (Function.update past i (past i ++ [x]) a) =
        sends b (past a) ++ if a = i then sends b [x] else [] := by
      by_cases ha : a = i
      · subst ha
        rw [Function.update_self, sends_append, if_pos rfl]
      · rw [Function.update_of_ne ha, if_neg ha, List.append_nil]
    have hrecvs : recvs a (Function.update past i (past i ++ [x]) b) =
        recvs a (past b) ++ if b = i then recvs a [x] else [] := by
      by_cases hb : b = i
      · subst hb
        rw [Function.update_self, recvs_append, if_pos rfl]
      · rw [Function.update_of_ne hb, if_neg hb, List.append_nil]
    rw [hsends, hrecvs, h.mail, List.append_assoc, List.append_assoc, hmail]

/-- A message issued: it is the next part of the sender's script. -/
theorem Inv.issue (hidle : idle.Blocked) (h : Inv idle Post σ past rest c) {i : Fin n}
    {dest tag : Int} {msg : Msg} {k : Unit → RankProg Msg CRes Ev α} {l : List Coll}
    (hp : c.party i = ⟨.io (.send dest tag msg) k, false, l⟩) :
    ∃ past rest, Inv idle Post σ past rest ((c.set i ⟨.io (.send dest tag msg) k, true, l⟩).post i
      dest (c.mail (i, dest) ++ [(tag, msg)])) := by
  have hfits := h.fits i
  have hdone := h.done i
  rw [hp] at hfits hdone
  rcases hfits with ⟨-, hwait⟩ | ⟨j, rest', rfl, hrest, hk⟩
  · exact (hidle.send _ _ _ _ hwait).elim
  refine h.advance hrest ⟨⟨j, rfl⟩, hk⟩ ?_ ?_
  · rw [rounds_append]
    exact (List.append_nil (rounds (past i))).symm ▸ hdone
  · -- only the mail from `i` to `j` is touched
    intro a b
    show _ = (if b = i then [] else []) ++ _
    rw [ite_self, List.nil_append]
    by_cases hab : a = i ∧ b = j
    · obtain ⟨rfl, rfl⟩ := hab
      simp [sends]
    · rw [Function.update_of_ne (mt key_inj.mp hab)]
      by_cases ha : a = i
      · have hb : j ≠ b := fun hb => hab ⟨ha, hb.symm⟩
        simp [ha, sends, hb]
      · rw [if_neg ha, List.append_nil, Config.set_mail]

/-- The first message with the tag asked for is the first one there is, and the one the receiver's
    script expects. -/
theorem Inv.first_mail (h : Inv idle Post σ past rest c) {i j : Fin n} {tag : Int} {msg m : Msg}
    {before behind : List (Int × Msg)} {rest' : List (Part Msg N)}
    (hmail : c.mail (j, i) = before ++ (tag, msg) :: behind) (hbefore : ∀ x ∈ before, x.1 ≠ tag)
    (hrest : rest i = .recv j tag m :: rest') : before = [] ∧ m = msg := by
  have heq := h.mail_rest j i
  rw [hmail, hrest, recvs_cons_self, List.append_assoc] at heq
  cases before with
  | nil =>
    injection heq with heq
    exact ⟨rfl, (Prod.mk.inj heq).2.symm⟩
  | cons x before =>
    injection heq with heq
    exact absurd (congrArg Prod.fst heq) (hbefore x List.mem_cons_self)

/-- A message received. -/
theorem Inv.receive (hidle : idle.Blocked) (h : Inv idle Post σ past rest c) {i : Fin n}
    {source tag : Int} {msg : Msg} {k : Msg → RankProg Msg CRes Ev α} {l : List Coll}
    {before behind : List (Int × Msg)} (hp : c.party i = ⟨.io (.recv source tag) k, false, l⟩)
    (hmail : c.mail (source, i) = before ++ (tag, msg) :: behind)
    (hbefore : ∀ x ∈ before, x.1 ≠ tag) :
    ∃ past rest, Inv idle Post σ past rest
      ((c.set i ⟨k msg, false, l⟩).post source i (before ++ behind)) := by
  have hfits := h.fits i
  have hdone := h.done i
  rw [hp] at hfits hdone
  rcases hfits with ⟨hrest, hwait⟩ | ⟨j, m, rest', rfl, hrest, hk⟩
  · -- everything for this rank has been received
    obtain ⟨j, rfl⟩ := hidle.recv _ _ _ hwait
    have heq := h.mail_rest j i
    rw [hmail, hrest] at heq
    simp [recvs] at heq
  obtain ⟨rfl, rfl⟩ := h.first_mail hmail hbefore hrest
  refine h.advance hrest hk ?_ ?_
  · rw [rounds_append]
    exact (List.append_nil (rounds (past i))).symm ▸ hdone
  · -- only the mail from `j` to `i` is touched
    intro a b
    show _ ++ (if a = i then [] else []) = _
    rw [ite_self, List.append_nil]
    by_cases hab : a = j ∧ b = i
    · obtain ⟨rfl, rfl⟩ := hab
      rw [hmail, if_pos rfl, Function.update_self, recvs_cons_self]
      rfl
    · rw [Function.update_of_ne (mt key_inj.mp hab)]
      by_cases hb : b = i
      · have ha : j ≠ a := fun ha => hab ⟨ha.symm, hb⟩
        simp [hb, recvs, ha]
      · rw [if_neg hb, List.nil_append, Config.set_mail]

/-- A collective completed for one of the ranks: all the calls that go with it are allowed by the
    round this rank is at. -/
theorem Inv.collect (hidle : idle.Blocked) (h : Inv idle Post σ past rest c) {i : Fin n}
    {o : Coll} {ops : Fin n → Coll} {k : CRes o → RankProg Msg CRes Ev α} {l : List Coll}
    {r : CRes o} (hp : c.party i = ⟨.io (.coll o) k, false, l⟩)
    (hops : ∀ j, (c.party j).calls[l.length]? = some (ops j)) (hr : N.complete ops i o r) :
    ∃ past rest, Inv idle Post σ past rest (c.set i ⟨k r, false, l ++ [o]⟩) := by
  have hcall : ops i = o := by
    have hi := hops i
    rw [hp] at hi
    simpa [Party.calls, inside] using hi.symm
  have hlen := (h.done i).length_eq
  have hrounds := h.rounds_eq i
  have hdone := h.done i
  rw [hp] at hlen hdone
  obtain ⟨-, ⟨hrest, hwait⟩ | ⟨R, rest', hrest, hR, hk⟩⟩ := h.at_coll (congrArg Party.prog hp)
  · -- somebody does not call
    obtain ⟨j, hj⟩ := hidle.coll _ _ hwait
    rw [hrest, rounds_nil, List.append_nil] at hrounds
    rcases h.called (hops j) with ⟨R, hR, -⟩ | ⟨-, hj'⟩
    · rw [← hrounds, ← hlen, List.getElem?_eq_none (Nat.le_refl _)] at hR
      cases hR
    · exact absurd hj' (hj _)
  have hround : (allRounds σ)[l.length]? = some R := by
    rw [← hrounds, hrest, ← hlen, List.getElem?_append_right (Nat.le_refl _), Nat.sub_self]
    rfl
  have hallowed : ∀ j, R.allowed j (ops j) := by
    intro j
    rcases h.called (hops j) with ⟨R', hR', hj⟩ | ⟨hlast, -⟩
    · obtain rfl : R = R' := Option.some.inj (hround.symm.trans hR')
      exact hj
    · rw [List.getElem?_eq_none hlast.ge] at hround
      cases hround
  subst hcall
  refine h.advance hrest (hk r (R.sound ops i r hallowed hr)) ?_ ?_
  · rw [rounds_append]
    exact List.rel_append hdone (.cons hR .nil)
  · intro a b
    show _ ++ (if a = i then [] else []) = (if b = i then [] else []) ++ _
    rw [ite_self, ite_self, List.append_nil, List.nil_append]

/-- **Step lemma.**  A local step changes one rank and nothing else; a send that is issued, a
    message received and a collective that completes each strike one part off one script. -/
theorem Inv.step (hidle : idle.Blocked) (h : Inv idle Post σ past rest c) (hs : Step N c c') :
    ∃ past rest, Inv idle Post σ past rest c' := by
  cases hs with
  | emit hp => exact ⟨past, rest, h.set hp rfl id⟩
  | malloc hp hbs => exact ⟨past, rest, h.set hp rfl fun hf => hf _ ⟨_, rfl, hbs⟩⟩
  | clock t hp => exact ⟨past, rest, h.set hp rfl fun hf => hf t⟩
  | sent hp _ => exact ⟨past, rest, h.set hp rfl fun hf => hf.2⟩
  | issue hp => exact h.issue hidle hp
  | recv hp hmail hbefore => exact h.receive hidle hp hmail hbefore
  | coll hp hops hr => exact h.collect hidle hp hops hr

/-- **Run lemma**, by induction on the steps. -/
theorem Inv.steps (hidle : idle.Blocked) {c₀ : Config n Msg CRes Ev α}
    (h : Inv idle Post σ past rest c₀) (hs : Steps N c₀ c) :
    ∃ past rest, Inv idle Post σ past rest c := by
  induction hs with
  | refl => exact ⟨past, rest, h⟩
  | tail _ hstep ih =>
    obtain ⟨past, rest, h⟩ := ih
    exact h.step hidle hstep

/-! ## Progress -/

/-- Where a rank is that cannot go on by itself. -/
theorem Inv.at_request (h : Inv idle Post σ past rest c) (hs : Stuck N c) (i : Fin n) :
    (rest i = [] ∧ ∃ a, (c.party i).Returned a ∧ Post i a) ∨
      (∃ o k, c.party i = ⟨.io o k, false, (c.party i).done⟩ ∧
        ((rest i = [] ∧ idle i o) ∨
          PartOk i (rest i) o fun r rest' => Keeps idle (Post i) i (k r) rest')) ∨
      ∃ (j : Fin n) (tag : Int) (msg : Msg) (k : Unit → RankProg Msg CRes Ev α),
        c.party i = ⟨.io (.send j tag msg) k, true, (c.party i).done⟩ := by
  have hfits := h.fits i
  cases hp : c.party i with
  | mk prog issued done =>
    rw [hp] at hfits
    cases issued with
    | false =>
      cases prog with
      | ret a => exact Or.inl ⟨hfits.1, a, rfl, hfits.2⟩
      | exit code msg => cases hfits
      | fault => cases hfits
      | emit e k => exact absurd (.emit hp) (hs _)
      | malloc m k =>
        exact absurd (.malloc hp (List.length_replicate (n := m) (a := 0))) (hs _)
      | clock k => exact absurd (.clock 0 hp) (hs _)
      | io o k => exact Or.inr (Or.inl ⟨o, k, rfl, hfits⟩)
    | true =>
      right; right
      cases prog with
      | io o k =>
        cases o with
        | send dest tag msg =>
          obtain ⟨⟨j, rfl⟩, -⟩ := hfits
          exact ⟨j, tag, msg, k, rfl⟩
        | recv source tag => cases hfits
        | coll op => cases hfits
      | _ => cases hfits

/-- Every rank has done its part in the first `k` acts.  The progress proof goes by induction on
    `k`; at the end of all acts nobody has anything left to do. -/
def Reached (σ : List (Act Msg N)) (past : Fin n → List (Part Msg N)) (k : Nat) : Prop :=
  ∀ i, script (σ.take k) i <+: past i

/-- A rank that has done its part in `k` acts, and no more, has issued nothing else.  Its messages
    belong to the first `k` acts, which their receivers are past, so all of them have been received
    and no send of its can be waiting for the network. -/
theorem Inv.not_issued (h : Inv idle Post σ past rest c) (hs : Stuck N c) {k : Nat}
    (hk : Reached σ past k) {i : Fin n} (hi : past i = script (σ.take k) i) :
    (c.party i).issued = false := by
  cases hissued : (c.party i).issued with
  | false => rfl
  | true =>
    exfalso
    have hnot : ¬ (c.party i).issued = false := by simp [hissued]
    rcases h.at_request hs i with ⟨-, a, ha, -⟩ | ⟨o, f, hp, -⟩ | ⟨j, tag, msg, f, hp⟩
    · have hfits := h.fits i
      unfold Fits at hfits
      rw [hissued, ha] at hfits
      cases hfits
    · exact hnot (by rw [hp])
    · -- a send that is still waiting has its message under way
      have hmail := congrArg List.length (h.mail i j)
      obtain ⟨t, ht⟩ := hk j
      rw [hi, ← ht, sends_script, recvs_append, recvs_script, List.length_append,
        List.length_append] at hmail
      have hempty : c.mail (i, j) = [] := List.eq_nil_of_length_eq_zero (by omega)
      exact hs _ (.sent hp (by simp [hempty]))

theorem take_succ_eq {k : Nat} {a : Act Msg N} (ha : σ[k]? = some a) :
    σ.take (k + 1) = σ.take k ++ [a] := by
  rw [List.take_add_one, ha]
  rfl

/-- Where a rank is with respect to act number `k`: with the first `k` acts behind it, it has done
    its part in this one too (or has none), or that part is the next thing in its script. -/
theorem Inv.reached_or_at (h : Inv idle Post σ past rest c) {k : Nat} (hk : Reached σ past k)
    {a : Act Msg N} (ha : σ[k]? = some a) (i : Fin n) :
    script (σ.take (k + 1)) i <+: past i ∨
      past i = script (σ.take k) i ∧ ∃ x s, a.part i = some x ∧ rest i = x :: s := by
  obtain ⟨t, ht⟩ := hk i
  have hsplit := h.split i
  have hdrop : σ = σ.take (k + 1) ++ σ.drop (k + 1) := (List.take_append_drop ..).symm
  have hone : script [a] i = (a.part i).toList := by
    cases hp : a.part i <;> simp [script, hp]
  rw [take_succ_eq ha] at hdrop
  rw [take_succ_eq ha, script_append, hone]
  rw [hdrop, ← ht, script_append, script_append, hone, List.append_assoc, List.append_assoc]
    at hsplit
  replace hsplit := List.append_cancel_left hsplit
  cases hp : a.part i with
  | none =>
    rw [Option.toList_none, List.append_nil]
    exact Or.inl ⟨t, ht⟩
  | some x =>
    rw [hp, Option.toList_some] at hsplit
    rw [Option.toList_some]
    cases t with
    | nil => exact Or.inr ⟨ht.symm.trans (List.append_nil _), x, _, rfl, hsplit⟩
    | cons y t =>
      injection hsplit with hy hsplit
      subst hy
      refine Or.inl ⟨t, ?_⟩
      rw [← ht, List.append_assoc]
      rfl

/-- A rank at its next part makes the request the part is about. -/
theorem Inv.at_part (h : Inv idle Post σ past rest c) (hs : Stuck N c) {k : Nat}
    (hk : Reached σ past k) {i : Fin n} (hi : past i = script (σ.take k) i) {x : Part Msg N}
    {s : List (Part Msg N)} (hrest : rest i = x :: s) :
    ∃ o f, c.party i = ⟨.io o f, false, (c.party i).done⟩ ∧
      PartOk i (x :: s) o fun r rest' => Keeps idle (Post i) i (f r) rest' := by
  have hissued := h.not_issued hs hk hi
  rcases h.at_request hs i with ⟨hnil, -⟩ | ⟨o, f, hp, hwait | hpart⟩ | ⟨j, tag, msg, f, hp⟩
  · cases hrest.symm.trans hnil
  · cases hrest.symm.trans hwait.1
  · exact ⟨o, f, hp, hrest ▸ hpart⟩
  · rw [hp] at hissued
    cases hissued

/-- The sender of a message sends it. -/
theorem Inv.reached_source (h : Inv idle Post σ past rest c) (hs : Stuck N c) {k : Nat}
    (hk : Reached σ past k) {source dest : Fin n} {ne : source ≠ dest} {tag : Int} {msg : Msg}
    (ha : σ[k]? = some (.msg source dest ne tag msg)) :
    script (σ.take (k + 1)) source <+: past source := by
  rcases h.reached_or_at hk ha source with hreached | ⟨hi, x, s, hx, hrest⟩
  · exact hreached
  · exfalso
    obtain ⟨o, f, hp, hpart⟩ := h.at_part hs hk hi hrest
    obtain rfl : Part.send dest tag msg = x := by simpa [Act.part] using hx
    obtain rfl := hpart.eq_send
    exact hs _ (.issue hp)

/-- Its receiver receives it. -/
theorem Inv.reached_dest (h : Inv idle Post σ past rest c) (hs : Stuck N c) {k : Nat}
    (hk : Reached σ past k) {source dest : Fin n} {ne : source ≠ dest} {tag : Int} {msg : Msg}
    (ha : σ[k]? = some (.msg source dest ne tag msg)) :
    script (σ.take (k + 1)) dest <+: past dest := by
  rcases h.reached_or_at hk ha dest with hreached | ⟨hi, x, s, hx, hrest⟩
  · exact hreached
  · exfalso
    obtain ⟨o, f, hp, hpart⟩ := h.at_part hs hk hi hrest
    obtain rfl : Part.recv source tag msg = x := by simpa [Act.part, ne] using hx
    obtain ⟨t, ht⟩ := h.reached_source hs hk ha
    have hmail := congrArg List.length (h.mail source dest)
    rw [← ht, hi, sends_append, sends_script, recvs_script, take_succ_eq ha, traffic,
      List.filterMap_append, ← traffic] at hmail
    have hnext := h.mail_rest source dest
    rw [hrest, recvs_cons_self] at hnext
    -- the message has been sent and not been received: it is the first one under way
    cases hpending : c.mail (source, dest) with
    | nil => simp [hpending] at hmail
    | cons y behind =>
      rw [hpending] at hnext
      injection hnext with hy hnext
      subst hy
      obtain rfl := hpart.eq_recv
      exact hs _ (@Step.recv _ _ _ _ _ _ _ _ _ _ _ _ _ _ [] behind hp hpending
        fun _ hm => nomatch hm)

/-- Everybody has made its call of a round, or is making it. -/
theorem Inv.exists_call (h : Inv idle Post σ past rest c) (hs : Stuck N c) {k : Nat}
    (hk : Reached σ past k) {R : Round N} (ha : σ[k]? = some (.round R)) (j : Fin n) :
    ∃ op, (c.party j).calls[(allRounds (σ.take k)).length]? = some op ∧ R.allowed j op := by
  have hdone := h.done j
  rcases h.reached_or_at hk ha j with ⟨t, ht⟩ | ⟨hi, x, s, hx, hrest⟩
  · -- it has been made
    have hrounds : rounds (past j) = allRounds (σ.take k) ++ R :: rounds t := by
      rw [← ht, rounds_append, rounds_script, take_succ_eq ha, allRounds, List.filterMap_append,
        List.append_assoc]
      rfl
    have hlen := hdone.length_eq
    rw [hrounds] at hlen hdone
    have hlt : (allRounds (σ.take k)).length < (allRounds (σ.take k) ++ R :: rounds t).length := by
      rw [List.length_append, List.length_cons]
      omega
    have hlt' := hlen ▸ hlt
    refine ⟨(c.party j).done[(allRounds (σ.take k)).length], ?_, ?_⟩
    · rw [Party.calls, List.getElem?_append_left hlt', List.getElem?_eq_getElem]
    · have hR : (allRounds (σ.take k) ++ R :: rounds t)[(allRounds (σ.take k)).length] = R := by
        simp
      have hget := hdone.get hlt hlt'
      rwa [List.get_eq_getElem, hR] at hget
  · -- it is being made
    obtain ⟨o, f, hp, hpart⟩ := h.at_part hs hk hi hrest
    obtain rfl : Part.round R = x := by simpa [Act.part] using hx
    have hlen := hdone.length_eq
    rw [hi, rounds_script] at hlen
    obtain ⟨op, rfl, hop⟩ := hpart.eq_coll
    refine ⟨op, ?_, hop⟩
    rw [Party.calls, hlen, List.getElem?_append_right (Nat.le_refl _), Nat.sub_self, hp]
    rfl

/-- And does. -/
theorem Inv.reached_round (h : Inv idle Post σ past rest c) (hs : Stuck N c) {k : Nat}
    (hk : Reached σ past k) {R : Round N} (ha : σ[k]? = some (.round R)) (i : Fin n) :
    script (σ.take (k + 1)) i <+: past i := by
  choose ops hops hallowed using h.exists_call hs hk ha
  rcases h.reached_or_at hk ha i with hreached | ⟨hi, x, s, hx, hrest⟩
  · exact hreached
  · -- it is making its call, and so are the others: the collective can complete
    exfalso
    obtain ⟨o, f, hp, hpart⟩ := h.at_part hs hk hi hrest
    obtain rfl : Part.round R = x := by simpa [Act.part] using hx
    have hlen := (h.done i).length_eq
    rw [hi, rounds_script] at hlen
    obtain ⟨op, rfl, -⟩ := hpart.eq_coll
    have hop : op = ops i := by
      have hcall := hops i
      rw [Party.calls, hlen, List.getElem?_append_right (Nat.le_refl _), Nat.sub_self, hp] at hcall
      exact Option.some.inj hcall
    subst hop
    obtain ⟨r, hr⟩ := R.live ops i hallowed
    exact hs _ (.coll hp (hlen ▸ hops) hr)

/-- **Progress.**  Where no step is possible, every act has been done by everybody.  By
    induction on the acts: the ranks that have a part in the next one are at it, with nothing in
    front of it, so they would have a step to make if they had not done it. -/
theorem Inv.reached (h : Inv idle Post σ past rest c) (hs : Stuck N c) (k : Nat)
    (hk : k ≤ σ.length) : Reached σ past k := by
  induction k with
  | zero => exact fun i => List.nil_prefix
  | succ k ih =>
    have hreached := ih (Nat.le_of_succ_le hk)
    have ha : σ[k]? = some σ[k] := List.getElem?_eq_getElem hk
    intro i
    cases hact : σ[k] with
    | round R => exact h.reached_round hs hreached (ha.trans (congrArg some hact)) i
    | msg source dest ne tag msg =>
      have ha := ha.trans (congrArg some hact)
      rcases h.reached_or_at hreached ha i with hi | ⟨-, x, s, hx, -⟩
      · exact hi
      · by_cases hsource : source = i
        · exact hsource ▸ h.reached_source hs hreached ha
        · by_cases hdest : dest = i
          · exact hdest ▸ h.reached_dest hs hreached ha
          · simp [Act.part, hsource, hdest] at hx

theorem Inv.stuck_past (h : Inv idle Post σ past rest c) (hs : Stuck N c) (i : Fin n) :
    past i = script σ i ∧ rest i = [] := by
  obtain ⟨t, ht⟩ := h.reached hs σ.length (Nat.le_refl _) i
  have hsplit := h.split i
  rw [List.take_length] at ht
  rw [← ht, List.append_assoc] at hsplit
  have hnil := List.append_cancel_left (hsplit.trans (List.append_nil _).symm)
  obtain ⟨rfl, hrest⟩ := List.append_eq_nil_iff.mp hnil
  exact ⟨ht.symm.trans (List.append_nil _), hrest⟩

/-- A rank that cannot go on has returned, or stands where it may for ever. -/
theorem Inv.stuck (h : Inv idle Post σ past rest c) (hs : Stuck N c) (i : Fin n) :
    (∃ a, (c.party i).Returned a ∧ Post i a) ∨ ∃ o k, (c.party i).prog = .io o k ∧ idle i o := by
  have hreached := h.reached hs σ.length (Nat.le_refl _)
  have hall := h.stuck_past hs i
  have hissued := h.not_issued hs hreached (hall.1.trans (by rw [List.take_length]))
  rcases h.at_request hs i with ⟨-, ha⟩ | ⟨o, f, hp, hwait | hpart⟩ | ⟨j, tag, msg, f, hp⟩
  · exact Or.inl ha
  · exact Or.inr ⟨o, f, by rw [hp], hwait.2⟩
  · exact (partOk_nil (hall.2 ▸ hpart)).elim
  · rw [hp] at hissued
    cases hissued

end inv

/-! ## Whole runs -/

section runs

variable {idle : Idle n Msg Coll} {Post : Fin n → α → Prop} {σ : List (Act Msg N)}
  {prog : Fin n → RankProg Msg CRes Ev α}

/-- **Every execution** of programs that keep to their scripts ends with each rank returned, or
    standing where it may for ever. -/
theorem ends (hidle : idle.Blocked) (h : ∀ i, Keeps idle (Post i) i (prog i) (script σ i))
    {c : Config n Msg CRes Ev α} (hc : Steps N (Config.start prog) c) (hs : Stuck N c)
    (i : Fin n) :
    (∃ a, (c.party i).Returned a ∧ Post i a) ∨ ∃ o k, (c.party i).prog = .io o k ∧ idle i o := by
  obtain ⟨past, rest, hinv⟩ := (Inv.start h).steps hidle hc
  exact hinv.stuck hs i

/-- A call of a rank is one its round allows, or the one it stands at for ever. -/
theorem called (hidle : idle.Blocked) (h : ∀ i, Keeps idle (Post i) i (prog i) (script σ i))
    {c : Config n Msg CRes Ev α} (hc : Steps N (Config.start prog) c) {i : Fin n} {m : Nat}
    {op : Coll} (hop : (c.party i).calls[m]? = some op) :
    (∃ R, (allRounds σ)[m]? = some R ∧ R.allowed i op) ∨
      m = (allRounds σ).length ∧ idle i (.coll op) := by
  obtain ⟨past, rest, hinv⟩ := (Inv.start h).steps hidle hc
  exact hinv.called hop

/-- Where an execution ends every round has been completed by everybody. -/
theorem done_rounds (hidle : idle.Blocked)
    (h : ∀ i, Keeps idle (Post i) i (prog i) (script σ i)) {c : Config n Msg CRes Ev α}
    (hc : Steps N (Config.start prog) c) (hs : Stuck N c) (i : Fin n) :
    List.Forall₂ (fun R op => R.allowed i op) (allRounds σ) (c.party i).done := by
  obtain ⟨past, rest, hinv⟩ := (Inv.start h).steps hidle hc
  have hdone := hinv.done i
  rwa [(hinv.stuck_past hs i).1, rounds_script] at hdone

/-- And every message has been received. -/
theorem delivered (hidle : idle.Blocked)
    (h : ∀ i, Keeps idle (Post i) i (prog i) (script σ i)) {c : Config n Msg CRes Ev α}
    (hc : Steps N (Config.start prog) c) (hs : Stuck N c) (i j : Fin n) : c.mail (i, j) = [] := by
  obtain ⟨past, rest, hinv⟩ := (Inv.start h).steps hidle hc
  have hmail := hinv.mail i j
  rw [(hinv.stuck_past hs i).1, (hinv.stuck_past hs j).1, sends_script, recvs_script] at hmail
  exact List.self_eq_append_right.mp hmail

/-- Nobody stands anywhere for ever. -/
def nowhere : Idle n Msg Coll := fun _ _ => False

theorem blocked_nowhere : (nowhere : Idle n Msg Coll).Blocked :=
  ⟨fun _ _ _ _ h => h, fun _ _ _ h => h.elim, fun _ _ h => h.elim⟩

/-- **Completion.**  Programs that keep to the scripts of one choreography, and may stand
    nowhere for ever, are all bound to return. -/
theorem completes (h : ∀ i, Keeps nowhere (Post i) i (prog i) (script σ i)) :
    Completes N (Config.start prog) Post := by
  refine .of_stuck ?_
  intro c hc hs i
  rcases ends blocked_nowhere h hc hs i with ha | ⟨o, k, -, hidle⟩
  · exact ha
  · exact hidle.elim

end runs

/-! ## Ranks that leave the process

A rank that calls `exit` is as good as one that waits for ever for a message nobody sends
(`stay`), since nothing it asks for afterwards would be answered. -/

section leaving

variable {idle : Idle n Msg Coll} {Post : Fin n → α → Prop} {σ : List (Act Msg N)}
  {prog : Fin n → RankProg Msg CRes Ev α} (source tag : Int)

/-- The program with this receive in place of leaving the process. -/
def stay : RankProg Msg CRes Ev α → RankProg Msg CRes Ev α
  | .ret a => .ret a
  | .exit _ _ => .io (.recv source tag) fun _ => .fault
  | .fault => .fault
  | .emit e k => .emit e (stay k)
  | .malloc m k => .malloc m fun r => stay (k r)
  | .clock k => .clock fun t => stay (k t)
  | .io o k => .io o fun r => stay (k r)

/-- Leaving the process is acceptable where standing in that receive is. -/
def leaving (N : Network n Coll CRes) (idle : Idle n Msg Coll) (Ev : Type) (i : Fin n) :
    Handler (RankOp Msg Coll) (RankOp.Res CRes) Ev (List (Part Msg N)) :=
  { handler N idle Ev i with exit := fun _ _ s => s = [] ∧ idle i (.recv source tag) }

/-- A program that leaves where it may is one that stays. -/
theorem wp_stay {i : Fin n} {Q : α → List (Part Msg N) → Prop} {p : RankProg Msg CRes Ev α} :
    ∀ {s}, wp (leaving source tag N idle Ev i) p Q s →
      wp (handler N idle Ev i) (stay source tag p) Q s := by
  induction p with
  | ret a => exact id
  | exit c msg => exact fun h => Or.inl h
  | fault => exact id
  | emit e k ih => exact fun h => ih h
  | malloc m k ih => exact fun h r hr => ih r (h r hr)
  | clock k ih => exact fun h t => ih t (h t)
  | io o k ih => exact (handler N idle Ev i).io_mono fun r s h => ih r h

/-- A program that may leave nowhere keeps to its script. -/
theorem keeps_of_leaving {i : Fin n} {Q : α → List (Part Msg N) → Prop}
    (hnot : ¬ idle i (.recv source tag)) {p : RankProg Msg CRes Ev α} :
    ∀ {s}, wp (leaving source tag N idle Ev i) p Q s → wp (handler N idle Ev i) p Q s := by
  induction p with
  | ret a => exact id
  | exit c msg => exact fun h => hnot h.2
  | fault => exact id
  | emit e k ih => exact fun h => ih h
  | malloc m k ih => exact fun h r hr => ih r (h r hr)
  | clock k ih => exact fun h t => ih t (h t)
  | io o k ih => exact (handler N idle Ev i).io_mono fun r s h => ih r h

/-- All ranks with that receive in place of leaving the process. -/
def Config.stay (c : Config n Msg CRes Ev α) : Config n Msg CRes Ev α where
  party i := { c.party i with prog := Choreo.stay source tag (c.party i).prog }
  mail := c.mail

theorem calls_stay (p : Party Msg CRes Ev α) :
    ({ p with prog := stay source tag p.prog } : Party Msg CRes Ev α).calls = p.calls := by
  obtain ⟨prog, issued, done⟩ := p
  show done ++ _ = done ++ _
  congr 1
  cases prog with
  | io o k => cases o <;> rfl
  | _ => rfl

theorem stay_set (c : Config n Msg CRes Ev α) (i : Fin n) (p : Party Msg CRes Ev α) :
    Config.stay source tag (c.set i p) =
      (Config.stay source tag c).set i { p with prog := stay source tag p.prog } := by
  simp only [Config.stay, Config.set, Config.mk.injEq, and_true]
  funext j
  by_cases hj : j = i
  · subst hj
    rw [Function.update_self, Function.update_self]
  · rw [Function.update_of_ne hj, Function.update_of_ne hj]

variable {source tag}

/-- Every step is possible there too. -/
theorem step_stay {c c' : Config n Msg CRes Ev α} (h : Step N c c') :
    Step N (Config.stay source tag c) (Config.stay source tag c') := by
  have hparty : ∀ {i : Fin n} {p : Party Msg CRes Ev α}, c.party i = p →
      (Config.stay source tag c).party i = { p with prog := stay source tag p.prog } :=
    fun hp => by rw [← hp]; rfl
  cases h with
  | emit hp => exact stay_set source tag c _ _ ▸ .emit (hparty hp)
  | malloc hp hlen => exact stay_set source tag c _ _ ▸ .malloc (hparty hp) hlen
  | clock t hp => exact stay_set source tag c _ _ ▸ .clock t (hparty hp)
  | issue hp =>
    show Step N _ (Config.post (Config.stay source tag (c.set _ _)) _ _ _)
    rw [stay_set]
    exact .issue (hparty hp)
  | sent hp hroom => exact stay_set source tag c _ _ ▸ .sent (hparty hp) hroom
  | recv hp hmail hbefore =>
    show Step N _ (Config.post (Config.stay source tag (c.set _ _)) _ _ _)
    rw [stay_set]
    exact .recv (hparty hp) hmail hbefore
  | @coll i o k l ops r hp hops hcomplete =>
    rw [stay_set]
    exact .coll (hparty hp) (fun j => by
      show ({ c.party j with prog := _ } : Party Msg CRes Ev α).calls[l.length]? = _
      rw [calls_stay, hops j]) hcomplete

theorem steps_stay {c c' : Config n Msg CRes Ev α} (h : Steps N c c') :
    Steps N (Config.stay source tag c) (Config.stay source tag c') := by
  induction h with
  | refl => exact .refl
  | tail _ hstep ih => exact ih.tail (step_stay hstep)

/-- A step is that of a rank that has not returned. -/
theorem not_returned {c c' : Config n Msg CRes Ev α} (h : Step N c c') :
    ∃ i, ∀ a, ¬ (c.party i).Returned a := by
  have hne : ∀ {i : Fin n} {p : Party Msg CRes Ev α}, c.party i = p → (∀ a, p.prog ≠ .ret a) →
      ∃ i, ∀ a, ¬ (c.party i).Returned a :=
    fun hp hprog => ⟨_, fun a ha => hprog a (hp ▸ ha)⟩
  cases h with
  | emit hp => exact hne hp nofun
  | malloc hp => exact hne hp nofun
  | clock t hp => exact hne hp nofun
  | issue hp => exact hne hp nofun
  | sent hp => exact hne hp nofun
  | recv hp => exact hne hp nofun
  | coll hp => exact hne hp nofun

/-- **Where all ranks return**, although some may leave the process instead: they have kept to the
    script to its end. -/
theorem all_returned (hidle : idle.Blocked)
    (h : ∀ i, wp (leaving source tag N idle Ev i) (prog i) (fun a s => s = [] ∧ Post i a)
      (script σ i)) {c : Config n Msg CRes Ev α} (hc : Steps N (Config.start prog) c)
    (hall : ∀ i, ∃ a, (c.party i).Returned a) (i : Fin n) :
    ∃ a, (c.party i).Returned a ∧ Post i a := by
  have hret : ∀ {j a}, (c.party j).Returned a →
      ((Config.stay source tag c).party j).prog = .ret a := by
    intro j a ha
    show stay source tag (c.party j).prog = _
    rw [show (c.party j).prog = .ret a from ha]
    rfl
  -- nothing is left to do
  have hstuck : Stuck N (Config.stay source tag c) := by
    intro c' hstep
    obtain ⟨j, hj⟩ := not_returned hstep
    obtain ⟨a, ha⟩ := hall j
    exact hj a (hret ha)
  obtain ⟨a, ha⟩ := hall i
  rcases ends hidle (fun j => wp_stay source tag (h j)) (steps_stay hc) hstuck i with
    ⟨b, hb, hpost⟩ | ⟨o, k, hp, -⟩
  · obtain rfl : a = b := Proc.ret.inj ((hret ha).symm.trans hb)
    exact ⟨a, ha, hpost⟩
  · cases (hret ha).symm.trans hp

end leaving

end Choreo
