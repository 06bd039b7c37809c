/-
  `lapi.c`: size and repeat count through one word of memory, with a counter.

  `SendRepeat` puts its value into `npRepeat` of the other task, whose target counter goes up, and
  waits until its own variable may be used again; `RecvRepeat` polls the counter, reads `npRepeat`
  and takes one off.  The counter says how many values have come, and not which one is there.

  1. **The functions**, as programs of `Lib.Counted`, for any number of values.

  2. **Where a run is**: the task that sends (`Sender`), the one that receives (`Receiver`), and
     both together with the values under way (`Flow`).  Each task has a lemma on what it can do by
     itself and one that it can go on; `Flow.step` and `Flow.stuck` are assembled from them.

  3. **The word is the register** of `Lib.Slot`, written in the order in which the values arrive,
     which on an unordered network need not be that in which they were sent.  The load-bearing
     field is the count in `Receiver`: what is on the counter, stored but not counted and taken off
     is what has been stored, so no value is read before there is one to read.  Conversely each run
     of the register is one of the two tasks (`exists_run`).

  4. **Both together** (`header_exact`): no deadlock, and exactly the late values can be received.
-/
import Mathlib.Data.List.ReduceOption
import NetPipe.Lib.Counted
import NetPipe.Lib.Slot

namespace NetPipe.Lapi

open Counted
open scoped OneSided

/-! ## The functions -/

/-- The words of a task: the argument of `SendRepeat`, and what the other task puts to. -/
inductive Var where
  | rpt
  | npRepeat
  deriving DecidableEq, Repr

abbrev Code := List (Instr Var UInt32)

/-- `SendRepeat(p, rpt)`. -/
def sendRepeat (rpt : UInt32) : Code :=
  [.store .rpt rpt, .put [(.rpt, .npRepeat)], .waitOrigin]

/-- `RecvRepeat(p, rpt)`. -/
def recvRepeat : Code := [.poll, .read .npRepeat, .waitTarget]

/-- Task 0 sends these values one after the other, task 1 receives as many; what memory holds
    before is arbitrary. -/
def start (mem : Fin 2 → Var → UInt32) (sent : List UInt32) : Config Var UInt32 :=
  ![.start (mem 0) (sent.flatMap sendRepeat),
    .start (mem 1) (List.replicate sent.length recvRepeat).flatten]

/-! ## The task that sends -/

/-- Where task 0 is: `out` are the values that have left it. -/
inductive Sending (sent out : List UInt32) (p : Pe Var UInt32) : Prop where
  | call (rest : List UInt32) : p.todo = rest.flatMap sendRepeat → p.leaving = [] →
      p.origin = 0 → sent = out ++ rest → Sending sent out p
  | set (v : UInt32) (rest : List UInt32) :
      p.todo = .put [(.rpt, .npRepeat)] :: .waitOrigin :: rest.flatMap sendRepeat →
      p.leaving = [] → p.origin = 0 → p.mem .rpt = v → sent = out ++ v :: rest →
      Sending sent out p
  | issued (v : UInt32) (rest : List UInt32) : p.todo = .waitOrigin :: rest.flatMap sendRepeat →
      p.leaving = [[(.rpt, .npRepeat)]] → p.origin = 0 → p.mem .rpt = v →
      sent = out ++ v :: rest → Sending sent out p
  | departed (rest : List UInt32) : p.todo = .waitOrigin :: rest.flatMap sendRepeat →
      p.leaving = [] → p.origin = 1 → sent = out ++ rest → Sending sent out p

/-- And nothing is on the way to it. -/
structure Sender (sent out : List UInt32) (p : Pe Var UInt32) : Prop where
  sending : Sending sent out p
  inbox : p.inbox = []

section sender

variable {ordered : Bool} {sent out : List UInt32} {p p' : Pe Var UInt32}

/-- What it does itself. -/
theorem Sender.own (h : Sender sent out p) (hs : Own ordered p p') : Sender sent out p' := by
  obtain ⟨hsending, hinbox⟩ := h
  cases hsending with
  | call rest htodo hleaving horigin heq =>
    cases rest with
    | nil => cases hs <;> simp_all
    | cons v rest =>
      cases hs with
      | store h =>
        rw [htodo, List.flatMap_cons, sendRepeat] at h
        cases h
        have hmem : Function.update p.mem .rpt v .rpt = v := Function.update_self ..
        exact ⟨.set v rest rfl hleaving horigin hmem heq, hinbox⟩
      | _ => simp_all [sendRepeat]
  | set v rest htodo hleaving horigin hmem heq =>
    cases hs with
    | put h =>
      rw [htodo] at h
      cases h
      exact ⟨.issued v rest rfl (by rw [hleaving]; rfl) horigin hmem heq, hinbox⟩
    | _ => simp_all
  | issued v rest htodo hleaving horigin hmem heq => cases hs <;> simp_all
  | departed rest htodo hleaving horigin heq =>
    cases hs with
    | waitOrigin h hn =>
      rw [htodo] at h
      cases h
      exact ⟨.call rest rfl hleaving (Nat.succ.inj (hn.symm.trans horigin)) heq, hinbox⟩
    | _ => simp_all

/-- A value leaves it. -/
theorem Sender.depart (h : Sender sent out p) {before behind : List (List (Var × Var))}
    {ws : List (Var × Var)} (hleaving : p.leaving = before ++ ws :: behind) :
    ∃ v, p.payload ws = [(.npRepeat, v)] ∧
      Sender sent (out ++ [v]) { p with leaving := before ++ behind, origin := p.origin + 1 } := by
  obtain ⟨hsending, hinbox⟩ := h
  cases hsending with
  | issued v rest htodo hleaving' horigin hmem heq =>
    rw [hleaving'] at hleaving
    cases before with
    | nil =>
      cases hleaving
      refine ⟨v, by rw [← hmem]; rfl, .departed rest htodo rfl (by rw [horigin]) ?_, hinbox⟩
      rw [heq, List.append_cons]
    | cons => simp at hleaving
  | _ => simp_all

/-- Unless it is done it can do something. -/
theorem Sender.progress (ordered : Bool) (h : Sender sent out p) :
    (∃ p', Own ordered p p') ∨ (∃ ws, p.leaving = [ws]) ∨ p.todo = [] ∧ out = sent := by
  obtain ⟨hsending, -⟩ := h
  cases hsending with
  | call rest htodo _ _ heq =>
    cases rest with
    | nil => exact Or.inr (Or.inr ⟨htodo, by rw [heq, List.append_nil]⟩)
    | cons v rest => exact Or.inl ⟨_, .store htodo⟩
  | set v rest htodo => exact Or.inl ⟨_, .put htodo⟩
  | issued v rest _ hleaving => exact Or.inr (Or.inl ⟨_, hleaving⟩)
  | departed rest htodo _ horigin => exact Or.inl ⟨_, .waitOrigin htodo horigin⟩

end sender

/-! ## The task that receives -/

/-- Where task 1 is: `done` values have been received and taken off its counter. -/
inductive Receiving (n : Nat) (p : Pe Var UInt32) (done : Nat) : Prop where
  | poll (m : Nat) : p.todo = (List.replicate m recvRepeat).flatten → p.got.length + m = n →
      done = p.got.length → Receiving n p done
  | read (m : Nat) :
      p.todo = .read .npRepeat :: .waitTarget :: (List.replicate m recvRepeat).flatten →
      p.got.length + m + 1 = n → done = p.got.length → 0 < p.target → Receiving n p done
  | wait (m : Nat) : p.todo = .waitTarget :: (List.replicate m recvRepeat).flatten →
      p.got.length + m = n → done + 1 = p.got.length → 0 < p.target → Receiving n p done

/-- A value on its way to the task, or one that has been stored and not counted yet. -/
def parcel (e : Option UInt32) : List (Var × UInt32) := e.toList.map fun v => (.npRepeat, v)

/-- And what is on the way to it: `written` are the values stored, in this order. -/
structure Receiver (n : Nat) (written : List UInt32) (es : List (Option UInt32))
    (p : Pe Var UInt32) : Prop where
  receiving : ∃ done, Receiving n p done ∧ p.target + es.count none + done = written.length
  leaving : p.leaving = []
  inbox : p.inbox = es.map parcel
  mem : ∀ v, written.getLast? = some v → p.mem .npRepeat = v
  register : Slot.Steps ([], []) (written, p.got)

section receiver

variable {ordered : Bool} {n : Nat} {written : List UInt32} {es : List (Option UInt32)}
  {p p' : Pe Var UInt32}

theorem Receiving.congr {done : Nat} (h : Receiving n p done) (htodo : p'.todo = p.todo)
    (hgot : p'.got = p.got) (htarget : p.target ≤ p'.target) : Receiving n p' done := by
  cases h with
  | poll m h hm hdone => exact .poll m (htodo.trans h) (hgot ▸ hm) (hgot ▸ hdone)
  | read m h hm hdone hpos =>
    exact .read m (htodo.trans h) (hgot ▸ hm) (hgot ▸ hdone) (hpos.trans_le htarget)
  | wait m h hm hdone hpos =>
    exact .wait m (htodo.trans h) (hgot ▸ hm) (hgot ▸ hdone) (hpos.trans_le htarget)

/-- A word of what is on the way: it is the value of one that has not been stored. -/
theorem inbox_word {before behind : List (List (Var × UInt32))} {w₁ w₂ : List (Var × UInt32)}
    {l : Var} {v : UInt32} (h : es.map parcel = before ++ (w₁ ++ (l, v) :: w₂) :: behind) :
    ∃ eb ea, es = eb ++ some v :: ea ∧ eb.map parcel = before ∧ ea.map parcel = behind ∧
      l = .npRepeat ∧ w₁ ++ w₂ = [] := by
  obtain ⟨eb, rest, rfl, rfl, hrest⟩ := List.map_eq_append_iff.mp h
  obtain ⟨e, ea, rfl, he, rfl⟩ := List.map_eq_cons_iff.mp hrest
  cases e with
  | none => simp [parcel] at he
  | some u =>
    cases w₁ with
    | nil =>
      cases he
      exact ⟨eb, ea, rfl, rfl, rfl, rfl, rfl⟩
    | cons w w₁ => simp [parcel] at he

/-- One that has been stored. -/
theorem inbox_nil {before behind : List (List (Var × UInt32))}
    (h : es.map parcel = before ++ [] :: behind) :
    ∃ eb ea, es = eb ++ none :: ea ∧ eb.map parcel = before ∧ ea.map parcel = behind := by
  obtain ⟨eb, rest, rfl, rfl, hrest⟩ := List.map_eq_append_iff.mp h
  obtain ⟨e, ea, rfl, he, rfl⟩ := List.map_eq_cons_iff.mp hrest
  cases e with
  | none => exact ⟨eb, ea, rfl, rfl, rfl⟩
  | some u => simp [parcel] at he

/-- The first one on the way is a value. -/
theorem inbox_first {v : UInt32} {es : List (Option UInt32)}
    (h : p.inbox = (some v :: es).map parcel) :
    p.inbox = [(.npRepeat, v)] :: es.map parcel := h

/-- The next instruction is one of its own. -/
theorem Receiving.head {done : Nat} (h : Receiving n p done) {i : Instr Var UInt32} {rest : Code}
    (hi : p.todo = i :: rest) : i ∈ recvRepeat := by
  cases h with
  | poll m h =>
    cases m with
    | zero => simp_all
    | succ m =>
      rw [h, List.replicate_succ] at hi
      cases hi
      exact List.mem_cons_self
  | read m h =>
    rw [h] at hi
    cases hi
    simp [recvRepeat]
  | wait m h =>
    rw [h] at hi
    cases hi
    simp [recvRepeat]

/-- A value on the way is stored. -/
theorem Receiver.word {eb ea : List (Option UInt32)} {v : UInt32}
    (h : Receiver n written (eb ++ some v :: ea) p) :
    Receiver n (written ++ [v]) (eb ++ none :: ea) { p with
      mem := Function.update p.mem .npRepeat v
      inbox := eb.map parcel ++ [] :: ea.map parcel } := by
  obtain ⟨⟨done, hreceiving, hcount⟩, hleaving, -, -, hregister⟩ := h
  refine ⟨⟨done, hreceiving.congr rfl rfl le_rfl, ?_⟩, hleaving, ?_, ?_, hregister.tail .write⟩
  · rw [List.count_append, List.count_cons_of_ne (by simp)] at hcount
    rw [List.count_append, List.count_cons_self, List.length_append, List.length_singleton]
    simp only
    omega
  · rw [List.map_append, List.map_cons]
    rfl
  · intro u hu
    rw [List.getLast?_concat] at hu
    cases hu
    exact Function.update_self (Var.npRepeat) v p.mem

/-- And counted. -/
theorem Receiver.count {eb ea : List (Option UInt32)}
    (h : Receiver n written (eb ++ none :: ea) p) :
    Receiver n written (eb ++ ea) { p with
      inbox := eb.map parcel ++ ea.map parcel, target := p.target + 1 } := by
  obtain ⟨⟨done, hreceiving, hcount⟩, hleaving, -, hmem, hregister⟩ := h
  refine ⟨⟨done, hreceiving.congr rfl rfl (Nat.le_succ _), ?_⟩, hleaving, List.map_append.symm,
    hmem, hregister⟩
  rw [List.count_append, List.count_cons_self] at hcount
  rw [List.count_append]
  simp only
  omega

/-- The value in memory is handed to the caller: more have been stored than read. -/
theorem Receiver.read {m done : Nat} (h : Receiver n written es p)
    (hm : p.got.length + m + 1 = n) (hdone : done = p.got.length) (hpos : 0 < p.target)
    (hcount : p.target + es.count none + done = written.length) :
    Receiver n written es { p with
      todo := .waitTarget :: (List.replicate m recvRepeat).flatten
      got := p.got ++ [p.mem .npRepeat] } := by
  obtain ⟨-, hleaving, hinbox, hmem, hregister⟩ := h
  obtain rfl | ⟨init, v, rfl⟩ := written.eq_nil_or_concat
  · simp only [List.length_nil] at hcount
    omega
  rw [List.concat_eq_append] at hcount hmem hregister ⊢
  have hv : p.mem .npRepeat = v := hmem v List.getLast?_concat
  rw [List.length_append, List.length_singleton] at hcount
  refine ⟨⟨done, .wait m rfl ?_ ?_ hpos, by simpa using hcount⟩, hleaving, hinbox, hmem, ?_⟩
  · simp only [List.length_append, List.length_singleton]
    omega
  · simp only [List.length_append, List.length_singleton]
    omega
  · rw [hv]
    exact hregister.tail (.read (by omega))

/-- What it does itself: a value on the way may be stored. -/
theorem Receiver.own (h : Receiver n written es p) (hs : Own ordered p p') :
    (∃ es', es'.reduceOption = es.reduceOption ∧ Receiver n written es' p') ∨
      ∃ before v behind, es.reduceOption = before ++ v :: behind ∧
        (ordered = true → before = []) ∧
        ∃ es', es'.reduceOption = before ++ behind ∧ Receiver n (written ++ [v]) es' p' := by
  obtain ⟨done, hreceiving, hcount⟩ := h.receiving
  cases hs with
  | store hi | put hi | waitOrigin hi => simpa [recvRepeat] using hreceiving.head hi
  | poll hi hpos =>
    cases hreceiving with
    | read m htodo | wait m htodo => simp_all
    | poll m htodo hm hdone =>
      cases m with
      | zero => simp_all
      | succ m =>
        rw [htodo, List.replicate_succ] at hi
        cases hi
        refine Or.inl ⟨es, rfl, ⟨done, ?_, hcount⟩, h.leaving, h.inbox, h.mem, h.register⟩
        exact .read m rfl (by simp only; omega) hdone hpos
  | read hi =>
    cases hreceiving with
    | poll m htodo => cases m <;> simp_all [recvRepeat, List.replicate_succ]
    | wait m htodo => simp_all
    | read m htodo hm hdone hpos =>
      rw [htodo] at hi
      cases hi
      exact Or.inl ⟨es, rfl, h.read hm hdone hpos hcount⟩
  | waitTarget hi htarget =>
    cases hreceiving with
    | poll m htodo => cases m <;> simp_all [recvRepeat, List.replicate_succ]
    | read m htodo => simp_all
    | wait m htodo hm hdone hpos =>
      rw [htodo] at hi
      cases hi
      refine Or.inl ⟨es, rfl, ⟨done + 1, .poll m rfl hm hdone, ?_⟩, h.leaving, h.inbox, h.mem,
        h.register⟩
      simp only
      omega
  | @word before w₁ l v w₂ behind hi hfirst =>
    obtain ⟨eb, ea, rfl, rfl, rfl, rfl, hw⟩ := inbox_word (h.inbox.symm.trans hi)
    refine Or.inr ⟨eb.reduceOption, v, ea.reduceOption, ?_, ?_, eb ++ none :: ea, ?_, hw ▸ h.word⟩
    · rw [List.reduceOption_append, List.reduceOption_cons_of_some]
    · intro hordered
      rw [List.map_eq_nil_iff.mp (hfirst hordered), List.reduceOption_nil]
    · rw [List.reduceOption_append, List.reduceOption_cons_of_none]
  | count hi hfirst =>
    obtain ⟨eb, ea, rfl, rfl, rfl⟩ := inbox_nil (h.inbox.symm.trans hi)
    refine Or.inl ⟨eb ++ ea, ?_, h.count⟩
    rw [List.reduceOption_append, List.reduceOption_append, List.reduceOption_cons_of_none]

/-- One more value on the way to it. -/
theorem Receiver.deliver (h : Receiver n written es p) (v : UInt32) :
    Receiver n written (es ++ [some v]) { p with inbox := p.inbox ++ [[(.npRepeat, v)]] } := by
  obtain ⟨⟨done, hreceiving, hcount⟩, hleaving, hinbox, hmem, hregister⟩ := h
  refine ⟨⟨done, hreceiving.congr rfl rfl le_rfl, ?_⟩, hleaving, ?_, hmem, hregister⟩
  · rwa [List.count_append, List.count_singleton, if_neg (by simp)]
  · rw [hinbox, List.map_append]
    rfl

/-- Unless it is done, or waits for a value with none on the way, it can do something. -/
theorem Receiver.progress (h : Receiver n written es p) (hs : ∀ p', ¬ Own ordered p p') :
    es = [] ∧ (p.todo = [] ∨ p.got.length < n ∧ p.got.length = written.length) := by
  obtain ⟨⟨done, hreceiving, hcount⟩, -, hinbox, -, -⟩ := h
  have hes : es = [] := by
    cases es with
    | nil => rfl
    | cons e es =>
      cases e with
      | none => exact absurd (.count_first hinbox) (hs _)
      | some v => exact absurd (.word_first (inbox_first hinbox)) (hs _)
  refine ⟨hes, ?_⟩
  rw [hes, List.count_nil] at hcount
  cases hreceiving with
  | poll m htodo hm hdone =>
    cases m with
    | zero => exact Or.inl htodo
    | succ m =>
      rcases Nat.eq_zero_or_pos p.target with h0 | hpos
      · exact Or.inr ⟨by omega, by omega⟩
      · exact absurd (.poll htodo hpos) (hs _)
  | read m htodo => exact absurd (.read htodo) (hs _)
  | wait m htodo hm hdone hpos =>
    exact absurd (.waitTarget htodo (Nat.succ_pred_eq_of_pos hpos).symm) (hs _)

end receiver

/-! ## Both tasks -/

/-- The values `w` are the values `u`, in an order in which they may arrive. -/
def Arrives (ordered : Bool) (u w : List UInt32) : Prop := if ordered then u = w else u.Perm w

section arrives

variable {ordered : Bool} {u w : List UInt32}

theorem Arrives.perm (h : Arrives ordered u w) : u.Perm w := by
  cases ordered with
  | true => exact List.Perm.of_eq h
  | false => exact h

theorem Arrives.append (h : Arrives ordered u w) (v : UInt32) :
    Arrives ordered (u ++ [v]) (w ++ [v]) := by
  cases ordered with
  | true => exact congrArg (· ++ [v]) h
  | false => exact List.Perm.append_right [v] h

/-- A value under way moves to those that have been stored. -/
theorem arrives_move {before behind : List UInt32} {v : UInt32}
    (hfirst : ordered = true → before = []) :
    Arrives ordered u (w ++ (before ++ v :: behind)) ↔
      Arrives ordered u (w ++ [v] ++ (before ++ behind)) := by
  cases ordered with
  | true =>
    rw [hfirst rfl, List.nil_append, List.nil_append, List.append_assoc]
    rfl
  | false =>
    have hperm : (w ++ (before ++ v :: behind)).Perm (w ++ [v] ++ (before ++ behind)) := by
      rw [List.append_assoc]
      exact List.Perm.append_left w List.perm_middle
    exact ⟨fun h => h.trans hperm, fun h => h.trans hperm.symm⟩

end arrives

/-- **The invariant**: what has left task 0 has been stored or is on the way to task 1.  In which
    order it is stored is up to the network; on an ordered one it is that in which it has left. -/
structure Flow (ordered : Bool) (sent out written : List UInt32) (es : List (Option UInt32))
    (c : Config Var UInt32) : Prop where
  sender : Sender sent out (c 0)
  receiver : Receiver sent.length written es (c 1)
  order : Arrives ordered out (written ++ es.reduceOption)

section flow

variable {ordered : Bool} {sent out written : List UInt32} {es : List (Option UInt32)}
  {c c' : Config Var UInt32}

theorem flow_start (ordered : Bool) (mem : Fin 2 → Var → UInt32) (sent : List UInt32) :
    Flow ordered sent [] [] [] (start mem sent) where
  sender := ⟨.call sent rfl rfl rfl rfl, rfl⟩
  receiver := ⟨⟨0, .poll sent.length rfl (Nat.zero_add _) rfl, rfl⟩, rfl, rfl, nofun, .refl⟩
  order := by
    cases ordered with
    | true => rfl
    | false => exact .nil

/-- **Step lemma**, by the task at which it happens. -/
theorem Flow.step (h : Flow ordered sent out written es c) (hs : Step ordered c c') :
    ∃ out written es, Flow ordered sent out written es c' := by
  obtain ⟨hsender, hreceiver, horder⟩ := h
  cases hs with
  | @own x p' hs =>
    rcases show x = 0 ∨ x = 1 by omega with rfl | rfl
    · exact ⟨out, written, es, hsender.own hs, hreceiver, horder⟩
    · rcases hreceiver.own hs with ⟨es', heq, h⟩ | ⟨before, v, behind, heq, hfirst, es', heq', h⟩
      · exact ⟨out, written, es', hsender, h, heq ▸ horder⟩
      · refine ⟨out, written ++ [v], es', hsender, h, ?_⟩
        rw [heq, arrives_move hfirst] at horder
        rwa [heq']
  | @depart x before ws behind hleaving _ =>
    rcases show x = 0 ∨ x = 1 by omega with rfl | rfl
    · obtain ⟨v, hpayload, hsender'⟩ := hsender.depart hleaving
      refine ⟨out ++ [v], written, es ++ [some v], hsender', ?_, ?_⟩
      · have hdeliver := hreceiver.deliver v
        rw [← hpayload] at hdeliver
        exact hdeliver
      · rw [List.reduceOption_append, List.reduceOption_singleton, ← List.append_assoc]
        exact horder.append v
    · simp [hreceiver.leaving] at hleaving

/-- **Run lemma.** -/
theorem Flow.steps (h : Flow ordered sent out written es c) (hs : Steps ordered c c') :
    ∃ out written es, Flow ordered sent out written es c' := by
  induction hs with
  | refl => exact ⟨out, written, es, h⟩
  | tail _ hstep ih =>
    obtain ⟨out, written, es, h⟩ := ih
    exact h.step hstep

/-- Where no step is possible, both tasks are done. -/
theorem Flow.stuck (h : Flow ordered sent out written es c) (hs : Stuck ordered c) :
    Finished c := by
  obtain ⟨hsender, hreceiver, horder⟩ := h
  rcases hsender.progress ordered with ⟨p', hp⟩ | ⟨ws, hws⟩ | ⟨htodo, rfl⟩
  · exact absurd (.own hp) (hs _)
  · obtain ⟨c', hc'⟩ := depart_first hws
    exact absurd hc' (hs c')
  · obtain ⟨rfl, hdone⟩ := hreceiver.progress fun p' hp => hs _ (.own hp)
    rw [List.reduceOption_nil, List.append_nil] at horder
    have hlen := horder.perm.length_eq
    rcases hdone with htodo' | ⟨hlt, heq⟩
    · intro x
      rcases show x = 0 ∨ x = 1 by omega with rfl | rfl
      · exact htodo
      · exact htodo'
    · omega

end flow

/-! ## Each run of the register is one of the tasks -/

section realise

variable {ordered : Bool} {sent : List UInt32}

/-- All values leave task 0 before anything else happens. -/
theorem exists_sent (ordered : Bool) (sent : List UInt32) : ∀ (p q : Pe Var UInt32),
    p.todo = sent.flatMap sendRepeat → p.leaving = [] → p.origin = 0 →
    ∃ p', p'.todo = [] ∧ Steps ordered ![p, q]
      ![p', { q with inbox := q.inbox ++ sent.map fun v => [(.npRepeat, v)] }] := by
  induction sent with
  | nil =>
    intro p q htodo _ _
    rw [List.map_nil, List.append_nil]
    exact ⟨p, htodo, .refl⟩
  | cons v sent ih =>
    intro p q htodo hleaving horigin
    rw [List.flatMap_cons, sendRepeat] at htodo
    obtain ⟨p', hdone, hrest⟩ := ih
      { p with
        mem := Function.update p.mem .rpt v
        todo := sent.flatMap sendRepeat, leaving := [], origin := 0 }
      { q with inbox := q.inbox ++ [[(.npRepeat, v)]] } rfl rfl rfl
    refine ⟨p', hdone, .head (Own.step_zero (.store htodo)) (.head (Own.step_zero (.put rfl))
      (.head (depart_zero (by rw [hleaving]; rfl))
        (.head (Own.step_zero (.waitOrigin rfl (by rw [horigin]))) ?_)))⟩
    have hv : Function.update p.mem .rpt v .rpt = v := Function.update_self ..
    simpa [Pe.payload, hv] using hrest

/-- Task 1 between two calls of `RecvRepeat`: `pend` are the values on the way, none of them
    stored. -/
structure Resting (n : Nat) (written pend got : List UInt32) (q : Pe Var UInt32) : Prop where
  todo : ∃ m, q.todo = (List.replicate m recvRepeat).flatten ∧ got.length + m = n
  handed : q.got = got
  target : q.target + got.length = written.length
  inbox : q.inbox = pend.map fun v => [(.npRepeat, v)]
  mem : ∀ v, written.getLast? = some v → q.mem .npRepeat = v

/-- A value is stored and counted. -/
theorem Resting.write {n : Nat} {written before behind got : List UInt32} {v : UInt32}
    {q : Pe Var UInt32} (h : Resting n written (before ++ v :: behind) got q)
    (hfirst : ordered = true → before = []) :
    ∃ q', Relation.ReflTransGen (Own ordered) q q' ∧
      Resting n (written ++ [v]) (before ++ behind) got q' := by
  have hinbox : q.inbox = before.map (fun v => [(Var.npRepeat, v)]) ++
      ([] ++ (.npRepeat, v) :: []) :: behind.map fun v => [(.npRepeat, v)] := by
    rw [h.inbox, List.map_append]
    rfl
  have hfirst' : ordered = true → before.map (fun v => [(Var.npRepeat, v)]) = [] := by
    intro hordered
    rw [hfirst hordered, List.map_nil]
  refine ⟨_, .head (.word hinbox hfirst') (.single (.count rfl hfirst')), h.todo, h.handed,
    ?_, List.map_append.symm, ?_⟩
  · have htarget := h.target
    rw [List.length_append, List.length_singleton]
    simp only
    omega
  · intro u hu
    rw [List.getLast?_concat] at hu
    cases hu
    exact Function.update_self (Var.npRepeat) v q.mem

/-- One call of `RecvRepeat`. -/
theorem Resting.read {n : Nat} {written pend got : List UInt32} {v : UInt32}
    {q : Pe Var UInt32} (h : Resting n (written ++ [v]) pend got q)
    (hle : got.length ≤ written.length) (hn : got.length < n) :
    ∃ q', Relation.ReflTransGen (Own ordered) q q' ∧
      Resting n (written ++ [v]) pend (got ++ [v]) q' := by
  obtain ⟨m, htodo, hm⟩ := h.todo
  have htarget := h.target
  rw [List.length_append, List.length_singleton] at htarget
  have hv : q.mem .npRepeat = v := h.mem v List.getLast?_concat
  obtain ⟨m, rfl⟩ : ∃ m', m = m' + 1 := ⟨m - 1, by omega⟩
  obtain ⟨t, ht⟩ : ∃ t, q.target = t + 1 := ⟨q.target - 1, by omega⟩
  rw [List.replicate_succ] at htodo
  refine ⟨_, .head (.poll htodo (by omega)) (.head (.read rfl) (.single (.waitTarget rfl ht))),
    ⟨m, rfl, ?_⟩, ?_, ?_, h.inbox, h.mem⟩
  · rw [List.length_append, List.length_singleton]
    omega
  · simp only [h.handed, hv]
  · rw [List.length_append, List.length_append, List.length_singleton]
    simp only
    omega

theorem Arrives.symm {u w : List UInt32} (h : Arrives ordered u w) : Arrives ordered w u := by
  cases ordered with
  | true => exact Eq.symm h
  | false => exact List.Perm.symm h

/-- The first of the values to come is one of those under way, and in an ordered network the first
    of them. -/
theorem Arrives.cons {v : UInt32} {more pend : List UInt32} (h : Arrives ordered (v :: more) pend) :
    ∃ before behind, pend = before ++ v :: behind ∧ (ordered = true → before = []) ∧
      Arrives ordered more (before ++ behind) := by
  cases ordered with
  | true => exact ⟨[], more, Eq.symm h, fun _ => rfl, rfl⟩
  | false =>
    have hperm : (v :: more).Perm pend := h
    obtain ⟨before, behind, rfl⟩ := List.append_of_mem (hperm.subset List.mem_cons_self)
    exact ⟨before, behind, rfl, nofun, (hperm.trans List.perm_middle).cons_inv⟩

/-- **Any steps of the register** are steps of task 1, once everything is under way. -/
theorem exists_register {n : Nat} {q : Pe Var UInt32} (hq : Resting n [] sent [] q)
    {s : List UInt32 × List UInt32} (h : Slot.Steps ([], []) s) :
    ∀ {more : List UInt32}, Arrives ordered sent (s.1 ++ more) → s.2.length ≤ n →
      ∃ pend q', Arrives ordered more pend ∧ Relation.ReflTransGen (Own ordered) q q' ∧
        Resting n s.1 pend s.2 q' := by
  induction h with
  | refl => exact fun h _ => ⟨sent, q, h.symm, .refl, hq⟩
  | tail _ hstep ih =>
    intro more hmore hn
    cases hstep with
    | @write written got v =>
      rw [List.append_assoc] at hmore
      obtain ⟨pend, q₁, hpend, hq₁, hrest₁⟩ := ih hmore hn
      obtain ⟨before, behind, rfl, hfirst, hbehind⟩ := Arrives.cons hpend
      obtain ⟨q₂, hq₂, hrest₂⟩ := hrest₁.write hfirst
      exact ⟨before ++ behind, q₂, hbehind, hq₁.trans hq₂, hrest₂⟩
    | @read written got v hle =>
      rw [List.length_append, List.length_singleton] at hn
      obtain ⟨pend, q₁, hpend, hq₁, hrest₁⟩ := ih hmore (by simp only; omega)
      obtain ⟨q₂, hq₂, hrest₂⟩ := hrest₁.read hle hn
      exact ⟨pend, q₂, hpend, hq₁.trans hq₂, hrest₂⟩

/-- **Each late reading** is what some run comes to: task 0 sends everything first, and task 1
    follows the register. -/
theorem exists_run (mem : Fin 2 → Var → UInt32) {written got : List UInt32}
    (hwritten : Arrives ordered sent written) (hlate : Slot.Late written got)
    (hlen : got.length = sent.length) :
    ∃ c, Steps ordered (start mem sent) c ∧ Finished c ∧ (c 1).got = got := by
  obtain ⟨p, hp, hsent⟩ := exists_sent ordered sent
    (.start (mem 0) (sent.flatMap sendRepeat))
    (.start (mem 1) (List.replicate sent.length recvRepeat).flatten) rfl rfl rfl
  have hrest : Resting sent.length [] sent [] { Pe.start (mem 1)
      (List.replicate sent.length recvRepeat).flatten with
        inbox := [] ++ sent.map fun v => [(.npRepeat, v)] } :=
    ⟨⟨sent.length, rfl, Nat.zero_add _⟩, rfl, rfl, rfl, nofun⟩
  have hall : Arrives ordered sent (written ++ []) := by rwa [List.append_nil]
  obtain ⟨pend, q, -, hq, hrest'⟩ := exists_register hrest (Slot.steps_of_late hlate) hall hlen.le
  refine ⟨![p, q], hsent.trans (steps_one hq), fun x => ?_, hrest'.handed⟩
  rcases show x = 0 ∨ x = 1 by omega with rfl | rfl
  · exact hp
  · obtain ⟨m, htodo, hm⟩ := hrest'.todo
    have hlen' : got.length + m = sent.length := hm
    obtain rfl : m = 0 := by omega
    exact htodo

end realise

/-! ## Both together -/

section header

variable {ordered : Bool} {mem : Fin 2 → Var → UInt32} {sent got : List UInt32}

/-- Once both are done, everything has been sent and stored. -/
theorem Flow.finished {out written : List UInt32} {es : List (Option UInt32)}
    {c : Config Var UInt32} (h : Flow ordered sent out written es c) (hfin : Finished c) :
    (c 1).got.length = sent.length ∧ Arrives ordered sent written := by
  obtain ⟨⟨hsending, -⟩, ⟨⟨done, hreceiving, hcount⟩, -⟩, horder⟩ := h
  obtain rfl : out = sent := by
    cases hsending with
    | call rest htodo _ _ heq =>
      cases rest with
      | nil => rw [heq, List.append_nil]
      | cons v rest => cases htodo.symm.trans (hfin 0)
    | set v rest htodo | issued v rest htodo | departed rest htodo =>
      cases htodo.symm.trans (hfin 0)
  cases hreceiving with
  | read m htodo | wait m htodo => cases htodo.symm.trans (hfin 1)
  | poll m htodo hm hdone =>
    cases m with
    | succ m => cases htodo.symm.trans (hfin 1)
    | zero =>
      have hlen := horder.perm.length_eq
      rw [List.length_append] at hlen
      obtain hnil : es.reduceOption = [] := List.length_eq_zero_iff.mp (by omega)
      rw [hnil, List.append_nil] at horder
      exact ⟨hm, horder⟩

/-- What task 1 has received once both are done. -/
theorem received_iff : (∃ c, Steps ordered (start mem sent) c ∧ Finished c ∧ (c 1).got = got) ↔
    got.length = sent.length ∧ ∃ written, Arrives ordered sent written ∧ Slot.Late written got := by
  constructor
  · rintro ⟨c, hc, hfin, rfl⟩
    obtain ⟨out, written, es, h⟩ := (flow_start ordered mem sent).steps hc
    obtain ⟨hlen, hwritten⟩ := h.finished hfin
    exact ⟨hlen, written, hwritten, Slot.late_of_steps h.receiver.register⟩
  · rintro ⟨hlen, written, hwritten, hlate⟩
    exact exists_run mem hwritten hlate hlen

/-- **Values sent one after the other**, whatever the network does: every run comes to its end, and
    what task 1 then has received are the late readings of the values in an order in which they
    may arrive, and nothing else.  Of the size and the repeat count that `run_iters` sends it may
    take the second one for the first in an ordered network, too, so that both are right in every
    run where they are the same number only. -/
theorem header_exact (ordered : Bool) (mem : Fin 2 → Var → UInt32) (sent : List UInt32) :
    Completes ordered (start mem sent) (fun c => (c 1).got.length = sent.length) ∧
    (∀ got, (∃ c, Steps ordered (start mem sent) c ∧ Finished c ∧ (c 1).got = got) ↔
      got.length = sent.length ∧ ∃ written, Arrives ordered sent written ∧
        Slot.Late written got) ∧
    ∀ size nrepeat, sent = [size, nrepeat] →
      ((∀ c, Steps ordered (start mem sent) c → Finished c → (c 1).got = sent) ↔
        size = nrepeat) := by
  refine ⟨.of_stuck fun c hc hstuck => ?_, fun got => received_iff, ?_⟩
  · obtain ⟨out, written, es, h⟩ := (flow_start ordered mem sent).steps hc
    exact ⟨h.stuck hstuck, (h.finished (h.stuck hstuck)).1⟩
  · rintro size nrepeat rfl
    constructor
    · intro hall
      have hlate : Slot.Late [size, nrepeat] [nrepeat, nrepeat] :=
        Slot.late_pair_iff.mpr ⟨Or.inr rfl, rfl⟩
      have harrives : Arrives ordered [size, nrepeat] [size, nrepeat] := by
        cases ordered with
        | true => rfl
        | false => exact .refl _
      obtain ⟨c, hc, hfin, hgot⟩ : ∃ c, Steps ordered (start mem [size, nrepeat]) c ∧ Finished c ∧
          (c 1).got = [nrepeat, nrepeat] := received_iff.mpr ⟨rfl, _, harrives, hlate⟩
      have heq := hgot.symm.trans (hall c hc hfin)
      exact ((List.cons.inj heq).1).symm
    · rintro rfl c hc hfin
      obtain ⟨hlen, written, harrives, hlate⟩ := received_iff.mp ⟨c, hc, hfin, rfl⟩
      have hwritten : written = [size, size] :=
        List.perm_replicate (n := 2) (a := size) |>.mp harrives.perm.symm
      rw [hwritten] at hlate
      obtain ⟨x, y, hxy⟩ := List.length_eq_two.mp hlen
      rw [hxy] at hlate ⊢
      obtain ⟨hx | hx, hy⟩ := Slot.late_pair_iff.mp hlate
      · rw [hx, hy]
      · rw [hx, hy]

end header

end NetPipe.Lapi
