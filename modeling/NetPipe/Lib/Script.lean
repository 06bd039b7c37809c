/-
  Scripts: what each of two stream-connected parties is going to do, byte by byte.

  A party's script is the list of acts it still has to log: the bytes it puts, the bytes it gets
  (which ones, and by which of its calls) and the events it emits.  `scriptHandler` turns "the
  program keeps to its script, whatever the sizes of its reads and writes" into a `wp`, so that
  programs are checked against scripts one call at a time and in isolation.  The two scripts
  together, and what is left over of them, are a `Plan`.

  1. **Safety** (`Inv`, `Inv.step`, `Inv.steps`).  If the two full scripts balance — each stream's
     bytes are put by one side in the order the other gets them — then in every reachable
     configuration each log is a prefix of its script, and each stream holds exactly the bytes put
     and not yet got.  No ranks, no capacities.  The load-bearing step is that of one party
     (`PStep.fits`): a read finds in the stream the very bytes the script expects there, because
     what is in the stream and what the other side will still put is what this side will still get.

  2. **Progress** (`Plan.Timely`, `Inv.stuck_done`).  Give every byte a rank such that along a
     script ranks do not decrease and a byte put after one got has a larger rank.  Two parties that
     both wait to read would need each other's ranks to be smaller (`Inv.read_lt`); two parties that
     both wait for room can only be at equal ranks, where the streams are assumed wide enough
     (`Inv.not_both_full`).  So a configuration without a step has both scripts exhausted.

  A party may also be left in a read for ever (`Plan.waits`), and bytes may be left in a stream
  that nobody reads (`Plan.tail`); for the order they count as read at the end (`Plan.whole`), so
  that the argument is the same one.
-/
import NetPipe.Lib.Duplex

namespace Duplex

open Process

variable {π σ Ev α : Type}

/-! ## Programs that keep to a script -/

/-- A write of `bs` is next in the script, and the program goes on well after every count it may
    be told. -/
def WriteOk (D : Discipline σ) (site : σ) (bs : List UInt8) (s : π × List (Act π σ Ev))
    (Q : Option Nat → π × List (Act π σ Ev) → Prop) : Prop :=
  ∃ rest, s.2 = (stamped ⟨s.1, site⟩ bs).map .put ++ rest ∧ Q (some bs.length) (s.1, rest) ∧
    (D.short site → ∀ j, 0 < j → j < bs.length →
      Q (some j) (s.1, (stamped ⟨s.1, site⟩ (bs.drop j)).map .put ++ rest))

/-- The next `n` acts of the script are bytes got by this call, and the program goes on well
    after any positive number of them — or the script is over and the call may wait for ever. -/
def ReadOk (waits : Stamp π σ → Prop) (site : σ) (n : Nat) (s : π × List (Act π σ Ev))
    (Q : Option (List UInt8) → π × List (Act π σ Ev) → Prop) : Prop :=
  (s.2 = [] ∧ waits ⟨s.1, site⟩) ∨
  (0 < n ∧ ∃ (xs : List (Cell π σ)) (rest : List (Act π σ Ev)), xs.length = n ∧
    s.2 = xs.map (.got ⟨s.1, site⟩) ++ rest ∧
    ∀ j, 0 < j → j ≤ n →
      Q (some ((xs.take j).map Cell.byte)) (s.1, (xs.drop j).map (.got ⟨s.1, site⟩) ++ rest))

/-- The handler whose state is the position and the script still ahead. -/
def scriptHandler (D : Discipline σ) (adv : Ev → π → π) (waits : Stamp π σ → Prop) :
    Handler (StreamOp σ) StreamOp.Res Ev (π × List (Act π σ Ev)) where
  emit e s Q := ∃ rest, s.2 = .did s.1 e :: rest ∧ Q (adv e s.1, rest)
  alloc := D.alloc
  io
    | .write site bs, s, Q => WriteOk D site bs s Q
    | .read site n, s, Q => ReadOk waits site n s Q
  exit _ _ _ := D.allocFails
  fault _ := False
  emit_mono := by
    rintro e s Q Q' hQ ⟨rest, hs, h⟩
    exact ⟨rest, hs, hQ _ h⟩
  io_mono := by
    intro o s Q Q' hQ h
    cases o with
    | write site bs =>
      obtain ⟨rest, hs, h, hshort⟩ := h
      exact ⟨rest, hs, hQ _ _ h, fun hd j h0 hj => hQ _ _ (hshort hd j h0 hj)⟩
    | read site n =>
      rcases h with h | ⟨hn, xs, rest, hlen, hs, h⟩
      · exact Or.inl h
      · exact Or.inr ⟨hn, xs, rest, hlen, hs, fun j h0 hj => hQ _ _ (h j h0 hj)⟩

/-- The program keeps to the script and returns at its end, with `Post`. -/
abbrev Follows (D : Discipline σ) (adv : Ev → π → π) (waits : Stamp π σ → Prop) (Post : α → Prop)
    (p : Prog σ Ev α) : π × List (Act π σ Ev) → Prop :=
  wp (scriptHandler D adv waits) p fun a s => s.2 = [] ∧ Post a

/-- A party in the middle of its run keeps to the script: as `Follows`, with the bytes of the
    pending write that are already queued struck off. -/
def Fits (D : Discipline σ) (adv : Ev → π → π) (waits : Stamp π σ → Prop) (Post : α → Prop)
    (p : Party π σ Ev α) (s : List (Act π σ Ev)) : Prop :=
  match p.prog with
  | .io (.write site bs) k =>
    p.queued ≤ bs.length ∧
    ∃ rest, s = (stamped ⟨p.pos, site⟩ (bs.drop p.queued)).map .put ++ rest ∧
      Follows D adv waits Post (k (some bs.length)) (p.pos, rest) ∧
      (D.short site → ∀ j, 0 < j → j < bs.length →
        Follows D adv waits Post (k (some j))
          (p.pos, (stamped ⟨p.pos, site⟩ (bs.drop j)).map .put ++ rest))
  | prog => p.queued = 0 ∧ Follows D adv waits Post prog (p.pos, s)

section fits

variable {D : Discipline σ} {adv : Ev → π → π} {waits : Stamp π σ → Prop} {Post : α → Prop}

/-- A program about to issue its first call fits whatever it follows. -/
theorem Fits.of_follows {p : Prog σ Ev α} {pos : π} {l s : List (Act π σ Ev)}
    (h : Follows D adv waits Post p (pos, s)) : Fits D adv waits Post ⟨p, 0, pos, l⟩ s := by
  cases p with
  | io o k =>
    cases o with
    | write site bs =>
      obtain ⟨rest, hs, hfull, hshort⟩ := h
      exact ⟨Nat.zero_le _, rest, hs, hfull, hshort⟩
    | read site n => exact ⟨rfl, h⟩
  | _ => exact ⟨rfl, h⟩

/-- The bytes a move puts. -/
def Move.outs : Move π σ → List (Cell π σ)
  | .out xs => xs
  | _ => []

/-- The bytes a move takes. -/
def Move.inps : Move π σ → List (Cell π σ)
  | .inp xs => xs
  | _ => []

/-- **Step lemma for one party.**  A step strikes a prefix `l` off the script and appends it to
    the log.  For a read, the bytes present have to agree with the bytes the script expects (`u`
    and `v` are whatever comes later in the stream and in the script). -/
theorem PStep.fits {p p' : Party π σ Ev α} {m : Move π σ} {s : List (Act π σ Ev)}
    (h : PStep D adv p m p') (hf : Fits D adv waits Post p s) {u v : List (Cell π σ)}
    (hin : m.inps ++ u = gots s ++ v) (hv : (∃ st, waits st) → v = []) :
    ∃ l s', s = l ++ s' ∧ p'.log = p.log ++ l ∧ puts l = m.outs ∧ gots l = m.inps ∧
      Fits D adv waits Post p' s' := by
  cases h with
  | @emit e k p l =>
    obtain ⟨-, rest, hs, hk⟩ := hf
    exact ⟨[.did p e], rest, hs, rfl, rfl, rfl, .of_follows hk⟩
  | @malloc n k p l r hr => exact ⟨[], s, rfl, by simp, rfl, rfl, .of_follows (hf.2 r hr)⟩
  | clock t => exact ⟨[], s, rfl, by simp, rfl, rfl, .of_follows (hf.2 t)⟩
  | @queue site bs k q p l chunk left hbs hne =>
    obtain ⟨hq, rest, hs, hfull, hshort⟩ := hf
    -- the chunk is struck off, what is left of the write stays ahead
    have hq' : q ≤ bs.length := hq
    have hlen := congrArg List.length hbs
    simp only [List.length_drop, List.length_append] at hlen
    have hdrop : bs.drop (q + chunk.length) = left := by
      rw [← List.drop_drop, hbs, List.drop_left]
    refine ⟨(stamped ⟨p, site⟩ chunk).map .put, (stamped ⟨p, site⟩ left).map .put ++ rest,
      ?_, rfl, by simp [Move.outs], by simp [Move.inps], ?_⟩
    · simp only [hs, hbs, stamped_append, List.map_append, List.append_assoc]
    · exact ⟨by show q + chunk.length ≤ bs.length; omega, rest, by simp only [hdrop], hfull,
        hshort⟩
  | @wrote site bs k p l q hq =>
    obtain ⟨-, rest, hs, hfull, -⟩ := hf
    subst hq
    have hs' : s = rest := by simpa using hs
    exact ⟨[], s, rfl, by simp, rfl, rfl, .of_follows (hs' ▸ hfull)⟩
  | @wroteShort site bs k p l q hd h0 hlt =>
    obtain ⟨-, rest, hs, -, hshort⟩ := hf
    -- the bytes that have not been queued are the ones the program is to write next
    exact ⟨[], s, rfl, by simp, rfl, rfl, .of_follows (hs ▸ hshort hd q h0 hlt)⟩
  | @read site n k p l xs hne hle =>
    have hpos : 0 < xs.length := List.length_pos_iff.mpr hne
    rcases hf.2 with ⟨hnil, hw⟩ | ⟨-, ys, rest, hlen, hs, hk⟩
    · -- the script is over, so nothing may be present
      have hnil' : s = [] := hnil
      rw [hnil', hv ⟨_, hw⟩] at hin
      exact absurd (List.append_eq_nil_iff.mp (by simpa [Move.inps] using hin)).1 hne
    · -- the bytes present are the first of those expected
      have hs' : s = ys.map (.got ⟨p, site⟩) ++ rest := hs
      have hxs : xs = ys.take xs.length := by
        have h := congrArg (List.take xs.length) hin
        rw [hs'] at h
        simpa [Move.inps, List.take_append, Nat.sub_eq_zero_of_le (hlen.symm ▸ hle)] using h
      refine ⟨xs.map (.got ⟨p, site⟩), (ys.drop xs.length).map (.got ⟨p, site⟩) ++ rest,
        ?_, rfl, by simp [Move.outs], by simp [Move.inps], ?_⟩
      · conv_lhs => rw [hs', ← List.take_append_drop xs.length ys, ← hxs]
        simp
      · have := hk xs.length hpos hle
        rw [← hxs] at this
        exact .of_follows this

end fits

/-! ## Both parties on script -/

/-- The two full scripts; `tail s` is what `s` puts and the end across never gets, `waits s` are
    the reads of `s` that may wait for ever once its script is over. -/
structure Plan (π σ Ev : Type) where
  full : Side → List (Act π σ Ev)
  tail : Side → List (Cell π σ)
  waits : Side → Stamp π σ → Prop
  /-- What one side puts is what the other gets, in order, and the tail. -/
  balanced : ∀ s, puts (full s) = gots (full s.other) ++ tail s
  /-- A party that may wait for ever has been sent nothing it will not read. -/
  waits_tail : ∀ s st, waits s st → tail s.other = []

/-- **The invariant**: each log and the script still ahead make up the full script, each party
    fits its script, and each stream holds what has been put and not yet got.  `flow` is the field
    that carries it: said with what is still ahead on both sides, it does not mention how much has
    been moved so far, and so it is kept by a read or a write of any size. -/
structure Inv (D : Discipline σ) (adv : Ev → π → π) (P : Plan π σ Ev) (Post : Side → α → Prop)
    (c : Config π σ Ev α) (script : Side → List (Act π σ Ev)) : Prop where
  log_script : ∀ s, (c.party s).log ++ script s = P.full s
  fits : ∀ s, Fits D adv (P.waits s) (Post s) (c.party s) (script s)
  flow : ∀ s, c.chan s ++ puts (script s) = gots (script s.other) ++ P.tail s

section safety

variable {D : Discipline σ} {adv : Ev → π → π} {P : Plan π σ Ev} {Post : Side → α → Prop}

theorem Inv.start {p : π} {prog : Side → Prog σ Ev α}
    (h : ∀ s, Follows D adv (P.waits s) (Post s) (prog s) (p, P.full s)) :
    Inv D adv P Post (Config.start p prog) P.full where
  log_script _ := rfl
  fits s := .of_follows (h s)
  flow s := by simpa [Config.start] using P.balanced s

/-- What a step does, said once: one party makes a move, the streams change by its bytes. -/
theorem step_cases {c c' : Config π σ Ev α} (h : Step D adv c c') :
    ∃ s m p', PStep D adv (c.party s) m p' ∧ c'.party = Function.update c.party s p' ∧
      c'.chan s = c.chan s ++ m.outs ∧ c.chan s.other = m.inps ++ c'.chan s.other := by
  cases h with
  | @tau s p' hp => exact ⟨s, .tau, p', hp, rfl, by simp [Move.outs], by simp [Move.inps]⟩
  | @out s xs p' hp hcap =>
    exact ⟨s, .out xs, p', hp, rfl, by simp [Move.outs],
      by simp [Move.inps, Function.update_of_ne (Side.other_ne s)]⟩
  | @inp s xs rest p' hc hp =>
    exact ⟨s, .inp xs, p', hp, rfl,
      by simp [Move.outs, Function.update_of_ne (Side.other_ne s).symm],
      by simp [Move.inps, hc]⟩

/-- **Step lemma.**  One party makes a move (`PStep.fits`); what its log gains its script loses,
    and the stream it has put to or got from changes by the same bytes. -/
theorem Inv.step {c c' : Config π σ Ev α} {script : Side → List (Act π σ Ev)}
    (hi : Inv D adv P Post c script) (h : Step D adv c c') :
    ∃ script', Inv D adv P Post c' script' := by
  obtain ⟨s, m, p', hp, hparty, hout, hinp⟩ := step_cases h
  have hflow := hi.flow s.other
  rw [hinp, Side.other_other, List.append_assoc] at hflow
  obtain ⟨l, s', hs, hlog, hputs, hgots, hfits⟩ :=
    hp.fits (hi.fits s) hflow (fun ⟨st, hst⟩ => P.waits_tail s st hst)
  -- the script of `s` gets shorter, the other one stays as it is
  refine ⟨Function.update script s s', ?_, ?_, ?_⟩
  · intro t
    rcases Side.eq_or_eq_other s t with rfl | rfl
    · rw [hparty]
      simp only [Function.update_self, hlog, List.append_assoc, ← hs]
      exact hi.log_script t
    · rw [hparty]
      simp only [Function.update_of_ne (Side.other_ne s)]
      exact hi.log_script s.other
  · intro t
    rcases Side.eq_or_eq_other s t with rfl | rfl
    · rw [hparty]
      simpa only [Function.update_self] using hfits
    · rw [hparty]
      simpa only [Function.update_of_ne (Side.other_ne s)] using hi.fits s.other
  · intro t
    rcases Side.eq_or_eq_other s t with rfl | rfl
    · have hft := hi.flow t
      rw [hs] at hft
      simp only [Function.update_self, Function.update_of_ne (Side.other_ne t), hout, ← hputs,
        List.append_assoc, ← puts_append]
      exact hft
    · rw [hs, gots_append, hgots, List.append_assoc] at hflow
      simp only [Side.other_other, Function.update_self,
        Function.update_of_ne (Side.other_ne s)]
      exact List.append_cancel_left hflow

/-- **Run lemma**, by induction on the steps. -/
theorem Inv.steps {c c' : Config π σ Ev α} {script : Side → List (Act π σ Ev)}
    (hi : Inv D adv P Post c script) (h : Steps D adv c c') :
    ∃ script', Inv D adv P Post c' script' := by
  induction h with
  | refl => exact ⟨script, hi⟩
  | tail _ hstep ih =>
    obtain ⟨script', hi'⟩ := ih
    exact hi'.step hstep

variable {c : Config π σ Ev α} {script : Side → List (Act π σ Ev)}

theorem Inv.log_prefix (hi : Inv D adv P Post c script) (s : Side) :
    (c.party s).log <+: P.full s :=
  ⟨script s, hi.log_script s⟩

/-- The bytes put are the bytes got across, and those still in the stream. -/
theorem Inv.puts_log (hi : Inv D adv P Post c script) (s : Side) :
    puts (c.party s).log = gots (c.party s.other).log ++ c.chan s := by
  have h := P.balanced s
  rw [← hi.log_script s, ← hi.log_script s.other, puts_append, gots_append,
    List.append_assoc, ← hi.flow s, ← List.append_assoc] at h
  exact List.append_cancel_right h

/-- Whatever a party got, the party across has put. -/
theorem Inv.put_of_got (hi : Inv D adv P Post c script) {s : Side} {call : Stamp π σ}
    {x : Cell π σ} (h : .got call x ∈ (c.party s).log) : .put x ∈ (c.party s.other).log := by
  have hx : x ∈ gots (c.party s).log := mem_gots.mpr ⟨call, h⟩
  have hp := hi.puts_log s.other
  rw [Side.other_other] at hp
  exact mem_puts.mp (hp ▸ List.mem_append_left _ hx)

/-- A party that has returned is at the end of its script. -/
theorem Inv.returned (hi : Inv D adv P Post c script) {s : Side} {a : α}
    (h : (c.party s).Returned a) : script s = [] ∧ Post s a := by
  have hf := hi.fits s
  unfold Fits at hf
  rw [show (c.party s).prog = .ret a from h] at hf
  exact hf.2

/-- Unless allocation may fail, no party leaves the process or runs into undefined behaviour. -/
theorem Inv.not_aborted (hi : Inv D adv P Post c script) (hD : ¬ D.allocFails) (s : Side) :
    ¬ (c.party s).Aborted := by
  have hf := hi.fits s
  unfold Fits at hf
  rintro (⟨code, msg, h⟩ | h)
  · rw [h] at hf
    exact hD hf.2
  · rw [h] at hf
    exact hf.2

/-- When both have returned, the streams hold exactly the bytes nobody was to read. -/
theorem Inv.chan_of_returned (hi : Inv D adv P Post c script)
    (h : ∀ s, ∃ a, (c.party s).Returned a) (s : Side) : c.chan s = P.tail s := by
  have hscript : ∀ s, script s = [] := fun s => (hi.returned (h s).choose_spec).1
  simpa [hscript] using hi.flow s

end safety

/-! ## Progress -/

section progress

variable {K : Type} [LinearOrder K]

/-- `rank s x` is the rank of byte `x` in the stream `s` writes.  Along the script of the party
    on side `s`, ranks do not decrease, and grow strictly from a byte got to a byte put later. -/
def Before (rank : Side → Cell π σ → K) (s : Side) : Act π σ Ev → Act π σ Ev → Prop
  | .put x, .put y => rank s x ≤ rank s y
  | .put x, .got _ y => rank s x ≤ rank s.other y
  | .got _ x, .got _ y => rank s.other x ≤ rank s.other y
  | .got _ x, .put y => rank s.other x < rank s y
  | _, _ => True

/-- The full script with the bytes the party never reads put at its end, as if it got them. -/
def Plan.whole (P : Plan π σ Ev) (s : Side) : List (Act π σ Ev) :=
  P.full s ++ (P.tail s.other).map fun x => .got x.stamp x

/-- What progress asks of the scripts and of the room in the streams. -/
structure Plan.Timely (P : Plan π σ Ev) (D : Discipline σ) (rank : Side → Cell π σ → K) :
    Prop where
  ordered : ∀ s, (P.whole s).Pairwise (Before rank s)
  /-- Where a party puts bytes of some rank, the bytes of that rank sent to it fit the stream. -/
  window : ∀ s, ∀ x ∈ puts (P.full s),
    (((gots (P.whole s)).filter fun y => rank s.other y = rank s x).length : ℕ∞) ≤ D.cap s.other
  tail_cap : ∀ s, ((P.tail s).length : ℕ∞) ≤ D.cap s
  cap_pos : ∀ s, 1 ≤ D.cap s

/-- The party sits in a read that may wait for ever. -/
def Party.Waiting (p : Party π σ Ev α) (waits : Stamp π σ → Prop) : Prop :=
  ∃ site n k, p.prog = .io (.read site n) k ∧ waits ⟨p.pos, site⟩

variable {D : Discipline σ} {adv : Ev → π → π} {P : Plan π σ Ev} {Post : Side → α → Prop}
  {rank : Side → Cell π σ → K} {c : Config π σ Ev α} {script : Side → List (Act π σ Ev)}

@[simp] theorem gots_map_tail (xs : List (Cell π σ)) :
    gots (xs.map fun x => (.got x.stamp x : Act π σ Ev)) = xs := by
  induction xs with
  | nil => rfl
  | cons x xs ih => simp [gots, ih]

/-- With the bytes it never reads, a party gets what the other one puts. -/
theorem Plan.gots_whole (P : Plan π σ Ev) (s : Side) :
    gots (P.whole s) = puts (P.full s.other) := by
  have h := P.balanced s.other
  rw [Side.other_other] at h
  rw [Plan.whole, gots_append, gots_map_tail, h]

/-- A party that fits its script is at the end of it, or has a step of its own to make, or is to
    put the next byte of the script, or is ready to take the next byte of the script. -/
theorem Fits.ready {waits : Stamp π σ → Prop} {Post : α → Prop} {p : Party π σ Ev α}
    {s : List (Act π σ Ev)} (hf : Fits D adv waits Post p s) (hD : ¬ D.allocFails) :
    (s = [] ∧ ((∃ a, p.Returned a ∧ Post a) ∨ p.Waiting waits)) ∨
    (∃ p', PStep D adv p .tau p') ∨
    (∃ x l p', s = .put x :: l ∧ PStep D adv p (.out [x]) p') ∨
    (∃ call x l, s = .got call x :: l ∧ ∀ y, ∃ p', PStep D adv p (.inp [y]) p') := by
  obtain ⟨prog, q, pos, log⟩ := p
  cases prog with
  | ret a => exact Or.inl ⟨hf.2.1, Or.inl ⟨a, rfl, hf.2.2⟩⟩
  | exit code msg => exact absurd hf.2 hD
  | fault => exact hf.2.elim
  | emit e k =>
    obtain rfl : q = 0 := hf.1
    exact Or.inr (Or.inl ⟨_, .emit⟩)
  | malloc n k =>
    obtain rfl : q = 0 := hf.1
    exact Or.inr (Or.inl ⟨_, .malloc (Or.inl ⟨_, rfl, List.length_replicate (a := 0)⟩)⟩)
  | clock k =>
    obtain rfl : q = 0 := hf.1
    exact Or.inr (Or.inl ⟨_, .clock 0⟩)
  | io o k =>
    cases o with
    | write site bs =>
      obtain ⟨hq, rest, hs, -, -⟩ := hf
      cases hd : bs.drop q with
      | nil =>
        -- everything is queued, and the call returns
        have hlen := congrArg List.length hd
        simp only [List.length_drop, List.length_nil] at hlen
        have hq' : q ≤ bs.length := hq
        exact Or.inr (Or.inl ⟨_, .wrote (by omega)⟩)
      | cons b bs' =>
        have hs' : s = .put ⟨b, ⟨pos, site⟩⟩ :: ((stamped ⟨pos, site⟩ bs').map .put ++ rest) := by
          simpa [hd, stamped] using hs
        have hd' : bs.drop q = [b] ++ bs' := hd
        exact Or.inr (Or.inr (Or.inl ⟨_, _, _, hs', .queue hd' (by simp)⟩))
    | read site n =>
      obtain rfl : q = 0 := hf.1
      rcases hf.2 with ⟨hs, hw⟩ | ⟨hn, xs, rest, hlen, hs, -⟩
      · exact Or.inl ⟨hs, Or.inr ⟨_, _, _, rfl, hw⟩⟩
      · obtain ⟨x, xs', rfl⟩ : ∃ x xs', xs = x :: xs' := by
          cases xs with
          | nil => exact absurd hlen (by simp; omega)
          | cons x xs' => exact ⟨x, xs', rfl⟩
        -- it would take any byte, the script says which one comes
        have hone : ∀ y : Cell π σ, [y].length ≤ n := by
          intro y
          rw [List.length_singleton]
          omega
        exact Or.inr (Or.inr (Or.inr ⟨_, x, _, hs, fun y => ⟨_, .read (by simp) (hone y)⟩⟩))

/-- Where a party can be when nothing moves: at the end, at a write without room, or at a read
    without bytes. -/
theorem Inv.blocked (hi : Inv D adv P Post c script) (hD : ¬ D.allocFails)
    (hstuck : Stuck D adv c) (s : Side) :
    (script s = [] ∧
      ((∃ a, (c.party s).Returned a ∧ Post s a) ∨ (c.party s).Waiting (P.waits s))) ∨
    (∃ x l, script s = .put x :: l ∧ D.cap s < ((c.chan s).length + 1 : ℕ)) ∨
    (∃ call x l, script s = .got call x :: l ∧ c.chan s.other = []) := by
  rcases (hi.fits s).ready hD with h | ⟨p', h⟩ | ⟨x, l, p', hs, h⟩ | ⟨call, x, l, hs, h⟩
  · exact Or.inl h
  · exact absurd (.tau h) (hstuck _)
  · refine Or.inr (Or.inl ⟨x, l, hs, not_le.mp ?_⟩)
    intro hcap
    exact hstuck _ (.out h (by simpa using hcap))
  · refine Or.inr (Or.inr ⟨call, x, l, hs, ?_⟩)
    cases hc : c.chan s.other with
    | nil => rfl
    | cons y ys =>
      obtain ⟨p', hp'⟩ := h y
      exact absurd (.inp (by simpa using hc) hp') (hstuck _)

/-- What a party has still ahead, with the bytes it will never read. -/
def ahead (P : Plan π σ Ev) (script : Side → List (Act π σ Ev)) (s : Side) : List (Act π σ Ev) :=
  script s ++ (P.tail s.other).map fun x => .got x.stamp x

theorem Inv.ahead_sorted (hi : Inv D adv P Post c script) (hT : P.Timely D rank) (s : Side) :
    (ahead P script s).Pairwise (Before rank s) := by
  have h := hT.ordered s
  rw [Plan.whole, ← hi.log_script s, List.append_assoc] at h
  exact (List.pairwise_append.mp h).2.1

theorem Inv.flow_ahead (hi : Inv D adv P Post c script) (s : Side) :
    c.chan s ++ puts (script s) = gots (ahead P script s.other) := by
  simpa [ahead] using hi.flow s

/-- Ranks along the bytes got. -/
theorem gots_sorted {s : Side} {l : List (Act π σ Ev)} (h : l.Pairwise (Before rank s)) :
    (gots l).Pairwise fun x y => rank s.other x ≤ rank s.other y := by
  induction l with
  | nil => exact List.Pairwise.nil
  | cons a l ih =>
    obtain ⟨ha, hl⟩ := List.pairwise_cons.mp h
    cases a with
    | put x => exact ih hl
    | did p e => exact ih hl
    | got call x =>
      refine List.pairwise_cons.mpr ⟨fun y hy => ?_, ih hl⟩
      obtain ⟨call', hy'⟩ := mem_gots.mp hy
      exact ha _ hy'

/-- A party that waits to read, faced with one that waits to read: the byte it waits for has a
    smaller rank than the byte the other one waits for. -/
theorem Inv.read_lt (hi : Inv D adv P Post c script) (hT : P.Timely D rank) {s : Side}
    {call call' : Stamp π σ} {x y : Cell π σ} {l m : List (Act π σ Ev)}
    (hs : script s = .got call x :: l) (ho : script s.other = .got call' y :: m)
    (hchan : c.chan s = []) : rank s.other x < rank s y := by
  have hflow := hi.flow_ahead s
  simp only [ahead, hchan, List.nil_append, ho, List.cons_append, gots] at hflow
  have hy : .put y ∈ script s := mem_puts.mp (hflow ▸ List.mem_cons_self)
  have hy' : (.put y : Act π σ Ev) ∈ l := by simpa [hs] using hy
  have hsorted := hi.ahead_sorted hT s
  rw [ahead, hs, List.cons_append] at hsorted
  exact (List.pairwise_cons.mp hsorted).1 _ (List.mem_append_left _ hy')

/-- A party that waits for room, faced with one that waits for room: the bytes under way to it
    rank between the byte it is to put and the byte the other one is to put. -/
theorem Inv.write_le (hi : Inv D adv P Post c script) (hT : P.Timely D rank) {s : Side}
    {x y : Cell π σ} {l m : List (Act π σ Ev)}
    (hs : script s = .put x :: l) (ho : script s.other = .put y :: m) {z : Cell π σ}
    (hz : z ∈ c.chan s.other) : rank s x ≤ rank s.other z ∧ rank s.other z ≤ rank s.other y := by
  have hflow := hi.flow_ahead s.other
  rw [Side.other_other, ho] at hflow
  have hsorted := hi.ahead_sorted hT s
  have hzg : z ∈ gots (ahead P script s) := hflow ▸ List.mem_append_left _ hz
  constructor
  · obtain ⟨call, hz'⟩ := mem_gots.mp hzg
    rw [ahead, hs, List.cons_append] at hsorted hz'
    rcases List.mem_cons.mp hz' with h | h
    · cases h
    · exact (List.pairwise_cons.mp hsorted).1 _ h
  · have hg := gots_sorted hsorted
    rw [← hflow] at hg
    exact (List.pairwise_append.mp hg).2.2 z hz y (by simp [puts])

/-- What is under way to `s`, and the next byte the other party puts, is still to be got. -/
theorem Inv.under_way (hi : Inv D adv P Post c script) {s : Side} {y : Cell π σ}
    {m : List (Act π σ Ev)} (ho : script s.other = .put y :: m) :
    (c.chan s.other ++ [y]).Sublist (gots (P.whole s)) := by
  have hflow := hi.flow_ahead s.other
  rw [Side.other_other, ho] at hflow
  have hwhole : gots (P.whole s) =
      gots (c.party s).log ++ ((c.chan s.other ++ [y]) ++ puts m) := by
    rw [Plan.whole, ← hi.log_script s, List.append_assoc, gots_append, List.append_assoc]
    exact congrArg _ hflow.symm
  rw [hwhole]
  exact (List.sublist_append_left _ _).trans (List.sublist_append_right _ _)

/-- Two parties cannot both wait for room: every byte under way to `s` would have one and the
    same rank, and with the byte the other party is to put they would not fit the stream.  This is
    the only place where the capacities matter. -/
theorem Inv.not_both_full (hi : Inv D adv P Post c script) (hT : P.Timely D rank) {s : Side}
    {x y : Cell π σ} {l m : List (Act π σ Ev)}
    (hs : script s = .put x :: l) (ho : script s.other = .put y :: m)
    (hfull : D.cap s < ((c.chan s).length + 1 : ℕ))
    (hfull' : D.cap s.other < ((c.chan s.other).length + 1 : ℕ)) : False := by
  have hne : ∀ t, D.cap t < ((c.chan t).length + 1 : ℕ) → ∃ z, z ∈ c.chan t := by
    intro t ht
    refine List.exists_mem_of_ne_nil _ ?_
    intro hnil
    exact absurd (by simpa [hnil] using ht : D.cap t < 1) (not_lt.mpr (hT.cap_pos t))
  have h₁ : ∀ z ∈ c.chan s.other, _ := fun z hz => hi.write_le hT hs ho hz
  have h₂ : ∀ z ∈ c.chan s, rank s.other y ≤ rank s z ∧ rank s z ≤ rank s x := by
    intro z hz
    have := hi.write_le hT (s := s.other) ho (by rwa [Side.other_other]) (z := z)
    rw [Side.other_other] at this
    exact this hz
  obtain ⟨z₁, hz₁⟩ := hne _ hfull'
  obtain ⟨z₂, hz₂⟩ := hne _ hfull
  have hxy : rank s.other y = rank s x :=
    le_antisymm ((h₂ z₂ hz₂).1.trans (h₂ z₂ hz₂).2) ((h₁ z₁ hz₁).1.trans (h₁ z₁ hz₁).2)
  have hall : ∀ z ∈ c.chan s.other ++ [y], rank s.other z = rank s x := by
    intro z hz
    rcases List.mem_append.mp hz with hz | hz
    · exact le_antisymm ((h₁ z hz).2.trans hxy.le) (h₁ z hz).1
    · rw [List.mem_singleton.mp hz, hxy]
  -- all of them count in the window of `x`
  have hsub := (hi.under_way ho).filter fun z => decide (rank s.other z = rank s x)
  rw [List.filter_eq_self.mpr fun z hz => by simpa using hall z hz] at hsub
  have hx : x ∈ puts (P.full s) := by
    rw [← hi.log_script s, hs]
    simp [puts]
  have hlen := hsub.length_le
  rw [List.length_append, List.length_singleton] at hlen
  exact absurd ((Nat.cast_le.mpr hlen).trans (hT.window s x hx)) (not_le.mpr hfull')

/-- **Progress.**  In a configuration without a step both scripts are exhausted: each party has
    returned or sits in a read it was to wait in. -/
theorem Inv.stuck_done (hi : Inv D adv P Post c script) (hT : P.Timely D rank)
    (hD : ¬ D.allocFails) (hstuck : Stuck D adv c) (s : Side) :
    script s = [] ∧
      ((∃ a, (c.party s).Returned a ∧ Post s a) ∨ (c.party s).Waiting (P.waits s)) := by
  have hs := hi.blocked hD hstuck s
  have ho := hi.blocked hD hstuck s.other
  have hflow := hi.flow_ahead s
  rw [Side.other_other] at ho
  rcases hs with hs | ⟨x, l, hs, hfull⟩ | ⟨call, x, l, hs, hempty⟩
  · exact hs
  · exfalso
    rcases ho with ⟨ho, -⟩ | ⟨y, m, ho, hfull'⟩ | ⟨call', y, m, ho, hempty'⟩
    · -- the other party is done: what is under way fits the bytes left over
      have hlen := congrArg List.length hflow
      simp only [ahead, ho, hs, puts, List.nil_append, gots_map_tail, Side.other_other,
        List.length_append, List.length_cons] at hlen
      have hcap := hT.tail_cap s
      rw [← hlen] at hcap
      exact absurd (hfull.trans_le (Nat.cast_le.mpr (by omega))) (not_lt.mpr hcap)
    · exact hi.not_both_full hT hs ho hfull hfull'
    · have hlt : D.cap s < 1 := by simpa [hempty'] using hfull
      exact absurd hlt (not_lt.mpr (hT.cap_pos s))
  · exfalso
    rcases ho with ⟨ho, -⟩ | ⟨y, m, ho, hfull'⟩ | ⟨call', y, m, ho, hempty'⟩
    · -- the other party is done: nothing more is coming, yet the script expects a byte
      have hflow' := hi.flow_ahead s.other
      simp [ahead, hempty, ho, hs, gots] at hflow'
    · have hlt : D.cap s.other < 1 := by simpa [hempty] using hfull'
      exact absurd hlt (not_lt.mpr (hT.cap_pos s.other))
    · have h₁ := hi.read_lt hT hs ho hempty'
      have h₂ := hi.read_lt hT (s := s.other) ho (by rwa [Side.other_other]) hempty
      rw [Side.other_other] at h₂
      exact lt_asymm h₁ h₂

end progress

end Duplex
