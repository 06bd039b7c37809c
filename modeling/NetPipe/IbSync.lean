/-
  `Sync` of `ibv.c` and `ib.c`: the string is read into an array that nothing has been written to.

  The two functions are the one of `tcp.c` but for the array, which there holds blanks; what is said
  here rests on the same `syncFrom`, with the array's contents as an argument.  At the end of the
  stream `readFully` returns 0, the test is for less than 0, and the comparison goes on to what the
  array held before.

  1. Where `Sync` returns, the string has been received, or the stream has ended and the array held
     the rest of it (`received_or_stale`); and in the second case it does return
     (`returns_of_stale`).

  2. So it accepts a received string only, exactly where that is not so (`sync_received_iff`).  An
     array that an earlier call has left behind on the stack is all it takes
     (`sync_nothing_received`).
-/
import NetPipe.TcpWire

namespace NetPipe.IbSync

open Process Tcp

/-- The modules with an array of their own. -/
inductive Verbs where
  | ibv
  | ib
  deriving DecidableEq, Repr

/-- `Sync(p)` of `ibv.c`; `response` is what the array holds before the call. -/
def Ibv.sync (response : Vector UInt8 7) (h : Host) : TcpProg Host :=
  syncFrom response.toList "NetPIPE: Synchronization string incorrect!\n" h

/-- `Sync(p)` of `ib.c`. -/
def Ib.sync (response : Vector UInt8 7) (h : Host) : TcpProg Host :=
  syncFrom response.toList "NetPIPE: Synchronization string incorrect!\n" h

/-- `Sync` of a module. -/
def sync : Verbs → Vector UInt8 7 → Host → TcpProg Host
  | .ibv => Ibv.sync
  | .ib => Ib.sync

/-- `Sync` returns only if the next six bytes are the string. -/
def Received (m : Verbs) (response : Vector UInt8 7) (h : Host) (results : Results) (cut : Cut)
    (w : Wire) : Prop :=
  ∀ h' w', Exec (wireEnv results cut) (sync m response h) w (.returned h') w' →
    bytes (w.incoming.take 6) = syncMe

section sync

variable {m : Verbs} {response : Vector UInt8 7} {h : Host} {results : Results} {cut : Cut}
  {w : Wire}

theorem sync_eq (m : Verbs) (response : Vector UInt8 7) (h : Host) :
    sync m response h =
      syncFrom response.toList "NetPIPE: Synchronization string incorrect!\n" h := by
  cases m <;> rfl

/-- A return means the string, received or completed by the array. -/
theorem received_or_stale {h' : Host} {w' : Wire}
    (hexec : Exec (wireEnv results cut) (sync m response h) w (.returned h') w') :
    bytes (w.incoming.take 6) = syncMe ∨
      (results w.writes ≠ none ∧ Stale response.toList cut w) := by
  rw [sync_eq] at hexec
  have hwp : wp ((wireEnv results cut).strict fun _ => True)
      (syncFrom response.toList "NetPIPE: Synchronization string incorrect!\n" h)
      (fun _ _ => bytes (w.incoming.take 6) = syncMe ∨
        (results w.writes ≠ none ∧ Stale response.toList cut w)) w := by
    refine wire_syncFrom (by simp) (fun _ => trivial) ?_ ?_ fun _ _ _ _ _ => trivial
    · intro n _ hstring
      exact Or.inl hstring
    · intro hwrite hstale _
      exact Or.inr ⟨hwrite, hstale⟩
  exact hexec.ends hwp

/-- Where the array completes the string, `Sync` returns. -/
theorem returns_of_stale (hwrite : results w.writes ≠ none)
    (hstale : Stale response.toList cut w) :
    ∃ h' w', Exec (wireEnv results cut) (sync m response h) w (.returned h') w' := by
  rw [sync_eq]
  have hwp : wp ((wireEnv results cut).strict fun _ => False)
      (syncFrom response.toList "NetPIPE: Synchronization string incorrect!\n" h)
      (fun _ _ => True) w :=
    wire_syncFrom (by simp) hwrite (fun _ _ _ => trivial) (fun _ _ _ => trivial)
      fun _ _ _ _ hno => hno hstale
  obtain ⟨h', w', hexec, -⟩ := (Ends.of_wp hwp).returns fun _ => id
  exact ⟨h', w', hexec⟩

/-- **`Sync` accepts a received string only**, exactly where its write fails or the array does not
    complete what is received before the end of the stream. -/
theorem sync_received_iff (m : Verbs) (response : Vector UInt8 7) (h : Host) (results : Results)
    (cut : Cut) (w : Wire) :
    Received m response h results cut w ↔
      ¬ (results w.writes ≠ none ∧ Stale response.toList cut w) := by
  constructor
  · rintro hreceived ⟨hwrite, hstale⟩
    obtain ⟨h', w', hexec⟩ := returns_of_stale (m := m) (h := h) hwrite hstale
    have hsix := Wire.le_incoming (hreceived h' w' hexec) rfl
    exact absurd hstale.2.1 (not_lt.mpr hsix)
  · intro hno h' w' hexec
    exact (received_or_stale hexec).resolve_right hno

end sync

/-- The array of an earlier call that has received the string. -/
def leftBehind : Vector UInt8 7 := ⟨#[0x53, 0x79, 0x6E, 0x63, 0x4D, 0x65, 0], rfl⟩

/-- The peer closes the connection at once, and `Sync` returns. -/
theorem sync_nothing_received :
    ¬ Received .ibv leftBehind littleHost (fun _ => some 6) .eof ⟨0, [], []⟩ ∧
      ¬ Received .ib leftBehind littleHost (fun _ => some 6) .eof ⟨0, [], []⟩ := by
  have hreturns : ∀ m, ¬ Received m leftBehind littleHost (fun _ => some 6) .eof ⟨0, [], []⟩ := by
    intro m hreceived
    obtain ⟨h', w', hexec⟩ : ∃ h' w', Exec (wireEnv (fun _ => some 6) .eof)
        (sync m leftBehind littleHost) ⟨0, [], []⟩ (.returned h') w' :=
      returns_of_stale (Option.some_ne_none _) ⟨rfl, by decide, by decide⟩
    exact absurd (hreceived h' w' hexec) (by decide)
  exact ⟨hreturns .ibv, hreturns .ib⟩

end NetPipe.IbSync
