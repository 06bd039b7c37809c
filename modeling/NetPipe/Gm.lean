/-
  `readFully` of `gm.c`: a message is read event by event.

  The loop counts the bytes of every fragment off, and copies each to the beginning of the buffer.
  A stream would have them one behind the other; the pointer is not moved, though.

  1. The events, the copy and the loop (`readFully`).  It polls until the bytes are there, so where
     the events given run out it has not returned.

  2. What is in the buffer afterwards: at each place the byte of the last fragment that is long
     enough to have one (`readFully_eq`, `overlay_apply`).  That is the invariant of the loop: the
     overlay of the fragments so far, by induction on the events.

  3. So a message in one fragment is there, and of those in two or more only the ones whose bytes
     happen to coincide (`readFully_reassembles_iff`).  There are such messages, but for no lengths
     of two or more fragments is it all of them, as nothing is copied to the end of the buffer.
-/
import Mathlib.Data.List.GetD
import NetPipe.Netpipe

namespace NetPipe.Gm

/-! ## The function -/

/-- What `gm_receive` hands out. -/
inductive Event where
  /-- `GM_FAST_PEER_RECV_EVENT`, with the message in memory of the library. -/
  | fastPeerRecv (message : List UInt8)
  /-- `GM_RECV_EVENT`: the message is in a buffer provided. -/
  | recv (length : Nat)
  /-- `GM_PEER_RECV_EVENT`, as well. -/
  | peerRecv (length : Nat)
  /-- `GM_NO_RECV_EVENT`. -/
  | noRecv
  /-- Any other event, which is handed on to `gm_unknown`. -/
  | unknown
  deriving DecidableEq, Repr

/-- Memory, by address. -/
abbrev Mem := Nat → UInt8

/-- `bcopy(message, buff, bytesRead)`, with all bytes of the message. -/
def bcopy (message : List UInt8) (buff : Nat) (m : Mem) : Mem := fun a =>
  if buff ≤ a then message[a - buff]?.getD (m a) else m a

/-- The loop of `readFully`: the value returned, memory, and the events not taken.  Nothing where
    the events are used up and the loop goes on polling. -/
def readFully.loop (buff : Nat) : (bytesLeft : Int) → List Event → Mem →
    Option (Int × Mem × List Event)
  | bytesLeft, [], m => if bytesLeft > 0 then none else some (1, m, [])
  | bytesLeft, e :: events, m =>
    if bytesLeft > 0 then
      match e with
      | .fastPeerRecv message =>
        let bytesRead := wrap32 message.length
        loop buff (bytesLeft - bytesRead) events (bcopy message buff m)
      | .recv length | .peerRecv length =>
        let bytesRead := wrap32 length
        loop buff (bytesLeft - bytesRead) events m
      | .noRecv => loop buff bytesLeft events m
      | .unknown => loop buff bytesLeft events m
    else some (1, m, e :: events)

/-- `readFully(buff, len)`. -/
def readFully (buff : Nat) (len : Int) (events : List Event) (m : Mem) :
    Option (Int × Mem × List Event) :=
  readFully.loop buff len events m

/-! ## Fragments -/

/-- The messages among the events. -/
def fragments : List Event → List (List UInt8)
  | [] => []
  | .fastPeerRecv message :: events => message :: fragments events
  | _ :: events => fragments events

/-- A message of `len` bytes comes in fragments, with polls in between. -/
structure Fragmented (len : Nat) (events : List Event) : Prop where
  kinds : ∀ e ∈ events, e = .noRecv ∨ ∃ message, message ≠ [] ∧ e = .fastPeerRecv message
  total : (fragments events).flatten.length = len

/-- `readFully` ends with the message in the buffer, and has written nowhere else. -/
def Reassembles (buff len : Nat) (events : List Event) (m : Mem) : Prop :=
  ∃ m' rest, readFully buff len events m = some (1, m', rest) ∧
    (∀ j < len, m' (buff + j) = (fragments events).flatten.getD j 0) ∧
    ∀ a, a < buff ∨ buff + len ≤ a → m' a = m a

/-- The `j`-th byte of the last fragment that has one, or `b`. -/
def lastByte (b : UInt8) (j : Nat) (fs : List (List UInt8)) : UInt8 :=
  fs.foldl (fun b f => f[j]?.getD b) b

/-- Every fragment copied to the beginning of the buffer. -/
def overlay (buff : Nat) (fs : List (List UInt8)) (m : Mem) : Mem :=
  fs.foldl (fun m f => bcopy f buff m) m

section fragments

variable {buff len : Nat} {events : List Event} {m : Mem} {fs : List (List UInt8)}

/-- What the overlay leaves in the buffer. -/
theorem overlay_apply (j : Nat) :
    ∀ m : Mem, overlay buff fs m (buff + j) = lastByte (m (buff + j)) j fs := by
  induction fs with
  | nil => exact fun _ => rfl
  | cons f fs ih =>
    intro m
    have hcopy : bcopy f buff m (buff + j) = f[j]?.getD (m (buff + j)) := by
      rw [bcopy, if_pos (Nat.le_add_right buff j), Nat.add_sub_cancel_left]
    show overlay buff fs (bcopy f buff m) (buff + j) = lastByte (f[j]?.getD _) j fs
    rw [ih, hcopy]

/-- It is as long as the longest fragment. -/
theorem overlay_outside (hfs : ∀ f ∈ fs, f.length ≤ len) {a : Nat}
    (ha : a < buff ∨ buff + len ≤ a) : ∀ m : Mem, overlay buff fs m a = m a := by
  induction fs with
  | nil => exact fun _ => rfl
  | cons f fs ih =>
    intro m
    have hcopy : bcopy f buff m a = m a := by
      have hf := hfs f List.mem_cons_self
      rcases ha with ha | ha
      · exact if_neg (by omega)
      · rw [bcopy, if_pos (by omega), List.getElem?_eq_none (by omega)]
        rfl
    show overlay buff fs (bcopy f buff m) a = m a
    rw [ih fun g hg => hfs g (List.mem_cons_of_mem f hg), hcopy]

theorem length_le_flatten {f : List UInt8} (hf : f ∈ fs) : f.length ≤ fs.flatten.length :=
  (List.sublist_flatten_of_mem hf).length_le

/-- The events behind the first. -/
theorem Fragmented.tail {e : Event} (h : Fragmented len (e :: events)) :
    Fragmented (fragments events).flatten.length events :=
  ⟨fun e' he' => h.kinds e' (List.mem_cons_of_mem e he'), rfl⟩

/-- Without a byte there is no fragment. -/
theorem fragments_eq_nil (h : Fragmented 0 events) : fragments events = [] := by
  induction events with
  | nil => rfl
  | cons e events ih =>
    rcases h.kinds e List.mem_cons_self with rfl | ⟨message, hne, rfl⟩
    · exact ih ⟨h.tail.kinds, h.total⟩
    · have hlen := h.total
      rw [fragments, List.flatten_cons, List.length_append] at hlen
      exact absurd (List.eq_nil_of_length_eq_zero (by omega)) hne

/-- **`readFully`** comes to an end, and leaves the overlay.  By induction on the events: what
    is left to read is what the fragments still to come have in all. -/
theorem readFully_eq (buff : Nat) (hint : len < 2 ^ 31) (h : Fragmented len events) :
    ∀ m, ∃ rest,
      readFully buff len events m = some (1, overlay buff (fragments events) m, rest) := by
  unfold readFully
  induction events generalizing len with
  | nil =>
    intro m
    obtain rfl : 0 = len := h.total
    exact ⟨[], rfl⟩
  | cons e events ih =>
    intro m
    by_cases hpos : (len : Int) > 0
    · rcases h.kinds e List.mem_cons_self with rfl | ⟨message, -, rfl⟩
      · simp only [readFully.loop, if_pos hpos]
        exact ih hint ⟨h.tail.kinds, h.total⟩ m
      · -- the fragment is counted off
        have htotal : message.length + (fragments events).flatten.length = len := by
          rw [← h.total, fragments, List.flatten_cons, List.length_append]
        have hleft : (len : Int) - wrap32 message.length =
            ((fragments events).flatten.length : Nat) := by
          rw [wrap32_eq (by omega) (by omega)]
          omega
        simp only [readFully.loop, if_pos hpos, hleft]
        exact ih (by omega) h.tail (bcopy message buff m)
    · obtain rfl : len = 0 := by omega
      rw [fragments_eq_nil h]
      cases e <;> exact ⟨_, rfl⟩

/-- The message is there where the overlay has its bytes. -/
theorem reassembles_iff (hint : len < 2 ^ 31) (h : Fragmented len events) :
    Reassembles buff len events m ↔
      ∀ j < len, lastByte (m (buff + j)) j (fragments events) =
        (fragments events).flatten.getD j 0 := by
  obtain ⟨rest, hread⟩ := readFully_eq buff hint h m
  have hfs : ∀ f ∈ fragments events, f.length ≤ len := by
    intro f hf
    rw [← h.total]
    exact length_le_flatten hf
  constructor
  · rintro ⟨m', rest', hread', hbytes, -⟩ j hj
    rw [hread] at hread'
    cases hread'
    rw [← overlay_apply]
    exact hbytes j hj
  · intro hbytes
    refine ⟨_, rest, hread, ?_, ?_⟩
    · intro j hj
      rw [overlay_apply]
      exact hbytes j hj
    · intro a ha
      exact overlay_outside hfs ha m

/-- One fragment is the message. -/
theorem reassembles_single (hint : len < 2 ^ 31) (h : Fragmented len events)
    (hone : (fragments events).length = 1) : Reassembles buff len events m := by
  rw [reassembles_iff hint h]
  obtain ⟨f, hf⟩ := List.length_eq_one_iff.mp hone
  intro j hj
  have hlen : f.length = len := by
    have := h.total
    rwa [hf, List.flatten_singleton] at this
  rw [hf, List.flatten_singleton, List.getD_eq_getElem _ _ (by omega)]
  show f[j]?.getD (m (buff + j)) = f[j]
  rw [List.getElem?_eq_getElem (by omega), Option.getD_some]

/-- No fragment reaches this far. -/
theorem lastByte_short {b : UInt8} {j : Nat} (hfs : ∀ f ∈ fs, f.length ≤ j) :
    lastByte b j fs = b := by
  induction fs with
  | nil => rfl
  | cons f fs ih =>
    show lastByte (f[j]?.getD b) j fs = b
    rw [List.getElem?_eq_none (hfs f List.mem_cons_self)]
    exact ih fun g hg => hfs g (List.mem_cons_of_mem f hg)

/-- Each of several positive numbers is less than their sum. -/
theorem lt_sum {ns : List Nat} (hpos : ∀ n ∈ ns, 0 < n) (hne : ns.length ≠ 1) {n : Nat}
    (hn : n ∈ ns) : n < ns.sum := by
  obtain ⟨l₁, l₂, rfl⟩ := List.append_of_mem hn
  rw [List.sum_append, List.sum_cons]
  cases l₁ with
  | cons a l₁ =>
    have ha := hpos a (by simp)
    rw [List.sum_cons]
    omega
  | nil =>
    cases l₂ with
    | nil => exact absurd rfl hne
    | cons a l₂ =>
      have ha := hpos a (by simp)
      rw [List.sum_cons]
      omega

/-- Fragments of these lengths, with nothing but ones. -/
def ones (ns : List Nat) : List Event := ns.map fun n => .fastPeerRecv (List.replicate n 1)

theorem fragments_ones (ns : List Nat) :
    fragments (ones ns) = ns.map fun n => List.replicate n 1 := by
  induction ns with
  | nil => rfl
  | cons n ns ih =>
    show List.replicate n 1 :: fragments (ones ns) = _
    rw [ih, List.map_cons]

theorem flatten_ones (ns : List Nat) :
    (fragments (ones ns)).flatten = List.replicate ns.sum 1 := by
  rw [fragments_ones]
  induction ns with
  | nil => rfl
  | cons n ns ih =>
    rw [List.map_cons, List.flatten_cons, ih, List.sum_cons, List.replicate_append_replicate]

theorem fragmented_ones {ns : List Nat} (hpos : ∀ n ∈ ns, 0 < n) :
    Fragmented ns.sum (ones ns) := by
  constructor
  · intro e he
    obtain ⟨n, hn, rfl⟩ := List.mem_map.mp he
    refine Or.inr ⟨_, ?_, rfl⟩
    rw [Ne, List.replicate_eq_nil_iff]
    exact (hpos n hn).ne'
  · rw [flatten_ones, List.length_replicate]

/-- Where there are several fragments, nothing is copied to the end of the buffer. -/
theorem not_reassembles_ones {ns : List Nat} (hpos : ∀ n ∈ ns, 0 < n) (hne : ns.length ≠ 1)
    (hsum : 1 ≤ ns.sum) (hint : ns.sum < 2 ^ 31) :
    ¬ Reassembles buff ns.sum (ones ns) fun _ => 0 := by
  rw [reassembles_iff hint (fragmented_ones hpos)]
  intro hbytes
  have hlast := hbytes (ns.sum - 1) (by omega)
  have hshort : ∀ f ∈ fragments (ones ns), f.length ≤ ns.sum - 1 := by
    intro f hf
    rw [fragments_ones] at hf
    obtain ⟨n, hn, rfl⟩ := List.mem_map.mp hf
    have := lt_sum hpos hne hn
    rw [List.length_replicate]
    omega
  rw [lastByte_short hshort, flatten_ones, List.getD_eq_getElem _ _
    (by rw [List.length_replicate]; omega), List.getElem_replicate] at hlast
  exact absurd hlast (by decide)

end fragments

/-- **`readFully` reassembles** what comes in one fragment, and only that: of a message in several
    fragments, each place has the byte of the last fragment that is long enough, and for any
    lengths of them there are messages that are not there. -/
theorem readFully_reassembles_iff (buff len : Nat) (hlen : 1 ≤ len) (hint : len < 2 ^ 31) :
    (∀ events m, Fragmented len events →
      (Reassembles buff len events m ↔
        ∀ j < len, lastByte (m (buff + j)) j (fragments events) =
          (fragments events).flatten.getD j 0)) ∧
    ∀ ns : List Nat, (∀ n ∈ ns, 0 < n) → ns.sum = len →
      ((∀ events m, Fragmented len events → (fragments events).map List.length = ns →
        Reassembles buff len events m) ↔ ns.length = 1) := by
  constructor
  · intro events m h
    exact reassembles_iff hint h
  · rintro ns hpos rfl
    constructor
    · intro hall
      by_contra hne
      refine not_reassembles_ones hpos hne hlen hint (hall _ _ (fragmented_ones hpos) ?_)
      rw [fragments_ones, List.map_map]
      exact (List.map_congr_left fun n _ => List.length_replicate).trans (List.map_id ns)
    · intro hone events m h hns
      refine reassembles_single hint h ?_
      rw [← hone, ← hns, List.length_map]

/-- A message in one fragment, with a poll ahead of it. -/
theorem reassembles_poll : Reassembles 0 2 [.noRecv, .fastPeerRecv [1, 2]] fun _ => 0 := by
  have h : Fragmented 2 [.noRecv, .fastPeerRecv [1, 2]] := ⟨by simp, by decide⟩
  exact ((readFully_reassembles_iff 0 2 (by decide) (by decide)).2 [2] (by decide) (by decide)).mpr
    (by decide) _ _ h (by decide)

/-- Two fragments of one byte: the second replaces the first, and the second place is left. -/
theorem not_reassembles_twoFragments :
    ¬ Reassembles 0 2 [.fastPeerRecv [1], .fastPeerRecv [2]] fun _ => 0 := by
  have h : Fragmented 2 [.fastPeerRecv [1], .fastPeerRecv [2]] := ⟨by simp, by decide⟩
  rw [reassembles_iff (by decide) h]
  intro hbytes
  exact absurd (hbytes 0 (by decide)) (by decide)

end NetPipe.Gm
