/-
  C objects as lists of bytes: stores that stay inside the object, words in a byte order, and a
  heap of blocks.

  1. **Accesses** (`storeAt`, `loadAt`).  An access that leaves its object yields `none`: it is
     undefined in C, and a program that makes one is to be shown not to.

  2. **Words** (`toBytes`, `ofBytes`).  A host of either byte order keeps a word as four bytes.
     `htonl` is what it is on that host, a swap or nothing; what it comes to is `toBytes_htonl`: the
     bytes that are written do not depend on the host.

  3. **The heap** (`Heap`).  A pointer is null or an offset into a block.  Freed blocks stay dead,
     as numbers are not used again, so a use after `free` or a second `free` is undefined here as it
     is in C, and is seen.  Everything that is done with a pointer goes through `view` and `modify`,
     which know the bytes from the pointer to the end of its block.
-/
import Mathlib.Algebra.Order.Ring.Nat
import Mathlib.Logic.Function.Basic

namespace Memory

/-! ## Stores into one object -/

/-- `bs` stored into `s` from index `i` on. -/
def storeAt (s : List UInt8) (i : Nat) (bs : List UInt8) : Option (List UInt8) :=
  if i + bs.length ≤ s.length then some (s.take i ++ (bs ++ s.drop (i + bs.length))) else none

/-- The `n` bytes of `s` from index `i` on. -/
def loadAt (s : List UInt8) (i n : Nat) : Option (List UInt8) :=
  if i + n ≤ s.length then some ((s.drop i).take n) else none

/-- A store right behind a prefix of known length replaces what follows the prefix. -/
theorem storeAt_append {pre bs mid post : List UInt8} {i : Nat} (hi : i = pre.length)
    (hlen : bs.length = mid.length) :
    storeAt (pre ++ (mid ++ post)) i bs = some (pre ++ (bs ++ post)) := by
  subst hi
  unfold storeAt
  rw [if_pos (by simp only [List.length_append]; omega), List.take_left, ← List.drop_drop,
    List.drop_left, hlen, List.drop_left]

theorem storeAt_length {s bs s' : List UInt8} {i : Nat} (h : storeAt s i bs = some s') :
    s'.length = s.length := by
  unfold storeAt at h
  split at h
  · rename_i hle
    injection h with h
    subst h
    simp only [List.length_append, List.length_take, List.length_drop]
    omega
  · cases h

/-- A store that is defined stays inside the object. -/
theorem storeAt_fits {s bs s' : List UInt8} {i : Nat} (h : storeAt s i bs = some s') :
    i + bs.length ≤ s.length := by
  unfold storeAt at h
  split at h
  · assumption
  · cases h

/-! ## Words -/

/-- Which end of a word comes first in memory. -/
inductive ByteOrder where
  | little
  | big
  deriving DecidableEq, Repr

/-- The bytes of a word, least significant first. -/
def leBytes (w : UInt32) : List UInt8 :=
  [.ofNat w.toNat, .ofNat (w.toNat / 2 ^ 8), .ofNat (w.toNat / 2 ^ 16), .ofNat (w.toNat / 2 ^ 24)]

/-- The word with these bytes, least significant first. -/
def ofLeBytes : List UInt8 → UInt32
  | [a, b, c, d] => .ofNat (a.toNat + 2 ^ 8 * b.toNat + 2 ^ 16 * c.toNat + 2 ^ 24 * d.toNat)
  | _ => 0

/-- A word as a host of this byte order keeps it. -/
def toBytes : ByteOrder → UInt32 → List UInt8
  | .little, w => leBytes w
  | .big, w => (leBytes w).reverse

/-- The word a host of this byte order reads from four bytes. -/
def ofBytes : ByteOrder → List UInt8 → UInt32
  | .little, bs => ofLeBytes bs
  | .big, bs => ofLeBytes bs.reverse

@[simp] theorem toBytes_length (o : ByteOrder) (w : UInt32) : (toBytes o w).length = 4 := by
  cases o <;> rfl

theorem ofLeBytes_leBytes (w : UInt32) : ofLeBytes (leBytes w) = w := by
  have hw := w.toNat_lt
  apply UInt32.toNat_inj.mp
  simp only [leBytes, ofLeBytes, UInt8.toNat_ofNat', UInt32.toNat_ofNat']
  omega

theorem leBytes_ofLeBytes (a b c d : UInt8) : leBytes (ofLeBytes [a, b, c, d]) = [a, b, c, d] := by
  have ha := a.toNat_lt
  have hb := b.toNat_lt
  have hc := c.toNat_lt
  have hd := d.toNat_lt
  simp only [leBytes, ofLeBytes, UInt32.toNat_ofNat', List.cons.injEq, and_true,
    ← UInt8.toNat_inj, UInt8.toNat_ofNat']
  omega

theorem ofBytes_toBytes (o : ByteOrder) (w : UInt32) : ofBytes o (toBytes o w) = w := by
  cases o with
  | little => exact ofLeBytes_leBytes w
  | big => rw [toBytes, ofBytes, List.reverse_reverse, ofLeBytes_leBytes]

/-- Host to network order. -/
def htonl : ByteOrder → UInt32 → UInt32
  | .little, w => ofLeBytes (leBytes w).reverse
  | .big, w => w

/-- Network to host order. -/
def ntohl : ByteOrder → UInt32 → UInt32 := htonl

/-- **Network order.**  What a host writes for `htonl w` does not depend on the host: it is the
    word, most significant byte first. -/
theorem toBytes_htonl (o : ByteOrder) (w : UInt32) : toBytes o (htonl o w) = toBytes .big w := by
  cases o with
  | little => exact leBytes_ofLeBytes ..
  | big => rfl

/-- Reading network order back, on any host. -/
theorem ntohl_ofBytes (o : ByteOrder) (w : UInt32) : ntohl o (ofBytes o (toBytes .big w)) = w := by
  cases o with
  | little =>
    show ofLeBytes (leBytes (ofLeBytes (leBytes w).reverse)).reverse = w
    have h : leBytes (ofLeBytes (leBytes w).reverse) = (leBytes w).reverse :=
      leBytes_ofLeBytes ..
    rw [h, List.reverse_reverse, ofLeBytes_leBytes]
  | big => exact ofBytes_toBytes .big w

/-- What is read from network order is what the bytes stand for, on any host. -/
theorem toBytes_ntohl (o : ByteOrder) {bs : List UInt8} (hlen : bs.length = 4) :
    toBytes .big (ntohl o (ofBytes o bs)) = bs := by
  obtain ⟨a, b, c, d, rfl⟩ : ∃ a b c d, bs = [a, b, c, d] := by
    match bs, hlen with
    | [a, b, c, d], _ => exact ⟨a, b, c, d, rfl⟩
  cases o with
  | little =>
    show (leBytes (ofLeBytes (leBytes (ofLeBytes [a, b, c, d])).reverse)).reverse = _
    have h : leBytes (ofLeBytes [d, c, b, a]) = [d, c, b, a] := leBytes_ofLeBytes ..
    rw [leBytes_ofLeBytes, List.reverse_cons, List.reverse_cons, List.reverse_cons,
      List.reverse_singleton]
    exact congrArg List.reverse h
  | big =>
    show (leBytes (ofLeBytes [d, c, b, a])).reverse = _
    rw [leBytes_ofLeBytes]
    rfl

/-! ## The heap -/

/-- A pointer: null, or an offset into a block. -/
inductive Ptr where
  | null
  | addr (block off : Nat)
  deriving DecidableEq, Repr

/-- The pointer `i` bytes on. -/
def Ptr.add : Ptr → Nat → Ptr
  | .null, _ => .null
  | .addr b off, i => .addr b (off + i)

/-- The pointer moved by `i` bytes either way; there is none in front of its block. -/
def Ptr.shift : Ptr → Int → Ptr
  | .null, _ => .null
  | .addr b off, i => if 0 ≤ off + i then .addr b (off + i).toNat else .null

/-- `p - q`, for pointers into one block. -/
def ptrdiff : Ptr → Ptr → Int
  | .addr _ i, .addr _ j => i - j
  | _, _ => 0

@[simp] theorem Ptr.add_zero (p : Ptr) : p.add 0 = p := by
  cases p <;> rfl

/-- Forwards. -/
@[simp] theorem Ptr.shift_natCast (p : Ptr) (i : Nat) : p.shift i = p.add i := by
  cases p with
  | null => rfl
  | addr b off =>
    have hpos : (0 : Int) ≤ off + i := by omega
    rw [Ptr.shift, if_pos hpos]
    exact congrArg (Ptr.addr b) (Int.toNat_natCast (off + i))

@[simp] theorem Ptr.shift_zero (p : Ptr) : p.shift 0 = p :=
  (p.shift_natCast 0).trans p.add_zero

@[simp] theorem ptrdiff_self (p : Ptr) : ptrdiff p p = 0 := by
  cases p with
  | null => rfl
  | addr b off => exact sub_self _

theorem ptrdiff_add {p : Ptr} (hne : p ≠ .null) (i : Nat) : ptrdiff (p.add i) p = i := by
  cases p with
  | null => exact absurd rfl hne
  | addr b off =>
    show ((off + i : Nat) : Int) - off = i
    omega

/-- Blocks by number; `next` is the number of the next one to be allocated. -/
structure Heap where
  next : Nat
  block : Nat → Option (List UInt8)

/-- No blocks. -/
def Heap.empty : Heap := ⟨0, fun _ => none⟩

/-- `bs` as a fresh block. -/
def Heap.alloc (h : Heap) (bs : List UInt8) : Ptr × Heap :=
  (.addr h.next 0, ⟨h.next + 1, Function.update h.block h.next (some bs)⟩)

/-- `free p`: nothing for the null pointer, undefined inside a block or on a dead one. -/
def Heap.free (h : Heap) : Ptr → Option Heap
  | .null => some h
  | .addr b 0 =>
    match h.block b with
    | some _ => some ⟨h.next, Function.update h.block b none⟩
    | none => none
  | .addr _ (_ + 1) => none

/-- `n` bytes read at `p`. -/
def Heap.load (h : Heap) (p : Ptr) (n : Nat) : Option (List UInt8) :=
  match p with
  | .null => none
  | .addr b off => (h.block b).bind fun s => loadAt s off n

/-- A result computed from the bytes from `p` to the end of its block. -/
def Heap.view {β : Type} (h : Heap) (p : Ptr) (f : List UInt8 → Option β) : Option β :=
  match p with
  | .null => none
  | .addr b off => (h.block b).bind fun s => if off ≤ s.length then f (s.drop off) else none

/-- The object at `p` rewritten by `f`, which is given the bytes from `p` to the end of the
    block and may keep a result. -/
def Heap.modify {β : Type} (h : Heap) (p : Ptr)
    (f : List UInt8 → Option (List UInt8 × β)) : Option (Heap × β) :=
  match p with
  | .null => none
  | .addr b off => (h.block b).bind fun s =>
      if off ≤ s.length then
        (f (s.drop off)).map fun r =>
          (⟨h.next, Function.update h.block b (some (s.take off ++ r.1))⟩, r.2)
      else none

/-- `bs` stored at `p`. -/
def Heap.store (h : Heap) (p : Ptr) (bs : List UInt8) : Option Heap :=
  (h.modify p fun s => (storeAt s 0 bs).map fun s' => (s', ())).map Prod.fst

section heap

variable {h : Heap} {b : Nat}

theorem Heap.load_addr {s : List UInt8} {off n : Nat} (hb : h.block b = some s)
    (hle : off + n ≤ s.length) : h.load (.addr b off) n = some ((s.drop off).take n) := by
  simp only [Heap.load, hb, Option.bind_some, loadAt, if_pos hle]

theorem Heap.view_addr {β : Type} {s : List UInt8} {f : List UInt8 → Option β}
    (hb : h.block b = some s) : h.view (.addr b 0) f = f s := by
  simp only [Heap.view, hb, Option.bind_some, Nat.zero_le, if_true, List.drop_zero]

theorem Heap.modify_addr {β : Type} {s s' : List UInt8} {r : β}
    {f : List UInt8 → Option (List UInt8 × β)} (hb : h.block b = some s)
    (hf : f s = some (s', r)) :
    h.modify (.addr b 0) f = some (⟨h.next, Function.update h.block b (some s')⟩, r) := by
  simp only [Heap.modify, hb, Option.bind_some, Nat.zero_le, if_true, List.drop_zero, hf,
    Option.map_some, List.take_zero, List.nil_append]

theorem Heap.modify_none {β : Type} {s : List UInt8} {f : List UInt8 → Option (List UInt8 × β)}
    (hb : h.block b = some s) (hf : f s = none) : h.modify (.addr b 0) f = none := by
  simp only [Heap.modify, hb, Option.bind_some, Nat.zero_le, if_true, List.drop_zero, hf,
    Option.map_none]

/-- A store inside a block replaces the bytes it covers and no others. -/
theorem Heap.store_addr {pre bs mid post : List UInt8} {off : Nat}
    (hb : h.block b = some (pre ++ (mid ++ post))) (hoff : off = pre.length)
    (hlen : bs.length = mid.length) :
    h.store (.addr b off) bs =
      some ⟨h.next, Function.update h.block b (some (pre ++ (bs ++ post)))⟩ := by
  subst hoff
  have hst : storeAt (mid ++ post) 0 bs = some (bs ++ post) := by
    simpa using storeAt_append (List.length_nil (α := UInt8)).symm hlen
  simp only [Heap.store, Heap.modify, hb, Option.bind_some, List.drop_left, List.take_left, hst,
    Option.map_some]
  rw [if_pos (by simp)]
  rfl

/-- A store inside a block is defined. -/
theorem Heap.exists_store {s bs : List UInt8} {off : Nat} (hb : h.block b = some s)
    (hle : off + bs.length ≤ s.length) : ∃ h', h.store (.addr b off) bs = some h' := by
  have hsplit : s = s.take off ++
      ((s.drop off).take bs.length ++ (s.drop off).drop bs.length) := by
    rw [List.take_append_drop, List.take_append_drop]
  rw [hsplit] at hb
  refine ⟨_, Heap.store_addr hb ?_ ?_⟩
  · rw [List.length_take]
    omega
  · rw [List.length_take, List.length_drop]
    omega

end heap

end Memory
