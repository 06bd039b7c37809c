/-
  `MP_memcpy.c`: copies in three parts, the middle one from an aligned address on.

  `memcpy_8` goes by the source and `memcpy_16` by the destination, the latter cut down to an int.
  The distance to the boundary is taken from such a signed number, where the remainder may be
  negative, so it may be more than one block.

  1. A head up to the next boundary, whole blocks, and what is left (`splitCopy`), with the number
     the distance is computed from as an argument; the two functions are its instances.

  2. **The parts adjoin** and cover the range, whatever the distance (`splitCopy_chunks`): the
     head is only made where it fits, and the blocks begin where it ends.  By the rule for copies
     in parts of `Lib.Copy` each function is then one `memcpy`, wherever the boundaries are.

  3. **Alignment** (`aligned`).  A signed number stands for its address up to whole blocks, which
     is enough: behind a head the main part is aligned (`split_copies`), also where the head was
     longer than a block (`split_copies_negative`).
-/
import NetPipe.Lib.Copy
import Mathlib.Data.BitVec

namespace NetPipe.MpMemcpy

open Copy

/-! ## The functions -/

/-- An address. -/
abbrev Address := BitVec 64

/-- Which part of the range a call copies. -/
inductive Part where
  | head
  | main
  | tail
  deriving DecidableEq, Repr

/-- The whole blocks, and what is left of `nbytes` behind them. -/
def splitCopy.blocks (align : Int) (dest src : Address) (nbytes : Int) :
    List (Part × Call Address) :=
  let nb_after := nbytes.tmod align
  let nbytes := nbytes - nb_after
  (if nbytes > 0 then [(.main, ⟨dest, src, nbytes.toNat⟩)] else []) ++
    if nb_after > 0 then [(.tail, ⟨dest + nbytes, src + nbytes, nb_after.toNat⟩)] else []

/-- The calls of `memcpy` that copy `nbytes` bytes in blocks of `align`, where `addr` is the number
    the distance to the boundary is computed from. -/
def splitCopy (align addr : Int) (dest src : Address) (nbytes : Int) :
    List (Part × Call Address) :=
  let nb_b4 := align - addr.tmod align
  if nb_b4 ≠ align ∧ nb_b4 ≤ nbytes then
    (.head, ⟨dest, src, nb_b4.toNat⟩) ::
      splitCopy.blocks align (dest + nb_b4) (src + nb_b4) (nbytes - nb_b4)
  else splitCopy.blocks align dest src nbytes

/-- `memcpy_8(destination, source, nbytes)`: by the source, a `long int`. -/
def memcpy_8 (destination source : Address) (nbytes : Int) : List (Part × Call Address) :=
  splitCopy 8 source.toInt destination source nbytes

/-- `memcpy_16(destination, source, nbytes)`: by the destination, cut down to an `int`. -/
def memcpy_16 (destination source : Address) (nbytes : Int) : List (Part × Call Address) :=
  splitCopy 16 (destination.setWidth 32).toInt destination source nbytes

/-- Memory. -/
abbrev Mem := Address → UInt8

/-- The calls made. -/
def run (calls : List (Part × Call Address)) : Mem → Option Mem := copies (calls.map Prod.snd)

/-- `LONGMSGSIZE`, 2.5 * 131072. -/
def longMsgSize : Int := 327680

/-- `MP_memcpy(dst, src, nbytes)`, with `COPY_TYPE` as it is set; `ntcopy` is the copy for long
    messages. -/
def MP_memcpy (ntcopy : Address → Address → Int → Mem → Option Mem) (dst src : Address)
    (nbytes : Int) : Mem → Option Mem :=
  if nbytes > longMsgSize then ntcopy dst src nbytes else run (memcpy_16 dst src nbytes)

/-! ## The parts -/

section parts

variable {align addr nbytes : Int} {dest src : Address}

theorem cast_toNat {k : Int} (hk : 0 ≤ k) : ((k.toNat : Nat) : Address) = (k : Address) := by
  obtain ⟨n, rfl⟩ := Int.eq_ofNat_of_zero_le hk
  exact (Int.cast_natCast n).symm

theorem blocks_chunks (halign : 0 < align) (hn : 0 ≤ nbytes) (dest src : Address) :
    ∃ ns, (splitCopy.blocks align dest src nbytes).map Prod.snd = chunks dest src ns ∧
      ns.sum = nbytes.toNat := by
  have hafter := Int.tmod_nonneg align hn
  have hmain : nbytes.tmod align ≤ nbytes := by
    obtain ⟨n, rfl⟩ := Int.eq_ofNat_of_zero_le hn
    obtain ⟨a, rfl⟩ := Int.eq_ofNat_of_zero_le halign.le
    rw [← Int.ofNat_tmod]
    exact Int.ofNat_le.mpr (Nat.mod_le n a)
  unfold splitCopy.blocks
  generalize nbytes.tmod align = after at hafter hmain
  by_cases hpos : nbytes - after > 0
  · by_cases hrest : after > 0
    · refine ⟨[(nbytes - after).toNat, after.toNat], ?_, ?_⟩
      · simp only [if_pos hpos, if_pos hrest, chunks, cast_toNat hpos.le]
        rfl
      · simp only [List.sum_cons, List.sum_nil]
        omega
    · refine ⟨[(nbytes - after).toNat], ?_, ?_⟩
      · simp only [if_pos hpos, if_neg hrest]
        rfl
      · simp only [List.sum_cons, List.sum_nil]
        omega
  · -- no whole block: the tail starts where the main part would
    have hzero : nbytes - after = 0 := by omega
    by_cases hrest : after > 0
    · refine ⟨[after.toNat], ?_, ?_⟩
      · simp only [hzero, if_neg (lt_irrefl (0 : Int)), if_pos hrest]
        simp [chunks]
      · simp only [List.sum_cons, List.sum_nil]
        omega
    · refine ⟨[], ?_, ?_⟩
      · simp only [if_neg hpos, if_neg hrest]
        rfl
      · simp only [List.sum_nil]
        omega

/-- The distance to the boundary is positive. -/
theorem distance_pos (halign : 0 < align) (addr : Int) : 0 < align - addr.tmod align := by
  have := Int.tmod_lt_of_pos addr halign
  omega

/-- **The parts adjoin** and cover the range: their lengths add up to `nbytes`, each begins
    where the one before it ends, and those of no length are left out. -/
theorem splitCopy_chunks (halign : 0 < align) (hn : 0 ≤ nbytes) (addr : Int)
    (dest src : Address) :
    ∃ ns, (splitCopy align addr dest src nbytes).map Prod.snd = chunks dest src ns ∧
      ns.sum = nbytes.toNat := by
  have hpos := distance_pos halign addr
  unfold splitCopy
  by_cases hhead : align - addr.tmod align ≠ align ∧ align - addr.tmod align ≤ nbytes
  · simp only [if_pos hhead]
    obtain ⟨-, hle⟩ := hhead
    generalize align - addr.tmod align = b4 at hpos hle
    obtain ⟨ns, hns, hsum⟩ :=
      blocks_chunks halign (Int.sub_nonneg_of_le hle) (dest + b4) (src + b4)
    refine ⟨b4.toNat :: ns, ?_, ?_⟩
    · rw [List.map_cons, hns, chunks, cast_toNat hpos.le]
    · rw [List.sum_cons, hsum]
      omega
  · simp only [if_neg hhead]
    exact blocks_chunks halign hn dest src

/-- Any such copy is one `memcpy`. -/
theorem run_splitCopy {m : Mem} (halign : 0 < align) (hn : 0 ≤ nbytes)
    (hap : Apart dest src nbytes.toNat) :
    run (splitCopy align addr dest src nbytes) m = memcpy m dest src nbytes.toNat := by
  obtain ⟨ns, hns, hsum⟩ := splitCopy_chunks halign hn addr dest src
  rw [run, hns, ← hsum]
  rw [← hsum] at hap
  exact copies_chunks hap

/-! ## Alignment -/

/-- There is no head among the blocks. -/
theorem head_not_mem_blocks {c : Call Address} :
    (.head, c) ∉ splitCopy.blocks align dest src nbytes := by
  intro hc
  rcases List.mem_append.mp hc with hc | hc
  · split at hc
    · cases List.mem_singleton.mp hc
    · cases hc
  · split at hc
    · cases List.mem_singleton.mp hc
    · cases hc

theorem main_mem_blocks {c : Call Address}
    (hc : (.main, c) ∈ splitCopy.blocks align dest src nbytes) : c.dest = dest ∧ c.src = src := by
  rcases List.mem_append.mp hc with hc | hc
  · split at hc
    · cases List.mem_singleton.mp hc
      exact ⟨rfl, rfl⟩
    · cases hc
  · split at hc
    · cases List.mem_singleton.mp hc
    · cases hc

/-- The main part starts where the head ends. -/
theorem main_behind_head {c c' : Call Address}
    (hmain : (.main, c) ∈ splitCopy align addr dest src nbytes)
    (hhead : (.head, c') ∈ splitCopy align addr dest src nbytes) :
    c.dest = dest + ((align - addr.tmod align : Int) : Address) ∧
      c.src = src + ((align - addr.tmod align : Int) : Address) := by
  unfold splitCopy at hmain hhead
  by_cases hb4 : align - addr.tmod align ≠ align ∧ align - addr.tmod align ≤ nbytes
  · simp only [if_pos hb4] at hmain
    rcases List.mem_cons.mp hmain with he | hmain
    · cases he
    · exact main_mem_blocks hmain
  · simp only [if_neg hb4] at hhead
    exact absurd hhead head_not_mem_blocks

/-- The boundary is reached where the number stands for the address, up to whole blocks. -/
theorem aligned {p : Address} {a : Nat} (haddr : (a : Int) ∣ p.toNat - addr)
    (hpow : (a : Int) ∣ 2 ^ 64) :
    a ∣ (p + ((a - addr.tmod a : Int) : Address)).toNat := by
  have hsum : (a : Int) ∣ p.toNat + (a - addr.tmod a) := by
    have : (p.toNat : Int) + (a - addr.tmod a) = (p.toNat - addr) + (addr - addr.tmod a) + a := by
      omega
    rw [this]
    exact Int.dvd_add (Int.dvd_add haddr Int.dvd_self_sub_tmod) (Int.dvd_refl _)
  generalize (a - addr.tmod a : Int) = k at hsum
  have hcast : ((k : Address)).toNat = (k % 2 ^ 64).toNat := BitVec.toNat_ofInt k
  have hnat : ((p + (k : Address)).toNat : Int) = (p.toNat + k) % 2 ^ 64 := by
    rw [BitVec.toNat_add, hcast]
    omega
  rw [← Int.natCast_dvd_natCast, hnat, Int.emod_def]
  exact Int.dvd_sub hsum (Int.dvd_trans hpow (Int.dvd_mul_right _ _))

/-- Cutting an address down to 32 bits and giving it a sign moves it by whole blocks of 16. -/
theorem dvd_setWidth (p : Address) : (16 : Int) ∣ p.toNat - (p.setWidth 32).toInt := by
  rw [BitVec.toInt_eq_toNat_cond, BitVec.toNat_setWidth]
  split <;> omega

theorem dvd_toInt (p : Address) : (8 : Int) ∣ p.toNat - p.toInt := by
  rw [BitVec.toInt_eq_toNat_cond]
  split <;> omega

end parts

/-! ## The copies -/

/-- **The split copies are `memcpy`**, for ranges apart and any number of bytes: the bytes are
    there, and nothing else is changed.  Behind a head, the main part of `memcpy_16` has a
    destination divisible by 16, and that of `memcpy_8` a source divisible by 8. -/
theorem split_copies (ntcopy : Address → Address → Int → Mem → Option Mem) (dest src : Address)
    (nbytes : Int) (m : Mem) (hn : 0 ≤ nbytes) (hap : Apart dest src nbytes.toNat) :
    (∃ m', run (memcpy_8 dest src nbytes) m = some m' ∧ Copied m m' dest src nbytes.toNat) ∧
    (∃ m', run (memcpy_16 dest src nbytes) m = some m' ∧ Copied m m' dest src nbytes.toNat) ∧
    (nbytes ≤ longMsgSize → ∃ m', MP_memcpy ntcopy dest src nbytes m = some m' ∧
      Copied m m' dest src nbytes.toNat) ∧
    (∀ c c', (.main, c) ∈ memcpy_8 dest src nbytes → (.head, c') ∈ memcpy_8 dest src nbytes →
      8 ∣ c.src.toNat) ∧
    ∀ c c', (.main, c) ∈ memcpy_16 dest src nbytes → (.head, c') ∈ memcpy_16 dest src nbytes →
      16 ∣ c.dest.toNat := by
  obtain ⟨m', hm'⟩ := hap.exists_memcpy m
  have hcopied := (memcpy_eq_some.mp hm').2
  have h8 : run (memcpy_8 dest src nbytes) m = some m' :=
    (run_splitCopy (by decide) hn hap).trans hm'
  have h16 : run (memcpy_16 dest src nbytes) m = some m' :=
    (run_splitCopy (by decide) hn hap).trans hm'
  refine ⟨⟨m', h8, hcopied⟩, ⟨m', h16, hcopied⟩, ?_, ?_, ?_⟩
  · intro hle
    refine ⟨m', ?_, hcopied⟩
    rw [MP_memcpy, if_neg (not_lt.mpr hle), h16]
  · intro c c' hmain hhead
    rw [(main_behind_head hmain hhead).2]
    exact aligned (dvd_toInt src) (by decide)
  · intro c c' hmain hhead
    rw [(main_behind_head hmain hhead).1]
    exact aligned (dvd_setWidth dest) (by decide)

/-- A destination that is negative as an `int`: the head has 31 bytes. -/
example : (memcpy_16 0x80000001 0x1000 50).map (fun c => (c.1, c.2.n)) =
    [(.head, 31), (.main, 16), (.tail, 3)] := by
  decide

/-- The same copy, through `MP_memcpy`. -/
theorem split_copies_negative :
    ∃ m', MP_memcpy (fun dst src n m => memcpy m dst src n.toNat) 0x80000001 0x1000 50
        (fun _ => 0) = some m' ∧
      Copied (fun _ => 0) m' (0x80000001 : Address) 0x1000 50 := by
  obtain ⟨-, -, hcopy, -, -⟩ := split_copies (fun dst src n m => memcpy m dst src n.toNat)
    0x80000001 0x1000 50 (fun _ => 0) (by decide) (by decide +kernel)
  exact hcopy (by decide)

end NetPipe.MpMemcpy
