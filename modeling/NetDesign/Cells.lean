import Mathlib.Data.List.Basic
import Mathlib.Algebra.Order.Group.Int
import Mathlib.Tactic.Ring

/-!
# Byte buffers

A buffer is addressed by the offset from its first byte. Offsets outside the array it is
declared with belong to whatever lies next to it, so the map is total; a theorem about a
program says separately that its accesses stay inside.
-/

namespace NetDesign

abbrev Byte := UInt8

/-- The bytes of a string literal. -/
def ascii (text : String) : List Byte := text.toList.map fun c => UInt8.ofNat c.toNat

/-- An `int` passed as a `size_t`. -/
def sizeT (x : Int) : Nat := (x % 2 ^ 64).toNat

theorem sizeT_of_nonneg {x : Int} (h0 : 0 ≤ x) (h : x < 2 ^ 64) : (sizeT x : Int) = x := by
  rw [sizeT, Int.emod_eq_of_lt h0 h, Int.toNat_of_nonneg h0]

theorem sizeT_natCast {n : Nat} (h : n < 2 ^ 64) : sizeT n = n :=
  Int.natCast_inj.1 (sizeT_of_nonneg (Int.natCast_nonneg n) (Int.ofNat_lt.2 h))

/-- The cells around an array, by their offset from its start. -/
def Cells (β : Type*) := Int → β

namespace Cells

variable {β : Type*} {m m' : Cells β} {off i : Int} {bs : List β} {n : Nat}

/-- Store `bs` from offset `off` on. -/
def write (m : Cells β) (off : Int) (bs : List β) : Cells β := fun i =>
  if off ≤ i then (bs[(i - off).toNat]?).getD (m i) else m i

/-- The `n` values from offset `off` on. -/
def read (m : Cells β) (off : Int) (n : Nat) : List β :=
  (List.range n).map fun k : Nat => m (off + k)

/-- `memset`. -/
def fill (m : Cells β) (off : Int) (n : Nat) (b : β) : Cells β :=
  m.write off (List.replicate n b)

@[simp] theorem length_read : (m.read off n).length = n := by simp [read]

@[simp] theorem write_nil : m.write off [] = m := by
  funext i
  simp [write]

/-- A read sees only the cells it covers. -/
theorem read_congr (h : ∀ i, off ≤ i → i < off + n → m i = m' i) :
    m.read off n = m'.read off n := by
  refine List.map_congr_left fun k hk => h _ (by omega) ?_
  have := List.mem_range.1 hk
  omega

theorem write_apply_of_outside (h : i < off ∨ off + bs.length ≤ i) : m.write off bs i = m i := by
  unfold write
  split_ifs with hi
  · rw [List.getElem?_eq_none (by omega), Option.getD_none]
  · rfl

theorem write_apply_of_inside {k : Nat} (h : k < bs.length) :
    m.write off bs (off + k) = bs[k] := by
  have hk : (off + k - off).toNat = k := by omega
  rw [write, if_pos (by omega), hk, List.getElem?_eq_getElem h, Option.getD_some]

theorem fill_apply_of_inside {b : β} (h : off ≤ i) (h' : i < off + n) :
    m.fill off n b i = b := by
  obtain ⟨k, hk⟩ := Int.eq_ofNat_of_zero_le (Int.sub_nonneg_of_le h)
  obtain rfl : i = off + k := by omega
  rw [fill, write_apply_of_inside (by rw [List.length_replicate]; omega), List.getElem_replicate]

/-- What was written is read back. -/
@[simp] theorem read_write_self : (m.write off bs).read off bs.length = bs := by
  refine List.ext_getElem (by simp) fun k hk hk' => ?_
  simp [read, write_apply_of_inside hk']

theorem read_write_of_outside (h : off + n ≤ i) : (m.write i bs).read off n = m.read off n :=
  read_congr fun _ _ _ => write_apply_of_outside (by omega)

theorem take_read {k : Nat} : (m.read off n).take k = m.read off (min k n) := by
  simp [read, ← List.map_take, List.take_range]

theorem read_take_write {k : Nat} (h : k ≤ bs.length) :
    (m.write off bs).read off k = bs.take k := by
  have hself : (m.write off bs).read off bs.length = bs := read_write_self
  rw [← Nat.min_eq_left h, ← take_read, hself, Nat.min_eq_left h]

theorem getElem_read {k : Nat} (h : k < (m.read off n).length) :
    (m.read off n)[k] = m (off + k) := by
  simp [read]

end Cells

end NetDesign
