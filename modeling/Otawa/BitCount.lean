import Mathlib.Data.BitVec
import Mathlib.Data.List.FinRange

namespace Otawa

def countSet {width : Nat} (w : BitVec width) : Nat := (List.range width).countP fun j => w.getLsbD j

def onesTable : List Nat := [
  0,1,1,2,1,2,2,3,1,2,2,3,2,3,3,4,
  1,2,2,3,2,3,3,4,2,3,3,4,3,4,4,5,
  1,2,2,3,2,3,3,4,2,3,3,4,3,4,4,5,
  2,3,3,4,3,4,4,5,3,4,4,5,4,5,5,6,
  1,2,2,3,2,3,3,4,2,3,3,4,3,4,4,5,
  2,3,3,4,3,4,4,5,3,4,4,5,4,5,5,6,
  2,3,3,4,3,4,4,5,3,4,4,5,4,5,5,6,
  3,4,4,5,4,5,5,6,4,5,5,6,5,6,6,7,
  1,2,2,3,2,3,3,4,2,3,3,4,3,4,4,5,
  2,3,3,4,3,4,4,5,3,4,4,5,4,5,5,6,
  2,3,3,4,3,4,4,5,3,4,4,5,4,5,5,6,
  3,4,4,5,4,5,5,6,4,5,5,6,5,6,6,7,
  2,3,3,4,3,4,4,5,3,4,4,5,4,5,5,6,
  3,4,4,5,4,5,5,6,4,5,5,6,5,6,6,7,
  3,4,4,5,4,5,5,6,4,5,5,6,5,6,6,7,
  4,5,5,6,5,6,6,7,5,6,6,7,6,7,7,8]

/-- `ones`, by the width of its argument. -/
def ones8 (i : BitVec 8) : Nat := onesTable.getD i.toNat 0
def ones16 (i : BitVec 16) : Nat := ones8 (i.setWidth 8) + ones8 ((i >>> 8).setWidth 8)
def ones32 (i : BitVec 32) : Nat := ones16 (i.setWidth 16) + ones16 ((i >>> 16).setWidth 16)

/-- `BitCounter::counts`. -/
def bitCounts (i : BitVec 8) : Nat :=
  ([1,2,4,8,16,32,64,128] : List (BitVec 8)).foldl (fun count j => if i &&& j ≠ 0 then count + 1 else count) 0

theorem ones8_eq : ∀ i : BitVec 8, ones8 i = countSet i := by decide +kernel
theorem bitCounts_eq : ∀ i : BitVec 8, bitCounts i = countSet i := by decide +kernel

theorem countP_finRange (n : Nat) (p : Nat → Bool) :
    (List.finRange n).countP (fun i : Fin n => p i.val) = (List.range n).countP p := by
  have values : List.range n = (List.finRange n).map Fin.val := by simp
  rw [values,List.countP_map]; rfl

theorem countSet_parts {low high : Nat} (w : BitVec (low + high)) :
    countSet w = countSet (w.setWidth low) + countSet ((w >>> low).setWidth high) := by
  rw [countSet,List.range_add,List.countP_append,List.countP_map]
  congr 1
  · refine List.countP_congr fun j inside => ?_
    rw [List.mem_range] at inside
    simp [inside]
  · refine List.countP_congr fun j inside => ?_
    rw [List.mem_range] at inside
    simp [inside]

theorem ones16_eq (i : BitVec 16) : ones16 i = countSet i := by
  rw [ones16,ones8_eq,ones8_eq]
  exact (@countSet_parts 8 8 i).symm

theorem ones32_eq (i : BitVec 32) : ones32 i = countSet i := by
  rw [ones32,ones16_eq,ones16_eq]
  exact (@countSet_parts 16 16 i).symm

end Otawa
