import Mathlib.Data.List.Nodup
import Mathlib.Data.List.Basic
import Mathlib.Tactic.Push

/-!
One set of a cache with least-recently-used replacement: the list of its distinct
blocks from the newest to the oldest, at most as many as there are ways. `Within`
bounds the position of a block; the lemmas say how an access and a removal move it.
-/
namespace Otawa.LruSet

/-- The blocks of a set of at least one way, newest first. -/
structure Lru (B : Type*) (A : ℕ) where
  blocks : List B
  nodup : blocks.Nodup
  bound : blocks.length ≤ A
  ways : 0 < A

variable {B : Type*} {A : ℕ}

/-- The block is present, at a position not greater than `n`. -/
def Within (c : Lru B A) (x : B) (n : ℕ) : Prop := x ∈ c.blocks.take (n + 1)

variable {c : Lru B A}

theorem Within.mono {x : B} {m n : ℕ} (within : Within c x m) (le : m ≤ n) : Within c x n :=
  (List.take_subset_take_left _ (Nat.succ_le_succ le)) within

theorem within_zero {x : B} (within : Within c x 0) {y : B} (other : Within c y 0) : x = y := by
  unfold Within at within other
  cases blocks : c.blocks with
  | nil => simp [blocks] at within
  | cons z rest =>
    simp only [blocks,Nat.zero_add,List.take_succ_cons,List.take_zero,List.mem_singleton] at within other
    rw [within,other]

def Lru.remove (c : Lru B A) (keep : B → Bool) : Lru B A where
  blocks := c.blocks.filter keep
  nodup := c.nodup.filter _
  bound := Nat.le_trans (List.length_filter_le _ _) c.bound
  ways := c.ways

theorem Within.remove {x : B} {n : ℕ} (within : Within c x n) {keep : B → Bool}
    (kept : keep x = true) : Within (c.remove keep) x n := by
  have split : c.blocks.filter keep = (c.blocks.take (n + 1)).filter keep ++ (c.blocks.drop (n + 1)).filter keep := by
    rw [← List.filter_append,List.take_append_drop]
  have short : ((c.blocks.take (n + 1)).filter keep).length ≤ n + 1 :=
    Nat.le_trans (List.length_filter_le _ _) (List.length_take_le _ _)
  show x ∈ (c.blocks.filter keep).take (n + 1)
  rw [split,List.take_append,List.take_of_length_le short]
  exact List.mem_append_left _ (List.mem_filter.mpr ⟨within,kept⟩)

variable [DecidableEq B]

/-- An access brings the block to the front; the oldest block leaves a full set. -/
def Lru.access (c : Lru B A) (b : B) : Lru B A where
  blocks := (b :: c.blocks.erase b).take A
  nodup := by
    have distinct : (b :: c.blocks.erase b).Nodup :=
      List.nodup_cons.mpr ⟨c.nodup.not_mem_erase,c.nodup.erase b⟩
    exact distinct.sublist (List.take_sublist _ _)
  bound := List.length_take_le _ _
  ways := c.ways

def Lru.accesses (c : Lru B A) (bs : List B) : Lru B A := bs.foldl Lru.access c

theorem within_access {b x : B} {n : ℕ} (fits : n < A) :
    Within (c.access b) x n ↔ x = b ∨ x ∈ (c.blocks.erase b).take n := by
  show x ∈ ((b :: c.blocks.erase b).take A).take (n + 1) ↔ _
  rw [List.take_take,Nat.min_eq_left fits,List.take_succ_cons,List.mem_cons]

theorem within_access_self (c : Lru B A) (b : B) : Within (c.access b) b 0 :=
  (within_access c.ways).mpr (.inl rfl)

theorem Within.access {x : B} {n : ℕ} (within : Within c x n) (fits : n + 1 < A) (b : B) :
    Within (c.access b) x (n + 1) := by
  rw [within_access fits]
  by_cases same : x = b
  · exact .inl same
  right
  have split : c.blocks.erase b = (c.blocks.take (n + 1) ++ c.blocks.drop (n + 1)).erase b := by
    rw [List.take_append_drop]
  rw [split]
  by_cases front : b ∈ c.blocks.take (n + 1)
  · rw [List.erase_append_left _ front,List.take_append,List.take_of_length_le]
    · exact List.mem_append_left _ ((List.mem_erase_of_ne same).mpr within)
    · exact Nat.le_trans List.length_erase_le (List.length_take_le _ _)
  · rw [List.erase_append_right _ front,List.take_append,List.take_of_length_le (List.length_take_le _ _)]
    exact List.mem_append_left _ within

theorem Within.access_younger {x b : B} {m n : ℕ} (within : Within c x n) (fits : n < A)
    (accessed : Within c b m) (younger : m ≤ n) : Within (c.access b) x n := by
  rw [within_access fits]
  by_cases same : x = b
  · exact .inl same
  right
  have front : b ∈ c.blocks.take (n + 1) := accessed.mono younger
  have split : c.blocks.erase b = (c.blocks.take (n + 1)).erase b ++ c.blocks.drop (n + 1) := by
    rw [← List.erase_append_left _ front,List.take_append_drop]
  have short : ((c.blocks.take (n + 1)).erase b).length ≤ n := by
    rw [List.length_erase_of_mem front]
    have := List.length_take_le (n + 1) c.blocks
    omega
  rw [split,List.take_append,List.take_of_length_le short]
  exact List.mem_append_left _ ((List.mem_erase_of_ne same).mpr within)

end Otawa.LruSet
