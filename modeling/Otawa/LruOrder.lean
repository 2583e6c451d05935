import Otawa.LruSet
import Mathlib.Data.Finset.Card
import Mathlib.Data.Finset.Dedup
import Mathlib.Data.List.TakeWhile

namespace Otawa.LruSet

variable {B : Type*} [DecidableEq B]

private theorem mem_take {x : B} {l : List B} {n : ℕ} :
    x ∈ l.take n ↔ x ∈ l ∧ (l.takeWhile (· ≠ x)).length < n := by
  induction l generalizing n with
  | nil => simp
  | cons y l ih =>
    cases n with
    | zero => simp
    | succ n =>
      by_cases same : y = x
      · subst same
        simp
      · simp [ih,same,Ne.symm same]

private theorem takeWhile_take {x : B} {l : List B} {n : ℕ} (inside : x ∈ l.take n) :
    (l.take n).takeWhile (· ≠ x) = l.takeWhile (· ≠ x) := by
  induction l generalizing n with
  | nil => simp
  | cons y l ih =>
    cases n with
    | zero => simp at inside
    | succ n =>
      by_cases same : y = x
      · subst same
        simp
      · have later : x ∈ l.take n := by simpa [Ne.symm same] using inside
        simpa [same] using ih later

private theorem takeWhile_filter_ne {x : B} {keep : B → Bool} (kept : keep x = true) (l : List B) :
    (l.filter keep).takeWhile (· ≠ x) = (l.takeWhile (· ≠ x)).filter keep := by
  rw [List.takeWhile_filter]
  congr 2
  funext y
  by_cases same : y = x
  · subst same
    simp [kept]
  · simp [same]

variable {A : ℕ} {c : Lru B A} {x y : B}

def Lru.before (c : Lru B A) (x : B) : Finset B := (c.blocks.takeWhile (· ≠ x)).toFinset

theorem card_before (c : Lru B A) (x : B) : (c.before x).card = (c.blocks.takeWhile (· ≠ x)).length :=
  List.toFinset_card_of_nodup (c.nodup.sublist (List.takeWhile_sublist _))

theorem within_iff {n : ℕ} : Within c x n ↔ x ∈ c.blocks ∧ (c.before x).card ≤ n := by
  rw [Within,mem_take,card_before,Nat.lt_succ_iff]

theorem before_access_self (c : Lru B A) (x : B) : (c.access x).before x = ∅ := by
  obtain ⟨n,ways⟩ := Nat.exists_eq_succ_of_ne_zero c.ways.ne'
  subst ways
  simp [Lru.before,Lru.access]

theorem mem_access_self (c : Lru B A) (x : B) : x ∈ (c.access x).blocks :=
  List.mem_of_mem_take (within_access_self c x)

theorem not_mem_before (c : Lru B A) (x : B) : x ∉ c.before x := by
  intro member
  have inside := List.mem_takeWhile_imp (List.mem_toFinset.mp member)
  simp at inside

private theorem toFinset_access (other : x ≠ y) :
    ((y :: c.blocks.erase y).takeWhile (· ≠ x)).toFinset = insert y (c.before x) := by
  have filtered : (c.blocks.filter fun z => z != y).takeWhile (· ≠ x) = (c.blocks.takeWhile (· ≠ x)).filter fun z => z != y :=
    takeWhile_filter_ne (by simpa using other) c.blocks
  rw [c.nodup.erase_eq_filter,List.takeWhile_cons_of_pos (by simpa using other.symm),filtered,List.toFinset_cons,List.toFinset_filter]
  ext z
  simp only [Lru.before,Finset.mem_insert,Finset.mem_filter,bne_iff_ne,ne_eq]
  tauto

theorem mem_access (other : x ≠ y) :
    x ∈ (c.access y).blocks ↔ x ∈ c.blocks ∧ (insert y (c.before x)).card < A := by
  have distinct : (y :: c.blocks.erase y).Nodup := List.nodup_cons.mpr ⟨c.nodup.not_mem_erase,c.nodup.erase y⟩
  show x ∈ (y :: c.blocks.erase y).take A ↔ _
  rw [mem_take,List.mem_cons,or_iff_right other,List.mem_erase_of_ne other,
    ← List.toFinset_card_of_nodup (distinct.sublist (List.takeWhile_sublist _)),toFinset_access other]

theorem before_access (other : x ≠ y) (present : x ∈ (c.access y).blocks) :
    (c.access y).before x = insert y (c.before x) := by
  show (((y :: c.blocks.erase y).take A).takeWhile (· ≠ x)).toFinset = _
  rw [takeWhile_take present,toFinset_access other]

omit [DecidableEq B] in
theorem mem_remove {keep : B → Bool} : x ∈ (c.remove keep).blocks ↔ x ∈ c.blocks ∧ keep x = true :=
  List.mem_filter

theorem before_remove (keep : B → Bool) (kept : keep x = true) :
    (c.remove keep).before x = (c.before x).filter fun y => keep y = true := by
  show ((c.blocks.filter keep).takeWhile (· ≠ x)).toFinset = _
  rw [takeWhile_filter_ne kept,List.toFinset_filter]
  rfl

end Otawa.LruSet
