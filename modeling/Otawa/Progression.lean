import Mathlib.GroupTheory.OrderOfElement
import Mathlib.Tactic.Abel
import Mathlib.Tactic.Ring

/-!
Finite arithmetic progressions in a commutative group: the points `b`, `b + d`,
…, `b + n d`. In a finite group a progression wraps around, so a point is named
by several counts; `mem_iff_mod` decides membership of a multiple of the step
from its remainder by the order of the step.
-/
namespace Otawa.Progression

variable {G : Type*} [AddCommGroup G]

/-- The points `b + k d` for `k` up to `n`. -/
def progression (b d : G) (n : ℕ) : Set G := {x | ∃ k, k ≤ n ∧ x = b + k • d}

theorem mem_progression {b d x : G} {n : ℕ} : x ∈ progression b d n ↔ ∃ k, k ≤ n ∧ x = b + k • d := Iff.rfl

theorem base_mem (b d : G) (n : ℕ) : b ∈ progression b d n := ⟨0,Nat.zero_le n,by simp⟩

theorem mem_const {b d x : G} {n : ℕ} (const : d = 0 ∨ n = 0) : x ∈ progression b d n ↔ x = b := by
  constructor
  · rintro ⟨k,bound,rfl⟩
    rcases const with rfl | rfl
    · simp
    · simp [Nat.le_zero.mp bound]
  · rintro rfl; exact base_mem _ d n

theorem progression_mono {b d : G} {m n : ℕ} (le : m ≤ n) : progression b d m ⊆ progression b d n := by
  rintro x ⟨k,bound,rfl⟩
  exact ⟨k,bound.trans le,rfl⟩

private theorem reversed_mem {b d x : G} {n : ℕ} (member : x ∈ progression b d n) :
    x ∈ progression (b + n • d) (-d) n := by
  obtain ⟨k,bound,rfl⟩ := member
  refine ⟨n - k,Nat.sub_le n k,?_⟩
  have split : n • d = k • d + (n - k) • d := by rw [← add_nsmul,Nat.add_sub_cancel' bound]
  rw [split,smul_neg]
  abel

theorem reversed (b d : G) (n : ℕ) : progression (b + n • d) (-d) n = progression b d n := by
  apply Set.eq_of_subset_of_subset
  · intro x member
    have back := reversed_mem member
    simpa [smul_neg] using back
  · intro x member; exact reversed_mem member

theorem neg_mem {b d x : G} {n : ℕ} : x ∈ progression b d n ↔ -x ∈ progression (-b) (-d) n := by
  constructor
  · rintro ⟨k,bound,rfl⟩
    exact ⟨k,bound,by rw [smul_neg]; abel⟩
  · rintro ⟨k,bound,same⟩
    refine ⟨k,bound,?_⟩
    rw [← neg_neg x,same,smul_neg]
    abel

/-- A multiple of the step lies in the progression exactly when its least
    representative, the remainder by the order of the step, is within the count.
    A step of infinite order has order 0 here, and the remainder is the multiple. -/
theorem mem_iff_mod {b g : G} (t n : ℕ) :
    b + t • g ∈ progression b g n ↔ t % addOrderOf g ≤ n := by
  constructor
  · rintro ⟨k,bound,same⟩
    have congruent : t ≡ k [MOD addOrderOf g] := nsmul_eq_nsmul_iff_modEq.mp (add_left_cancel same)
    calc t % addOrderOf g = k % addOrderOf g := congruent
      _ ≤ k := Nat.mod_le k _
      _ ≤ n := bound
  · intro bound
    exact ⟨t % addOrderOf g,bound,by rw [mod_addOrderOf_nsmul]⟩

/-- All the sums of two progressions fit a rescaled progression with count `n`
    exactly when every combined count does, modulo the order of the step. -/
theorem sums_subset_iff {b c g : G} (p q m k n : ℕ) :
    (∀ x ∈ progression b (p • g) m, ∀ y ∈ progression c (q • g) k, x + y ∈ progression (b + c) g n) ↔
      ∀ i ≤ m, ∀ j ≤ k, (i * p + j * q) % addOrderOf g ≤ n := by
  have point (i j : ℕ) : b + i • p • g + (c + j • q • g) = b + c + (i * p + j * q) • g := by
    rw [add_nsmul,mul_nsmul',mul_nsmul']
    abel
  constructor
  · intro sums i iBound j jBound
    have member := sums _ ⟨i,iBound,rfl⟩ _ ⟨j,jBound,rfl⟩
    rw [point] at member
    exact (mem_iff_mod _ n).mp member
  · rintro counts x ⟨i,iBound,rfl⟩ y ⟨j,jBound,rfl⟩
    rw [point]
    exact (mem_iff_mod _ n).mpr (counts i iBound j jBound)

/-- Membership of an integer multiple of the step, in a group without infinite order. -/
theorem mem_iff_emod [Finite G] (b g : G) (z : ℤ) (n : ℕ) :
    b + z • g ∈ progression b g n ↔ z % (addOrderOf g : ℤ) ≤ n := by
  have positive : 0 < addOrderOf g := addOrderOf_pos g
  have nonneg : 0 ≤ z % (addOrderOf g : ℤ) := Int.emod_nonneg z (by omega)
  have below : z % (addOrderOf g : ℤ) < addOrderOf g := Int.emod_lt_of_pos z (by omega)
  obtain ⟨t,residue⟩ := Int.eq_ofNat_of_zero_le nonneg
  have same : z • g = t • g := by rw [← mod_addOrderOf_zsmul,residue,natCast_zsmul]
  rw [same,mem_iff_mod,residue,Nat.mod_eq_of_lt (by omega)]
  omega

/-- A progression whose base is `z` steps away and whose step is `p` steps long is
    inside another when every of its ranks is, modulo the order of the step. -/
theorem subset_iff [Finite G] {b c g : G} {z : ℤ} (base : c = b + z • g) (p m n : ℕ) :
    (∀ x ∈ progression c (p • g) m, x ∈ progression b g n) ↔
      ∀ i ≤ m, (z + (i * p : ℕ)) % (addOrderOf g : ℤ) ≤ n := by
  have point (i : ℕ) : c + i • p • g = b + (z + (i * p : ℕ)) • g := by
    rw [base,add_zsmul,natCast_zsmul,mul_nsmul']
    abel
  constructor
  · intro inside i bound
    have member := inside _ ⟨i,bound,rfl⟩
    rw [point] at member
    exact (mem_iff_emod b g _ n).mp member
  · rintro ranks x ⟨i,bound,rfl⟩
    rw [point]
    exact (mem_iff_emod b g _ n).mpr (ranks i bound)

end Otawa.Progression
