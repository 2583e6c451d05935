import Otawa.ClpWord
import Mathlib.Tactic.Linarith
import Mathlib.Tactic.LinearCombination

namespace Otawa.Clp
open Otawa.Progression (progression)

theorem mem_walk {b d : Int} {n : Nat} {x : Word} :
    x ∈ progression (wrap b) (wrap d) n ↔ ∃ i ≤ n, x = wrap (b + (i : Nat) * d) := by
  simp only [Progression.mem_progression,wrap_walk]

/-- The points of a walk are in the turn from `o` on. -/
structure Span (o b d : Int) (n : Nat) : Prop where
  first : o ≤ b ∧ b ≤ o + (2 ^ 32 - 1)
  last : o ≤ b + n * d ∧ b + n * d ≤ o + (2 ^ 32 - 1)

section
variable {o b d : Int} {n : Nat} (span : Span o b d n)
include span

theorem Span.rank {i : Nat} (rank : i ≤ n) : o ≤ b + i * d ∧ b + i * d ≤ o + (2 ^ 32 - 1) :=
  rank_between _ _ rank span.first span.last

theorem Span.short : n * d.natAbs < 2 ^ 32 := by
  have first := span.first
  have last := span.last
  have size : (n * d).natAbs = n * d.natAbs := by rw [Int.natAbs_mul,Int.natAbs_natCast]
  omega

theorem Span.mem_iff {z : Int} (range : o ≤ z ∧ z ≤ o + (2 ^ 32 - 1)) :
    wrap z ∈ progression (wrap b) (wrap d) n ↔ ∃ i ≤ n, z = b + (i : Nat) * d := by
  rw [mem_walk]
  refine exists_congr fun i => and_congr_right fun rank => ⟨fun same => ?_,fun same => by rw [same]⟩
  have inTurn := span.rank rank
  exact eq_of_wrap same (by omega)

omit span in
theorem ranks_apart (b : Int) {d : Int} (steps : d ≠ 0) {p q : Nat} (less : p < q)
    (near : (q - p) * d.natAbs < 2 ^ 32) : wrap (b + p * d) ≠ wrap (b + q * d) := by
  intro same
  have turn := wrap_eq_iff.mp same
  have difference : b + p * d - (b + q * d) = -(((q - p : Nat) : Int) * d) := by
    rw [Nat.cast_sub less.le]
    ring
  have size : (((q - p : Nat) : Int) * d).natAbs = (q - p) * d.natAbs := by
    rw [Int.natAbs_mul,Int.natAbs_natCast]
  have some : 0 < (q - p) * d.natAbs := Nat.mul_pos (by omega) (by omega)
  rw [difference] at turn
  omega

theorem Span.keeps_iff (steps : d ≠ 0) (j m : Nat) :
    (∀ i ≤ n, i ≤ j → wrap (b + (i : Nat) * d) ∈ progression (wrap b) (wrap d) m) ↔ Min.min n j ≤ m := by
  constructor
  · intro keeps
    by_contra short
    obtain ⟨i,rank,same⟩ := mem_walk.mp (keeps (Min.min n j) (by omega) (by omega))
    have near : (Min.min n j - i) * d.natAbs < 2 ^ 32 :=
      (Nat.mul_le_mul_right _ (by omega)).trans_lt span.short
    exact ranks_apart b steps (by omega) near same.symm
  · intro long i rank kept
    exact mem_walk.mpr ⟨i,by omega,rfl⟩

omit span in
theorem mem_of_whole (b : Int) {d : Int} {n : Nat} (whole : (n + 1) * d.natAbs = 2 ^ 32) (i : Nat) :
    wrap (b + i * d) ∈ progression (wrap b) (wrap d) n := by
  have below : i % (n + 1) < n + 1 := Nat.mod_lt i (by omega)
  refine mem_walk.mpr ⟨i % (n + 1),by omega,wrap_eq_iff.mpr ?_⟩
  have rank : (i : Int) = ((n + 1 : Nat) : Int) * ((i / (n + 1) : Nat) : Int) + ((i % (n + 1) : Nat) : Int) := by
    exact_mod_cast (Nat.div_add_mod i (n + 1)).symm
  have size : (((n + 1 : Nat) : Int) * d).natAbs = 2 ^ 32 := by
    rw [Int.natAbs_mul,Int.natAbs_natCast]
    exact whole
  have turn : (2 ^ 32 : Int) ∣ ((n + 1 : Nat) : Int) * d := by omega
  have split : b + i * d - (b + (i % (n + 1) : Nat) * d) = ((n + 1 : Nat) : Int) * d * ((i / (n + 1) : Nat) : Int) := by
    linear_combination d * rank
  rw [split]
  exact Dvd.dvd.mul_right turn _

theorem Span.inside_iff (steps : d ≠ 0) (small : d.natAbs ≤ 2 ^ 31) (m : Nat) :
    (∀ x ∈ progression (wrap b) (wrap d) m, x ∈ progression (wrap b) (wrap d) n) ↔
      m ≤ n ∨ (n + 1) * d.natAbs = 2 ^ 32 := by
  constructor
  · intro inside
    by_contra both
    obtain ⟨i,rank,same⟩ := mem_walk.mp (inside _ (mem_walk.mpr ⟨n + 1,by omega,rfl⟩))
    have short := span.short
    have next : (n + 1) * d.natAbs = n * d.natAbs + d.natAbs := by ring
    -- the word of rank n + 1 is at most a turn and a half away: it can only be the first one
    by_cases start : i = 0
    · subst start
      have turn := wrap_eq_iff.mp same
      have difference : b + ((n + 1 : Nat) : Int) * d - (b + (0 : Nat) * d) = ((n + 1 : Nat) : Int) * d := by simp
      have size : (((n + 1 : Nat) : Int) * d).natAbs = (n + 1) * d.natAbs := by
        rw [Int.natAbs_mul,Int.natAbs_natCast]
      rw [difference] at turn
      omega
    · have near : (n + 1 - i) * d.natAbs < 2 ^ 32 := (Nat.mul_le_mul_right _ (by omega)).trans_lt short
      exact ranks_apart b steps (by omega) near same.symm
  · rintro (shorter | whole) x member
    · exact Progression.progression_mono shorter member
    · obtain ⟨i,_,rfl⟩ := mem_walk.mp member
      exact mem_of_whole b whole i

end

namespace Value

/-- A value that is not a constant and whose walk stays in the turn from `o` on. -/
structure Walks (o : Int) (v : Value) (b d : Int) (n : Nat) : Prop where
  kind : v.kind = .VAL
  lower : v.lower = wrap b
  delta : v.delta = wrap d
  mtimes : v.mtimes.toNat = n
  step : -2 ^ 31 ≤ d ∧ d < 2 ^ 31
  steps : d ≠ 0
  count : n ≠ 0
  span : Span o b d n

section
variable {o b d : Int} {n : Nat} {v : Value} (walks : Walks o v b d n)
include walks

theorem Walks.mem {x : Word} : x ∈ v ↔ x ∈ progression (wrap b) (wrap d) n := by
  rw [mem_val walks.kind,walks.lower,walks.delta,walks.mtimes]

theorem Walks.upper (m : Word) : v.lower + v.delta * m = wrap (b + m.toNat * d) := by
  rw [walks.lower,walks.delta,← nsmul_word,wrap_walk]

theorem Walks.short : n * d.natAbs < 2 ^ 32 := walks.span.short

theorem Walks.toInt_delta : v.delta.toInt = d := by
  rw [walks.delta]
  exact toInt_wrap walks.step.1 walks.step.2

theorem Walks.live : ¬ (v = all ∨ v = none) ∧ v.isConst = false := by
  refine ⟨?_,?_⟩
  · rintro (rfl | rfl)
    · cases walks.kind
    · cases walks.kind
  · have some : v.delta ≠ 0 := by
      intro same
      have reading := walks.toInt_delta
      rw [same] at reading
      exact walks.steps reading.symm
    have more : v.mtimes ≠ 0 := by
      intro same
      have count := walks.mtimes
      rw [same] at count
      exact walks.count count.symm
    simpa [isConst] using ⟨some,more⟩

theorem Walks.abs_delta : (abs v.delta).toNat = d.natAbs := by rw [abs_toNat,walks.toInt_delta]

theorem Walks.up_iff : (0 : Word).slt v.delta = true ↔ 0 < d := by
  have zero : (0 : Word).toInt = 0 := rfl
  rw [BitVec.slt_iff_toInt_lt,walks.toInt_delta,zero]

theorem Walks.down_iff : v.delta.slt 0 = true ↔ d < 0 := by
  have zero : (0 : Word).toInt = 0 := rfl
  rw [BitVec.slt_iff_toInt_lt,walks.toInt_delta,zero]

end

end Value
end Otawa.Clp
