import Otawa.ClpWord
import Mathlib.Tactic.Linarith

/-!
The shifts of `clp::Value`. A left shift follows every word. A right shift stands for both
the logical and the arithmetic one, that differ on negative words, and shifts the base and
the step apart: `ShrFits` says when the shifted walk meets both shifts of each word. The
condition is exact for the walks that stay in the range of signed words
(`shifts_contain_iff`).
-/
namespace Otawa.Clp.Value
open Otawa.Progression (progression)

/-- The last point of the walk, as an integer that does not wrap. -/
def last (v : Value) : Int := v.lower.toInt + v.mtimes.toNat * v.delta.toInt

/-- When a right shift by `s` meets both shifts of the words of a progression: the words are
    not negative, unless `s` is 0, and cutting off the low bits loses nothing. -/
def ShrFits (v : Value) (s : Nat) : Prop :=
  if v.delta = 0 ∧ v.mtimes = 0 then s = 0 ∨ 0 ≤ v.lower.toInt
  else if v.delta.toInt % 2 = 0 then
    s = 0 ∨ 0 ≤ v.lower.toInt ∧ 0 ≤ v.last ∧ v.last < 2 ^ 31 ∧
      (v.lower.toInt % 2 ^ s + v.mtimes.toNat * (v.delta.toInt % 2 ^ s) < 2 ^ s ∨
        -2 ^ s ≤ v.delta.toInt ∧ v.delta.toInt < 0)
  else if s = 0 then v.mtimes.toNat ≤ 1 ∨ 0 < v.delta.toInt ∧ v.mtimes.toNat * v.delta.toInt < 2 ^ 32
  else
    0 ≤ v.lower.toInt ∧ 0 ≤ v.last ∧ v.last < 2 ^ 31 ∧
      if 0 < v.delta.toInt then v.lower.toInt % 2 ^ s + v.mtimes.toNat * v.delta.toInt % 2 ^ s < 2 ^ s
      else v.last / 2 ^ s = v.lower.toInt / 2 ^ s

/-! ### Quotients -/

section
variable {b d S : Int}

theorem rank_div (positive : 0 < S) (b d i : Int) :
    (b + i * d) / S = b / S + i * (d / S) + (b % S + i * (d % S)) / S := by
  have split : b + i * d = (b % S + i * (d % S)) + S * (b / S + i * (d / S)) := by
    calc b + i * d = (S * (b / S) + b % S) + i * (S * (d / S) + d % S) := by
          rw [Int.mul_ediv_add_emod,Int.mul_ediv_add_emod]
      _ = _ := by ring
  rw [split,Int.add_mul_ediv_left _ _ positive.ne']
  ring

theorem div_of_low (positive : 0 < S) {i n : Nat} (rank : i ≤ n) (low : b % S + n * (d % S) < S) :
    (b + i * d) / S = b / S + i * (d / S) := by
  have base := Int.emod_nonneg b positive.ne'
  have step := Int.emod_nonneg d positive.ne'
  have count : (i : Int) ≤ n := by exact_mod_cast rank
  have one : (i : Int) * (d % S) ≤ n * (d % S) := Int.mul_le_mul_of_nonneg_right count step
  have zero : 0 ≤ (i : Int) * (d % S) := Int.mul_nonneg (Int.natCast_nonneg i) step
  have carry : (b % S + i * (d % S)) / S = 0 := Int.ediv_eq_zero_of_lt (by omega) (by omega)
  rw [rank_div positive,carry,add_zero]

theorem div_of_small (positive : 0 < S) {i n : Nat} (rank : i ≤ n) (small : -S ≤ d) (down : d < 0) :
    ∃ j ≤ n, (b + i * d) / S = b / S + (j : Nat) * (d / S) := by
  have unit : d / S = -1 := by
    rw [Int.ediv_eq_iff_of_pos positive]
    omega
  have above : (b + i * d) / S ≤ b / S := by
    apply Int.ediv_le_ediv positive
    have := Int.mul_nonpos_of_nonneg_of_nonpos (Int.natCast_nonneg i) down.le
    omega
  have below : b / S - i ≤ (b + i * d) / S := by
    have shifted : (b + S * (-(i : Int))) / S = b / S + -(i : Int) := Int.add_mul_ediv_left _ _ positive.ne'
    rw [sub_eq_add_neg,← shifted]
    apply Int.ediv_le_ediv positive
    nlinarith
  refine ⟨(b / S - (b + i * d) / S).toNat,by omega,?_⟩
  rw [unit,Int.toNat_of_nonneg (by omega)]
  ring

end

section
variable {v : Value} {s : Word}

private theorem amount (small : s.toNat < 32) : (const s).isConst = true ∧ (const s).lower.slt 0 = false := by
  refine ⟨rfl,?_⟩
  have signed : s.toInt = s.toNat := BitVec.toInt_eq_toNat_of_lt (by omega)
  have zero : (0 : Word).toInt = 0 := by decide
  simp only [const,BitVec.slt_eq_decide,decide_eq_false_iff_not,zero]
  omega

private theorem even_iff (d : Word) : d.srem 2 = 0 ↔ d.toInt % 2 = 0 := by
  have two : (2 : Word).toInt = 2 := by decide
  have zero : (0 : Word).toInt = 0 := by decide
  constructor
  · intro even
    have rest := congrArg BitVec.toInt even
    rw [BitVec.toInt_srem,two,zero] at rest
    exact Int.emod_eq_zero_of_dvd (Int.dvd_of_tmod_eq_zero rest)
  · intro even
    apply BitVec.eq_of_toInt_eq
    rw [BitVec.toInt_srem,two,zero]
    exact Int.tmod_eq_zero_of_dvd (Int.dvd_of_emod_eq_zero even)

theorem shl_val (kind : v.kind = .VAL) (small : s.toNat < 32) (x : Word) (member : x ∈ v) : x <<< s.toNat ∈ v.shl (const s) := by
  obtain ⟨isConst,positive⟩ := amount small
  obtain ⟨i,rank,rfl⟩ := (mem_val kind).mp member
  have shifted (y : Word) : y <<< s.toNat = BitVec.twoPow 32 s.toNat * y := by
    rw [BitVec.mul_comm,BitVec.mul_twoPow_eq_shiftLeft]
  have point : (v.lower + i • v.delta) <<< s.toNat = v.lower <<< s.toNat + i • v.delta <<< s.toNat := by
    simp only [shifted,nsmul_eq_mul]
    ring
  simp only [shl,isConst,positive,kind,Bool.not_true,Bool.or_self,Bool.false_eq_true,if_false,ne_eq,reduceCtorEq,
    not_false_eq_true,and_self,if_true]
  split
  case isTrue null =>
    rw [null.2,show (0 : Word).toNat = 0 by rfl,Nat.le_zero] at rank
    rw [rank,zero_nsmul,add_zero]
    exact mem_mk.mpr (Progression.base_mem _ _ _)
  case isFalse => exact mem_mk.mpr ⟨i,rank,point⟩

theorem mem_shr (kind : v.kind = .VAL) (small : s.toNat < 32) (y : Word) :
    y ∈ v.shr (const s) ↔
      if v.delta = 0 ∧ v.mtimes = 0 then y = wrap (v.lower.toInt / 2 ^ s.toNat)
      else if v.delta.toInt % 2 = 0 then
        ∃ j ≤ v.mtimes.toNat, y = wrap (v.lower.toInt / 2 ^ s.toNat + (j : Nat) * (v.delta.toInt / 2 ^ s.toNat))
      else (y - wrap (v.lower.toInt / 2 ^ s.toNat)).toNat ≤ (v.delta * v.mtimes).toNat / 2 ^ s.toNat := by
  obtain ⟨isConst,positive⟩ := amount small
  simp only [shr,isConst,positive,kind,Bool.not_true,Bool.or_self,Bool.false_eq_true,if_false,ne_eq,reduceCtorEq,
    not_false_eq_true,and_self,if_true,even_iff]
  split
  case isTrue => rw [mem_mk,Progression.mem_const (.inl rfl),← sshiftRight_wrap]; rfl
  split
  case isTrue =>
    rw [mem_mk,Progression.mem_progression]
    simp only [sshiftRight_wrap,wrap_walk]
    rfl
  case isFalse =>
    rw [mem_mk,mem_unit,sshiftRight_wrap,BitVec.toNat_ushiftRight,Nat.shiftRight_eq_div_pow]
    rfl

end

def ShiftsInto (x : Word) (s : Nat) (u : Value) : Prop := x >>> s ∈ u ∧ x.sshiftRight s ∈ u

theorem ushiftRight_of_nonneg {x : Word} {s : Nat} (positive : 0 ≤ x.toInt) : x >>> s = wrap (x.toInt / 2 ^ s) := by
  have same : x.toInt = x.toNat := by
    have cond := BitVec.toInt_eq_toNat_cond x
    split at cond <;> omega
  rw [ushiftRight_wrap,same]
  push_cast
  rfl

theorem shiftsInto_of_nonneg {x : Word} {s : Nat} {u : Value} (positive : 0 ≤ x.toInt)
    (shifted : wrap (x.toInt / 2 ^ s) ∈ u) : ShiftsInto x s u := by
  refine ⟨?_,?_⟩
  · rw [ushiftRight_of_nonneg positive]; exact shifted
  · rw [sshiftRight_wrap]; exact shifted

theorem shiftsInto_zero {x : Word} {u : Value} (member : x ∈ u) : ShiftsInto x 0 u := by
  refine ⟨?_,?_⟩
  · simpa using member
  · simpa using member

private theorem point_of_range {v : Value} {i : Nat} (rank : i ≤ v.mtimes.toNat) (first : 0 ≤ v.lower.toInt) (low : 0 ≤ v.last)
    (high : v.last < 2 ^ 31) :
    (v.lower + i • v.delta).toInt = v.lower.toInt + i * v.delta.toInt ∧ 0 ≤ v.lower.toInt + i * v.delta.toInt := by
  have top := BitVec.toInt_lt (x := v.lower)
  have between := rank_between 0 (2 ^ 31 - 1) rank ⟨first,by omega⟩ ⟨low,by simp only [last] at high; omega⟩
  refine ⟨?_,between.1⟩
  rw [wrap_rank,toInt_wrap (by omega) (by omega)]

private theorem count_toNat_shr (v : Value) : ((v.delta * v.mtimes).toNat : Int) = v.mtimes.toNat * v.delta.toInt % 2 ^ 32 := by
  rw [← toNat_wrap,← nsmul_word,← zero_add (v.mtimes.toNat • v.delta),wrap_rank]
  simp

section
variable {v : Value} {s : Word} (kind : v.kind = .VAL) (small : s.toNat < 32)
include kind small

private theorem shr_even (steps : ¬ (v.delta = 0 ∧ v.mtimes = 0)) (even : v.delta.toInt % 2 = 0)
    (fits : ShrFits v s.toNat) : ∀ x ∈ v, ShiftsInto x s.toNat (v.shr (const s)) := by
  rintro x member
  obtain ⟨i,rank,rfl⟩ := (mem_val kind).mp member
  have positive : (0 : Int) < 2 ^ s.toNat := by positivity
  rw [ShrFits,if_neg steps,if_pos even] at fits
  rcases fits with zero | ⟨first,low,high,walk⟩
  · rw [zero]
    refine shiftsInto_zero ((mem_shr kind small _).mpr ?_)
    rw [if_neg steps,if_pos even,zero]
    exact ⟨i,rank,by simpa using wrap_rank v.lower v.delta i⟩
  · obtain ⟨value,nonneg⟩ := point_of_range rank first low high
    refine shiftsInto_of_nonneg (value ▸ nonneg) ((mem_shr kind small _).mpr ?_)
    rw [if_neg steps,if_pos even,value]
    rcases walk with carry | ⟨short,down⟩
    · exact ⟨i,rank,by rw [div_of_low positive rank carry]⟩
    · obtain ⟨j,bound,quotient⟩ := div_of_small (b := v.lower.toInt) positive rank short down
      exact ⟨j,bound,by rw [quotient]⟩

private theorem shr_null (null : v.delta = 0 ∧ v.mtimes = 0) (fits : ShrFits v s.toNat) :
    ∀ x ∈ v, ShiftsInto x s.toNat (v.shr (const s)) := by
  rintro x member
  rw [mem_val kind,Progression.mem_const (.inl null.1)] at member
  subst member
  have shifted : wrap (v.lower.toInt / 2 ^ s.toNat) ∈ v.shr (const s) := by rw [mem_shr kind small,if_pos null]
  rw [ShrFits,if_pos null] at fits
  rcases fits with zero | positive
  · rw [zero] at shifted ⊢
    rw [Int.pow_zero,Int.ediv_one,wrap_toInt] at shifted
    exact shiftsInto_zero shifted
  · exact shiftsInto_of_nonneg positive shifted

private theorem shr_odd (steps : ¬ (v.delta = 0 ∧ v.mtimes = 0)) (odd : ¬ v.delta.toInt % 2 = 0)
    (fits : ShrFits v s.toNat) : ∀ x ∈ v, ShiftsInto x s.toNat (v.shr (const s)) := by
  rintro x member
  obtain ⟨i,rank,rfl⟩ := (mem_val kind).mp member
  have positive : (0 : Int) < 2 ^ s.toNat := by positivity
  have ranks : (i : Int) ≤ v.mtimes.toNat := by exact_mod_cast rank
  have count := count_toNat_shr v
  rw [ShrFits,if_neg steps,if_neg odd] at fits
  split at fits
  case isTrue zero =>
    rw [zero]
    refine shiftsInto_zero ((mem_shr kind small _).mpr ?_)
    have distance := toNat_wrap (i * v.delta.toInt)
    have offset : v.lower + i • v.delta - wrap (v.lower.toInt / 2 ^ 0) = wrap (i * v.delta.toInt) := by
      rw [wrap_rank,← wrap_sub]
      simp
    rw [if_neg steps,if_neg odd,zero,offset,Nat.pow_zero,Nat.div_one]
    rcases fits with one | ⟨up,bound⟩
    · have ends : i = 0 ∨ i = v.mtimes.toNat := by omega
      rcases ends with rfl | rfl
      · simp
      · omega
    · have below : (i : Int) * v.delta.toInt ≤ v.mtimes.toNat * v.delta.toInt := Int.mul_le_mul_of_nonneg_right ranks up.le
      have above : 0 ≤ (i : Int) * v.delta.toInt := Int.mul_nonneg (Int.natCast_nonneg i) up.le
      rw [Int.emod_eq_of_lt (by omega) (by omega)] at count distance
      omega
  case isFalse some_ =>
    obtain ⟨first,low,high,walk⟩ := fits
    obtain ⟨value,nonneg⟩ := point_of_range rank first low high
    refine shiftsInto_of_nonneg (value ▸ nonneg) ((mem_shr kind small _).mpr ?_)
    rw [if_neg steps,if_neg odd,value,← wrap_sub]
    have distance := toNat_wrap ((v.lower.toInt + i * v.delta.toInt) / 2 ^ s.toNat - v.lower.toInt / 2 ^ s.toNat)
    have quotient : (((v.delta * v.mtimes).toNat / 2 ^ s.toNat : Nat) : Int) =
        v.mtimes.toNat * v.delta.toInt % 2 ^ 32 / 2 ^ s.toNat := by
      rw [← count]
      push_cast
      rfl
    have top := BitVec.toInt_lt (x := v.lower)
    split at walk
    case isTrue up =>
      have below : (i : Int) * v.delta.toInt ≤ v.mtimes.toNat * v.delta.toInt := Int.mul_le_mul_of_nonneg_right ranks up.le
      have above : 0 ≤ (i : Int) * v.delta.toInt := Int.mul_nonneg (Int.natCast_nonneg i) up.le
      have whole : v.last / 2 ^ s.toNat = v.lower.toInt / 2 ^ s.toNat + v.mtimes.toNat * v.delta.toInt / 2 ^ s.toNat := by
        have split := div_of_low (b := v.lower.toInt) (d := v.mtimes.toNat * v.delta.toInt) (n := 1) positive le_rfl
          (by simpa using walk)
        simpa [last] using split
      have start : v.lower.toInt / 2 ^ s.toNat ≤ (v.lower.toInt + i * v.delta.toInt) / 2 ^ s.toNat :=
        Int.ediv_le_ediv positive (by omega)
      have stop : (v.lower.toInt + i * v.delta.toInt) / 2 ^ s.toNat ≤ v.last / 2 ^ s.toNat :=
        Int.ediv_le_ediv positive (by simp only [last]; omega)
      have size : v.last / 2 ^ s.toNat ≤ v.last := Int.ediv_le_self _ low
      have base : 0 ≤ v.lower.toInt / 2 ^ s.toNat := Int.ediv_nonneg first positive.le
      rw [Int.emod_eq_of_lt (by omega) (by simp only [last] at high; omega)] at quotient
      rw [Int.emod_eq_of_lt (by omega) (by omega)] at distance
      omega
    case isFalse down =>
      have length : (v.mtimes.toNat : Int) * v.delta.toInt ≤ 0 :=
        Int.mul_nonpos_of_nonneg_of_nonpos (Int.natCast_nonneg _) (by omega)
      have falls : v.last ≤ v.lower.toInt := by simp only [last]; omega
      have between := rank_between v.last v.lower.toInt rank (d := v.delta.toInt)
        ⟨falls,le_rfl⟩ ⟨le_rfl,falls⟩
      have start : (v.lower.toInt + i * v.delta.toInt) / 2 ^ s.toNat ≤ v.lower.toInt / 2 ^ s.toNat :=
        Int.ediv_le_ediv positive between.2
      have stop : v.last / 2 ^ s.toNat ≤ (v.lower.toInt + i * v.delta.toInt) / 2 ^ s.toNat :=
        Int.ediv_le_ediv positive between.1
      have none : (v.lower.toInt + i * v.delta.toInt) / 2 ^ s.toNat - v.lower.toInt / 2 ^ s.toNat = 0 := by omega
      rw [none] at distance ⊢
      simp

end

/-! ### When it fits -/

section
variable {s : Nat} (some_ : 0 < s) (small : s < 32)
include some_ small

private theorem powers : (2 : Int) ^ s * 2 ^ (31 - s) = 2 ^ 31 ∧ (2 : Int) ≤ 2 ^ s ∧ (1 : Int) ≤ 2 ^ (31 - s) ∧
    (2 : Int) ^ (31 - s) ≤ 2 ^ 30 := by
  refine ⟨?_,?_,one_le_pow₀ (by decide),?_⟩
  · rw [← pow_add,show s + (31 - s) = 31 by omega]
  · calc (2 : Int) = 2 ^ 1 := rfl
      _ ≤ 2 ^ s := pow_le_pow_right₀ (by decide) some_
  · exact pow_le_pow_right₀ (by decide) (by omega)

theorem div_range {z : Int} (low : -2 ^ 31 ≤ z) (high : z < 2 ^ 31) :
    -2 ^ (31 - s) ≤ z / 2 ^ s ∧ z / 2 ^ s < 2 ^ (31 - s) := by
  obtain ⟨size,two,-,-⟩ := powers some_ small
  refine ⟨?_,?_⟩
  · rw [Int.le_ediv_iff_mul_le (by omega),Int.neg_mul,Int.mul_comm,size]
    exact low
  · rw [Int.ediv_lt_iff_lt_mul (by omega),Int.mul_comm,size]
    exact high

theorem ushiftRight_of_neg {x : Word} (negative : x.toInt < 0) :
    x >>> s = wrap (x.toInt / 2 ^ s + 2 * 2 ^ (31 - s)) := by
  obtain ⟨size,two,-,-⟩ := powers some_ small
  have same : (x.toNat : Int) = x.toInt + 2 ^ s * (2 * 2 ^ (31 - s)) := by
    have turn : (2 : Int) ^ s * (2 * 2 ^ (31 - s)) = 2 ^ 32 := by
      calc (2 : Int) ^ s * (2 * 2 ^ (31 - s)) = 2 * (2 ^ s * 2 ^ (31 - s)) := by ring
        _ = 2 ^ 32 := by rw [size]; rfl
    have cond := BitVec.toInt_eq_toNat_cond x
    rw [turn]
    split at cond <;> omega
  rw [ushiftRight_wrap]
  push_cast
  rw [same,Int.add_mul_ediv_left _ _ (by omega)]

end

section
variable {v : Value} {s : Word} (kind : v.kind = .VAL) (some_ : 0 < s.toNat) (small : s.toNat < 32)
  (low : -2 ^ 31 ≤ v.last) (high : v.last < 2 ^ 31)
  (sound : ∀ x ∈ v, ShiftsInto x s.toNat (v.shr (const s)))

include kind sound low high in
private theorem shifted_points {i : Nat} (rank : i ≤ v.mtimes.toNat) :
    (-2 ^ 31 ≤ v.lower.toInt + i * v.delta.toInt ∧ v.lower.toInt + i * v.delta.toInt < 2 ^ 31) ∧
      wrap ((v.lower.toInt + i * v.delta.toInt) / 2 ^ s.toNat) ∈ v.shr (const s) ∧
      (0 < s.toNat → s.toNat < 32 → v.lower.toInt + i * v.delta.toInt < 0 →
        wrap ((v.lower.toInt + i * v.delta.toInt) / 2 ^ s.toNat + 2 * 2 ^ (31 - s.toNat)) ∈ v.shr (const s)) := by
  have bottom := BitVec.le_toInt v.lower
  have top := BitVec.toInt_lt (x := v.lower)
  have between := rank_between (-2 ^ 31) (2 ^ 31 - 1) rank (b := v.lower.toInt) (d := v.delta.toInt)
    ⟨by omega,by omega⟩ ⟨low,by simp only [last] at high; omega⟩
  have value : (v.lower + i • v.delta).toInt = v.lower.toInt + i * v.delta.toInt := by
    rw [wrap_rank,toInt_wrap between.1 (by omega)]
  obtain ⟨logical,arithmetic⟩ := sound _ ((mem_val kind).mpr ⟨i,rank,rfl⟩)
  refine ⟨⟨between.1,by omega⟩,?_,?_⟩
  · rw [sshiftRight_wrap,value] at arithmetic
    exact arithmetic
  · intro some_ small negative
    rw [ushiftRight_of_neg some_ small (value ▸ negative),value] at logical
    exact logical

include kind some_ small low high sound in
private theorem null_fits (null : v.delta = 0 ∧ v.mtimes = 0) : 0 ≤ v.lower.toInt := by
  obtain ⟨size,two,one,half⟩ := powers some_ small
  by_contra negative
  obtain ⟨-,-,logical⟩ := shifted_points kind low high sound (i := 0) (Nat.zero_le _)
  have member := logical some_ small (by simpa using negative)
  rw [mem_shr kind small,if_pos null] at member
  have equal := wrap_eq_iff.mp member
  simp only [Nat.cast_zero,Int.zero_mul,add_zero,add_sub_cancel_left] at equal
  omega

private theorem half_way {d S : Int} (even : d % 2 = 0) (two : 2 ≤ S) {j n : Nat} (rank : j ≤ n) :
    (0 ≤ d → 0 ≤ j * (d / S) ∧ S * (j * (d / S)) ≤ n * d) ∧ (d < 0 → j * (d / S) ≤ 0 ∧ n * d ≤ 2 * (j * (d / S))) := by
  have ranks : (j : Int) ≤ n := by exact_mod_cast rank
  refine ⟨fun up => ?_,fun down => ?_⟩
  · have quotient : 0 ≤ d / S := Int.ediv_nonneg up (by omega)
    refine ⟨Int.mul_nonneg (Int.natCast_nonneg j) quotient,?_⟩
    calc S * (j * (d / S)) = j * (S * (d / S)) := by ring
      _ ≤ j * d := Int.mul_le_mul_of_nonneg_left (Int.mul_ediv_self_le (by omega)) (Int.natCast_nonneg j)
      _ ≤ n * d := Int.mul_le_mul_of_nonneg_right ranks up
  · have half : d / 2 ≤ d / S := by
      rw [Int.le_ediv_iff_mul_le (by omega)]
      have negative : d / 2 ≤ 0 := by omega
      have := Int.mul_le_mul_of_nonpos_left negative two
      omega
    have quotient : d / S ≤ 0 := (Int.ediv_neg_of_neg_of_pos down (by omega)).le
    refine ⟨Int.mul_nonpos_of_nonneg_of_nonpos (Int.natCast_nonneg j) quotient,?_⟩
    calc (n : Int) * d ≤ j * d := Int.mul_le_mul_of_nonpos_right ranks down.le
      _ ≤ j * (2 * (d / S)) := Int.mul_le_mul_of_nonneg_left (by omega) (Int.natCast_nonneg j)
      _ = 2 * (j * (d / S)) := by ring

include kind some_ small low high sound in
private theorem even_first (steps : ¬ (v.delta = 0 ∧ v.mtimes = 0)) (even : v.delta.toInt % 2 = 0) :
    0 ≤ v.lower.toInt := by
  obtain ⟨size,two,one,half⟩ := powers some_ small
  by_contra negative
  obtain ⟨range,-,logical⟩ := shifted_points kind low high sound (i := 0) (Nat.zero_le _)
  have member := logical some_ small (by simpa using negative)
  rw [mem_shr kind small,if_neg steps,if_pos even] at member
  obtain ⟨j,rank,same⟩ := member
  have way := half_way even two rank
  have length : v.last = v.lower.toInt + v.mtimes.toNat * v.delta.toInt := rfl
  simp only [Nat.cast_zero,Int.zero_mul,add_zero] at same range
  rcases le_or_gt 0 v.delta.toInt with up | down
  · obtain ⟨positive,short⟩ := way.1 up
    have twice : 2 * ((j : Int) * (v.delta.toInt / 2 ^ s.toNat)) ≤
        2 ^ s.toNat * ((j : Int) * (v.delta.toInt / 2 ^ s.toNat)) := Int.mul_le_mul_of_nonneg_right two positive
    have equal := eq_of_wrap same (by omega)
    have whole : (2 : Int) ^ s.toNat * (2 * 2 ^ (31 - s.toNat)) = 2 * (2 ^ s.toNat * 2 ^ (31 - s.toNat)) := by ring
    rw [show (j : Int) * (v.delta.toInt / 2 ^ s.toNat) = 2 * 2 ^ (31 - s.toNat) by omega,whole,size] at short
    omega
  · obtain ⟨back,short⟩ := way.2 down
    have equal := eq_of_wrap same (by omega)
    omega

include kind some_ small low high sound in
private theorem even_last (steps : ¬ (v.delta = 0 ∧ v.mtimes = 0)) (even : v.delta.toInt % 2 = 0)
    (first : 0 ≤ v.lower.toInt) : 0 ≤ v.last := by
  obtain ⟨size,two,one,half⟩ := powers some_ small
  by_contra negative
  obtain ⟨-,-,logical⟩ := shifted_points kind low high sound le_rfl
  have member := logical some_ small (by simpa [last] using negative)
  rw [mem_shr kind small,if_neg steps,if_pos even] at member
  obtain ⟨j,rank,same⟩ := member
  have length : v.last = v.lower.toInt + v.mtimes.toNat * v.delta.toInt := rfl
  rw [← length] at same
  have down : v.delta.toInt < 0 := by
    by_contra up
    have := Int.mul_nonneg (Int.natCast_nonneg v.mtimes.toNat) (Int.not_lt.mp up)
    omega
  obtain ⟨back,short⟩ := (half_way even two rank).2 down
  have base := div_range some_ small (BitVec.le_toInt v.lower) (BitVec.toInt_lt (x := v.lower))
  have stop := div_range some_ small low high
  have top := BitVec.toInt_lt (x := v.lower)
  have below : v.last / 2 ^ s.toNat < 0 := Int.ediv_neg_of_neg_of_pos (by omega) (by omega)
  have above : 0 ≤ v.lower.toInt / 2 ^ s.toNat := Int.ediv_nonneg first (by omega)
  have equal := eq_of_wrap same (by omega)
  omega

private theorem first_carry {b d S : Int} (positive : 0 < S) {n : Nat} (carry : S ≤ b % S + n * (d % S)) :
    ∃ i ≤ n, (b + (i : Nat) * d) / S = b / S + i * (d / S) + 1 := by
  classical
  have some_ : ∃ i : Nat, S ≤ b % S + i * (d % S) := ⟨n,carry⟩
  have here := Nat.find_spec some_
  have within : Nat.find some_ ≤ n := Nat.find_min' some_ carry
  have before : ∀ m < Nat.find some_, ¬ S ≤ b % S + (m : Nat) * (d % S) := fun m => Nat.find_min some_
  generalize Nat.find some_ = i at here within before
  have base := Int.emod_lt_of_pos b positive
  have step := Int.emod_lt_of_pos d positive
  cases i with
  | zero => simp only [Nat.cast_zero,Int.zero_mul,add_zero] at here; omega
  | succ i =>
    refine ⟨i + 1,within,?_⟩
    have previous := before i (Nat.lt_succ_self i)
    have add : ((i + 1 : Nat) : Int) * (d % S) = i * (d % S) + d % S := by push_cast; ring
    have unit : (b % S + ((i + 1 : Nat) : Int) * (d % S)) / S = 1 := by
      rw [Int.ediv_eq_iff_of_pos positive]
      omega
    rw [rank_div positive,unit]

include kind some_ small low high sound in
private theorem even_walk (steps : ¬ (v.delta = 0 ∧ v.mtimes = 0)) (even : v.delta.toInt % 2 = 0)
    (first : 0 ≤ v.lower.toInt) (end_ : 0 ≤ v.last) :
    v.lower.toInt % 2 ^ s.toNat + v.mtimes.toNat * (v.delta.toInt % 2 ^ s.toNat) < 2 ^ s.toNat ∨
      -2 ^ s.toNat ≤ v.delta.toInt ∧ v.delta.toInt < 0 := by
  obtain ⟨size,two,one,half⟩ := powers some_ small
  have positive : (0 : Int) < 2 ^ s.toNat := by omega
  have length : v.last = v.lower.toInt + v.mtimes.toNat * v.delta.toInt := rfl
  have top := BitVec.toInt_lt (x := v.lower)
  have base := div_range some_ small (BitVec.le_toInt v.lower) top
  have above : 0 ≤ v.lower.toInt / 2 ^ s.toNat := Int.ediv_nonneg first positive.le
  have quotient {i : Nat} (rank : i ≤ v.mtimes.toNat) : ∃ j ≤ v.mtimes.toNat,
      (v.lower.toInt + i * v.delta.toInt) / 2 ^ s.toNat =
        v.lower.toInt / 2 ^ s.toNat + (j : Nat) * (v.delta.toInt / 2 ^ s.toNat) := by
    obtain ⟨range,member,-⟩ := shifted_points kind low high sound rank
    rw [mem_shr kind small,if_neg steps,if_pos even] at member
    obtain ⟨j,bound,same⟩ := member
    have point := div_range some_ small range.1 range.2
    have between := rank_between 0 (2 ^ 31 - 1) rank (b := v.lower.toInt) (d := v.delta.toInt)
      ⟨first,by omega⟩ ⟨end_,by omega⟩
    have nonneg : 0 ≤ (v.lower.toInt + i * v.delta.toInt) / 2 ^ s.toNat := Int.ediv_nonneg between.1 positive.le
    have way := half_way even two bound
    refine ⟨j,bound,eq_of_wrap same ?_⟩
    rcases le_or_gt 0 v.delta.toInt with up | down
    · obtain ⟨ahead,short⟩ := way.1 up
      have twice : 2 * ((j : Int) * (v.delta.toInt / 2 ^ s.toNat)) ≤
          2 ^ s.toNat * ((j : Int) * (v.delta.toInt / 2 ^ s.toNat)) := Int.mul_le_mul_of_nonneg_right two ahead
      omega
    · obtain ⟨back,short⟩ := way.2 down
      omega
  by_contra fails
  push Not at fails
  obtain ⟨carry,large⟩ := fails
  obtain ⟨i,rank,next⟩ := first_carry positive carry
  obtain ⟨j,bound,same⟩ := quotient rank
  -- a step other than -1 cannot make up for the carry at this point, nor one upwards at the last point
  have unit : ((j : Int) - i) * (v.delta.toInt / 2 ^ s.toNat) = 1 := by
    rw [Int.sub_mul]
    omega
  rcases le_or_gt 0 v.delta.toInt with up | down
  · obtain ⟨k,rank',last_⟩ := quotient le_rfl
    have ranks : (k : Int) ≤ v.mtimes.toNat := by exact_mod_cast rank'
    have behind : (k : Int) * (v.delta.toInt / 2 ^ s.toNat) ≤ v.mtimes.toNat * (v.delta.toInt / 2 ^ s.toNat) :=
      Int.mul_le_mul_of_nonneg_right ranks (Int.ediv_nonneg up positive.le)
    have more : 1 ≤ (v.lower.toInt % 2 ^ s.toNat + v.mtimes.toNat * (v.delta.toInt % 2 ^ s.toNat)) / 2 ^ s.toNat := by
      rw [Int.le_ediv_iff_mul_le positive]
      omega
    have whole := rank_div positive v.lower.toInt v.delta.toInt v.mtimes.toNat
    omega
  · have two_ : v.delta.toInt / 2 ^ s.toNat < -1 := by
      rw [Int.ediv_lt_iff_lt_mul positive]
      by_contra small_
      exact absurd down (by have := large (by omega); omega)
    have divides : v.delta.toInt / 2 ^ s.toNat ∣ 1 := ⟨(j : Int) - i,by rw [Int.mul_comm]; exact unit.symm⟩
    have := Int.le_of_dvd (by decide) (Int.neg_dvd.mpr divides)
    omega

include kind some_ small low high sound in
private theorem odd_fits (odd : ¬ v.delta.toInt % 2 = 0) :
    0 ≤ v.lower.toInt ∧ 0 ≤ v.last ∧ v.last < 2 ^ 31 ∧
      if 0 < v.delta.toInt then
        v.lower.toInt % 2 ^ s.toNat + v.mtimes.toNat * v.delta.toInt % 2 ^ s.toNat < 2 ^ s.toNat
      else v.last / 2 ^ s.toNat = v.lower.toInt / 2 ^ s.toNat := by
  obtain ⟨size,two,one,half⟩ := powers some_ small
  have positive : (0 : Int) < 2 ^ s.toNat := by omega
  have steps : ¬ (v.delta = 0 ∧ v.mtimes = 0) := by
    rintro ⟨zero,-⟩
    exact odd (by rw [zero]; rfl)
  have length : v.last = v.lower.toInt + v.mtimes.toNat * v.delta.toInt := rfl
  have top := BitVec.toInt_lt (x := v.lower)
  have base := div_range some_ small (BitVec.le_toInt v.lower) top
  have stop := div_range some_ small low high
  -- the count is a quotient of a word
  have count : (((v.delta * v.mtimes).toNat / 2 ^ s.toNat : Nat) : Int) =
      v.mtimes.toNat * v.delta.toInt % 2 ^ 32 / 2 ^ s.toNat := by
    rw [← count_toNat_shr]
    push_cast
    rfl
  have few : (v.mtimes.toNat * v.delta.toInt % 2 ^ 32) / 2 ^ s.toNat < 2 * 2 ^ (31 - s.toNat) := by
    rw [Int.ediv_lt_iff_lt_mul positive,Int.mul_assoc,Int.mul_comm (2 ^ (31 - s.toNat)),size]
    omega
  have reach {y : Int} (member : wrap y ∈ v.shr (const s)) :
      (y - v.lower.toInt / 2 ^ s.toNat) % 2 ^ 32 ≤ v.mtimes.toNat * v.delta.toInt % 2 ^ 32 / 2 ^ s.toNat := by
    rw [mem_shr kind small,if_neg steps,if_neg odd,← wrap_sub] at member
    have distance := toNat_wrap (y - v.lower.toInt / 2 ^ s.toNat)
    omega
  have first : 0 ≤ v.lower.toInt := by
    by_contra negative
    obtain ⟨-,-,logical⟩ := shifted_points kind low high sound (i := 0) (Nat.zero_le _)
    have far := reach (logical some_ small (by simpa using negative))
    simp only [Nat.cast_zero,Int.zero_mul,add_zero,add_sub_cancel_left] at far
    omega
  have above : 0 ≤ v.lower.toInt / 2 ^ s.toNat := Int.ediv_nonneg first positive.le
  obtain ⟨-,arithmetic,-⟩ := shifted_points kind low high sound le_rfl
  have far := reach arithmetic
  rw [← length] at far
  -- the last point is not below the first one by a quotient
  have ahead : v.lower.toInt / 2 ^ s.toNat ≤ v.last / 2 ^ s.toNat := by omega
  have end_ : 0 ≤ v.last := by
    by_contra negative
    have : v.last / 2 ^ s.toNat < 0 := Int.ediv_neg_of_neg_of_pos (by omega) positive
    omega
  refine ⟨first,end_,high,?_⟩
  split
  case isTrue up =>
    have way : 0 ≤ (v.mtimes.toNat : Int) * v.delta.toInt := Int.mul_nonneg (Int.natCast_nonneg _) up.le
    have whole := rank_div positive v.lower.toInt (v.mtimes.toNat * v.delta.toInt) 1
    simp only [Int.one_mul,← length] at whole
    rw [Int.emod_eq_of_lt (by omega) (by omega),Int.emod_eq_of_lt way (by omega)] at far
    by_contra carry
    have more : 1 ≤ (v.lower.toInt % 2 ^ s.toNat + v.mtimes.toNat * v.delta.toInt % 2 ^ s.toNat) / 2 ^ s.toNat := by
      rw [Int.le_ediv_iff_mul_le positive]
      omega
    omega
  case isFalse down =>
    have way : (v.mtimes.toNat : Int) * v.delta.toInt ≤ 0 :=
      Int.mul_nonpos_of_nonneg_of_nonpos (Int.natCast_nonneg _) (by omega)
    have behind : v.last / 2 ^ s.toNat ≤ v.lower.toInt / 2 ^ s.toNat := Int.ediv_le_ediv positive (by omega)
    omega

include kind small low high sound in
private theorem odd_whole (zero : s.toNat = 0) (steps : ¬ (v.delta = 0 ∧ v.mtimes = 0)) (odd : ¬ v.delta.toInt % 2 = 0) :
    v.mtimes.toNat ≤ 1 ∨ 0 < v.delta.toInt ∧ v.mtimes.toNat * v.delta.toInt < 2 ^ 32 := by
  have length : v.last = v.lower.toInt + v.mtimes.toNat * v.delta.toInt := rfl
  have bottom := BitVec.le_toInt v.lower
  have top := BitVec.toInt_lt (x := v.lower)
  by_cases one : v.mtimes.toNat ≤ 1
  · exact .inl one
  rcases le_or_gt 0 v.delta.toInt with up | down
  · exact .inr ⟨by omega,by omega⟩
  · obtain ⟨-,member,-⟩ := shifted_points kind low high sound (i := 1) (by omega)
    rw [mem_shr kind small,if_neg steps,if_neg odd,zero,← wrap_sub,Nat.pow_zero,Nat.div_one] at member
    have distance := toNat_wrap ((v.lower.toInt + (1 : Nat) * v.delta.toInt) / 2 ^ 0 - v.lower.toInt / 2 ^ 0)
    have count := count_toNat_shr v
    have more : (v.mtimes.toNat : Int) * v.delta.toInt ≤ 2 * v.delta.toInt :=
      Int.mul_le_mul_of_nonpos_right (by omega) down.le
    simp only [Int.pow_zero,Int.ediv_one,Nat.cast_one,Int.one_mul,add_sub_cancel_left] at distance
    simp only [Int.pow_zero,Int.ediv_one,Nat.cast_one,Int.one_mul,add_sub_cancel_left] at member
    omega

end

def ShiftsContain (v : Value) (s : Word) : Prop :=
  ∀ x ∈ v, x <<< s.toNat ∈ v.shl (const s) ∧ x >>> s.toNat ∈ v.shr (const s) ∧
    x.sshiftRight s.toNat ∈ v.shr (const s)

theorem shiftsContain_top {v : Value} {s : Word} (kind : v.kind = .ALL) : ShiftsContain v s := by
  intro x _
  have left : (v.shl (const s)).kind = .ALL := by
    unfold shl
    repeat' split
    all_goals simp_all
  have right : (v.shr (const s)).kind = .ALL := by
    unfold shr
    repeat' split
    all_goals simp_all
  exact ⟨mem_all left,mem_all right,mem_all right⟩

theorem shiftsContain_val {v : Value} {s : Word} (kind : v.kind = .VAL) (small : s.toNat < 32) :
    ShiftsContain v s ↔ ∀ x ∈ v, ShiftsInto x s.toNat (v.shr (const s)) :=
  ⟨fun contain x member => (contain x member).2,fun into x member => ⟨shl_val kind small x member,into x member⟩⟩

/-- A shift by a constant contains the shifted words when the walk of the right shift fits;
    for a walk that stays in the range of signed words, only then. -/
theorem shifts_contain_iff {v : Value} {s : Word} (small : s.toNat < 32) :
    ((v.kind = .VAL → ShrFits v s.toNat) → ShiftsContain v s) ∧
      (v.kind = .VAL → -2 ^ 31 ≤ v.last → v.last < 2 ^ 31 → ShiftsContain v s → ShrFits v s.toNat) := by
  refine ⟨fun fits x member => ?_,fun kind low high contain => ?_⟩
  · rcases kind_of_mem member with kind | kind
    · refine (shiftsContain_val kind small).mpr (fun x member => ?_) x member
      have fits := fits kind
      by_cases null : v.delta = 0 ∧ v.mtimes = 0
      · exact shr_null kind small null fits x member
      · by_cases even : v.delta.toInt % 2 = 0
        · exact shr_even kind small null even fits x member
        · exact shr_odd kind small null even fits x member
    · exact shiftsContain_top kind x member
  · have sound := (shiftsContain_val kind small).mp contain
    unfold ShrFits
    rcases Nat.eq_zero_or_pos s.toNat with zero | some_
    · simp only [zero,true_or,if_true]
      split
      case isTrue => trivial
      case isFalse steps =>
        split
        case isTrue => trivial
        case isFalse odd => exact odd_whole kind small low high sound zero steps odd
    · split
      case isTrue null => exact .inr (null_fits kind some_ small low high sound null)
      case isFalse steps =>
        split
        case isTrue even =>
          have first := even_first kind some_ small low high sound steps even
          have end_ := even_last kind some_ small low high sound steps even first
          exact .inr ⟨first,end_,high,even_walk kind some_ small low high sound steps even first end_⟩
        case isFalse odd =>
          rw [if_neg (by omega)]
          exact odd_fits kind some_ small low high sound odd

/-- The words 0, 4, 8, 12 shifted by 2. -/
theorem shifts_contain_iff_words : ShiftsContain ⟨.VAL,0,4,3⟩ 2 := by
  refine (shifts_contain_iff (by decide)).1 fun _ => ?_
  unfold ShrFits
  decide

/-- The word -1 by the logical shift: 2^31 - 1 is lost. -/
theorem shr_loses : ¬ ∀ (v : Value) (s : Word), v.kind ≠ .REG → s.toNat < 32 → ShiftsContain v s := by
  intro contain
  have member := ((contain (const (-1)) 1 (by decide) (by decide)) (-1) (mem_mk.mpr (Progression.base_mem _ _ _))).2.1
  rw [mem_shr rfl (by decide),if_pos (by decide)] at member
  exact absurd member (by decide)

end Otawa.Clp.Value
