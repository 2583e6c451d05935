import Otawa.ClpInter

/-!
The filters of a value by a threshold: `Value::ge`, `le`, `geu` and `leu`. Each has an upward
and a downward path: the walk is met with the interval beyond the threshold, or cut after a
count of steps, or taken from a later word on. A result is right when it keeps the words on
the right side of the threshold and has no word that the value has not; the conditions are
exact (`filters_iff`).
-/
namespace Otawa.Clp
open Otawa.Progression (progression)

namespace Value

/-! ### The program -/

/-- `swrap` and `uwrap`: the walk leaves the signed or the unsigned range upwards. -/
def swrap (v : Value) : Bool := v.delta != 0 && (maxn - v.lower) / abs v.delta < v.mtimes
def uwrap (v : Value) : Bool := v.delta != 0 && (umax - v.lower) / abs v.delta < v.mtimes

/-- `ge`; `none` when a division traps. -/
def ge (v : Value) (k : Word) : Option Value :=
  if v = all ∨ v = none then some v
  else if v.isConst then some (if v.lower.slt k then none else v)
  else if (0 : Word).slt v.delta then v.inter ⟨.VAL,k,1,maxn - k⟩
  else
    let n := if v.swrap then (maxn - k).sdiv (-v.delta) else v.mtimes
    if v.lower.sle k then some none
    -- the comparison is unsigned
    else if k ≤ v.lower + v.delta * n then some { v with mtimes := n }
    else if DivTraps (k - v.lower) v.delta then Option.none
    else some { v with mtimes := (k - v.lower).sdiv v.delta }

/-- `le`, with its assertion. -/
def le (v : Value) (k : Word) : Option Value :=
  if v = all ∨ v = none then some v
  else if v.isConst then some (if k.slt v.lower then none else v)
  else
    let n :=
      if v.swrap then if v.delta.slt 0 then (minn + v.lower) / -v.delta else (maxn - v.lower) / v.delta
      else v.mtimes
    let v := { v with mtimes := n }
    if k.slt v.start then some none
    else if v.stop.slt k then some v
    else if v.delta.slt 0 then
      let s := (v.lower - k - v.delta - 1).sdiv (-v.delta)
      if s.slt 0 then Option.none else some { v with lower := v.lower + v.delta * s, mtimes := n - s }
    else some { v with mtimes := (k - v.lower).sdiv v.delta }

def geu (v : Value) (k : Word) : Option Value :=
  if v = all ∨ v = none then some v
  else if v.isConst then some (if v.lower < k then none else v)
  else if (0 : Word).slt v.delta then v.inter ⟨.VAL,k,1,umax - k⟩
  else
    let n := if v.uwrap then (umax - k) / -v.delta else v.mtimes
    if v.lower ≤ k then some none
    else if k ≤ v.lower + v.delta * n then some { v with mtimes := n }
    else if DivTraps (k - v.lower) v.delta then Option.none
    else some { v with mtimes := (k - v.lower).sdiv v.delta }

def leu (v : Value) (k : Word) : Option Value :=
  if v = all ∨ v = none then some v
  else if v.isConst then some (if k < v.lower then none else v)
  else if v.delta.slt 0 then v.inter ⟨.VAL,0,1,k⟩
  else
    let n := if v.uwrap then k / v.delta else v.mtimes
    if k ≤ v.lower then some none
    else if v.lower + v.delta * n ≤ k then some { v with mtimes := n }
    else some { v with mtimes := (k - v.lower) / v.delta }

/-- The result has each word of v that is kept and no word that v has not. -/
def Filters (v : Value) (keep : Word → Prop) : Option Value → Prop
  | some r => (∀ x ∈ v, keep x → x ∈ r) ∧ ∀ x ∈ r, x ∈ v
  | Option.none => False

/-! ### When it does

The conditions are on the first word b of the walk, its step d, its count n and the
threshold k as integers, of the signed or of the unsigned range. -/

/-- A walk that comes back to its first word after one more step. -/
def Whole (d : Int) (n : Nat) : Prop := (n + 1) * d.natAbs = 2 ^ 32

/-- An upward walk in the turn from `o` on is met with the interval from k on. -/
def UpFits (o b d : Int) (n : Nat) (k : Int) : Prop :=
  if k = o + (2 ^ 32 - 1) then b + n * d ≠ k ∨ k - b < 2 ^ 31 ∨ d = 1
  else if k ≤ b then (wrap (k + (b - k - 2 ^ 32) % d)).sle (wrap b) = true
  else k ≤ b + n * d ∨ b + (n + 1) * d ≤ k ∨ (wrap (b + (n + 1) * d)).sle (wrap b) = true

/-- A downward walk is cut at the threshold; the division traps at a half turn by steps of -1. -/
def CutFits (b d : Int) (n : Nat) (k : Int) : Prop :=
  ¬ (d = -1 ∧ b - k = 2 ^ 31) ∧
  if b - k ≤ 2 ^ 31 ∨ d = -1 then b + (n + 1) * d < k else Whole d n ∧ b + n * d ≤ k

/-- A downward walk that is kept from wrapping with the count m first. -/
def DownFits (b d : Int) (n : Nat) (k m : Int) : Prop :=
  if k % 2 ^ 32 ≤ (b + m * d) % 2 ^ 32 then Min.min (n : Int) ((b - k) / -d) ≤ m ∧ (m ≤ n ∨ Whole d n)
  else CutFits b d n k

/-- `(MAXn - k) / (-d)`, a signed division of words. -/
def signedCount (d k : Int) : Int :=
  if 0 ≤ k then (2 ^ 31 - 1 - k) / -d
  else if d = -2 ^ 31 then if k = -1 then 1 else 0
  else -((k + 2 ^ 31 + 1) / -d) % 2 ^ 32

def GeFits (b d : Int) (n : Nat) (k : Int) : Prop :=
  if 0 < d then UpFits (-2 ^ 31) b d n k
  else if b ≤ k then b ≠ k
  else DownFits b d n k (if b - n * d < 2 ^ 31 then n else signedCount d k)

def GeuFits (b d : Int) (n : Nat) (k : Int) : Prop :=
  if 0 < d then UpFits 0 b d n k
  else if b ≤ k then b ≠ k
  else DownFits b d n k (if b - n * d < 2 ^ 32 then n else (2 ^ 32 - 1 - k) / -d)

def LeFits (b d : Int) (n : Nat) (k : Int) : Prop :=
  if 0 < d then k < b ∨ b + n * d < k ∨ k - b < 2 ^ 31 ∨ d = 1 ∨ Whole d n
  else
    k < (if b - n * d < 2 ^ 31 then b + n * d else (b + 2 ^ 31) % -d - 2 ^ 31) ∨
      (b - n * d < 2 ^ 31 ∨ b + (n + 1) * d < -2 ^ 31) ∧
        (b < k ∨ d = -2 ^ 31 ∨ b - k - d ≤ 2 ^ 31 ∨ 2 ^ 32 + d < b - k - d - 1)

def LeuFits (b d : Int) (n : Nat) (k : Int) : Prop :=
  if 0 < d then b ≠ k
  else if k = 0 then ¬ (d = -1 ∧ b = 2 ^ 31) ∧ (b + n * d ≠ 0 ∨ b ≤ 2 ^ 31 ∨ d = -1)
  else if d = -1 then k < b + n * d ∨ b + n * d < 2 ^ 31
  else if b + n * d ≤ k then
    k ≤ b ∨ if k - b < 2 ^ 31 then (wrap b).sle (wrap (b + (k - b) / -d * -d)) = true else 2 ^ 32 - (k - b) < -d
  else b - d ≤ 2 ^ 32 ∨ 2 ^ 31 < b - k ∨ (b - k) / -d ≤ n ∨ (wrap b).sle (wrap (b + (b - k) / -d * d)) = true

/-! ### Quotients of a distance by a step -/

section
variable {t d e : Int} {n : Nat}

theorem sdiv_back (range : 0 ≤ t ∧ t ≤ 2 ^ 31) (step : -2 ^ 31 ≤ d ∧ d < 0) :
    (wrap (-t)).sdiv (wrap d) = wrap (t / -d) := by
  rw [sdiv_wrap (by omega) (by omega),Int.neg_tdiv,← Int.tdiv_neg,Int.tdiv_eq_ediv_of_nonneg range.1]

theorem sdiv_along (range : 0 ≤ t ∧ t < 2 ^ 31) (step : -2 ^ 31 ≤ d ∧ d < 0) :
    (wrap t).sdiv (wrap d) = wrap (-(t / -d)) := by
  rw [sdiv_wrap (by omega) (by omega),← Int.tdiv_eq_ediv_of_nonneg range.1,Int.tdiv_neg,neg_neg]

theorem whole_iff (size : (d.natAbs : Int) = e) : Whole d n ↔ (n + 1) * e = 2 ^ 32 := by
  rw [Whole,← size]
  exact_mod_cast Iff.rfl

/-- The count cut at a distance from a half turn on, whose quotient is negative. -/
theorem cut_distance {m : Nat} (size : 0 < e ∧ e ≤ 2 ^ 31) (far : 2 ^ 31 ≤ t ∧ t < 2 ^ 32) (some : n ≠ 0)
    (short : n * e < 2 ^ 32) (count : (m : Int) = -((2 ^ 32 - t) / e) % 2 ^ 32) :
    (Min.min n (t / e).toNat ≤ m ∧ (m ≤ n ∨ (n + 1) * e = 2 ^ 32)) ↔ t ≤ n * e ∧ (e = 1 ∨ (n + 1) * e = 2 ^ 32) := by
  have one : ((n : Int) + 1) * e = n * e + e := by ring
  by_cases unit : e = 1
  · subst unit
    rw [Int.ediv_one] at *
    omega
  · have nonneg : 0 ≤ (2 ^ 32 - t) / e := Int.ediv_nonneg (by omega) size.1.le
    have rank : 1 ≤ t / e := (Int.le_ediv_iff_mul_le size.1).mpr (by omega)
    have lost : (2 ^ 32 - t) / e = 0 ↔ 2 ^ 32 - t < e := by
      rw [Int.ediv_eq_iff_of_pos size.1]
      omega
    have half : (2 ^ 32 - t) / e * 2 ≤ 2 ^ 32 - t :=
      (Int.mul_le_mul_of_nonneg_left (by omega) nonneg).trans (Int.ediv_mul_le _ size.1.ne')
    have few : (n : Int) * 2 ≤ n * e := Int.mul_le_mul_of_nonneg_left (by omega) (by omega)
    omega

section
variable {m : Word} (count : m.toNat = n) (range : -2 ^ 31 ≤ t ∧ t < 2 ^ 31) (step : -2 ^ 31 ≤ d ∧ d < 2 ^ 31)
  (steps : d ≠ 0)
include count range step steps

/-- The test of a constant at a distance in the direction of the step. -/
theorem test_ahead (ahead : 0 ≤ t.tdiv d) :
    ((wrap t).srem (wrap d) = 0 ∧ (wrap t).sdiv (wrap d) ≤ m) ↔ ∃ i ≤ n, t = (i : Nat) * d := by
  have small := Int.natAbs_tdiv_le_natAbs t d
  rw [srem_wrap range step,sdiv_wrap range step,BitVec.le_def,count,← Int.ofNat_le,toNat_wrap,
    Int.emod_eq_of_lt ahead (by omega)]
  constructor
  · rintro ⟨divides,within⟩
    refine ⟨(t.tdiv d).toNat,by omega,?_⟩
    rw [Int.toNat_of_nonneg ahead,mul_comm,Int.mul_tdiv_cancel_of_tmod_eq_zero divides]
  · rintro ⟨i,rank,rfl⟩
    rw [Int.mul_tdiv_cancel _ steps]
    exact ⟨Int.mul_tmod_left _ _,by omega⟩

/-- Against it the quotient is negative, and beyond the count but for steps of one word. -/
theorem test_behind (behind : t.tdiv d ≤ 0) (other : t ≠ 0) (short : n * d.natAbs < 2 ^ 32) :
    ((wrap t).srem (wrap d) = 0 ∧ (wrap t).sdiv (wrap d) ≤ m) ↔ d.natAbs = 1 ∧ 2 ^ 32 - t.natAbs ≤ n := by
  rw [srem_wrap range step,sdiv_wrap range step,BitVec.le_def,count,← Int.ofNat_le,toNat_wrap]
  have units : d.natAbs = 1 → t.tmod d = 0 ∧ (t.tdiv d).natAbs = t.natAbs := by
    intro unit
    rcases Int.natAbs_eq_iff.mp unit with rfl | rfl
    · exact ⟨Int.tmod_one t,by rw [Nat.cast_one,Int.tdiv_one]⟩
    · rw [Nat.cast_one,Int.tmod_neg,Int.tdiv_neg,Int.natAbs_neg,Int.tdiv_one]
      exact ⟨Int.tmod_one t,rfl⟩
  constructor
  · rintro ⟨divides,within⟩
    have product := Int.mul_tdiv_cancel_of_tmod_eq_zero divides
    have size : d.natAbs * (t.tdiv d).natAbs = t.natAbs := by rw [← Int.natAbs_mul,product]
    have some : t.tdiv d ≠ 0 := fun zero => other (by rw [← product,zero,mul_zero])
    by_cases unit : d.natAbs = 1
    · have := (units unit).2
      exact ⟨unit,by omega⟩
    · have half : 2 * (t.tdiv d).natAbs ≤ t.natAbs := size ▸ Nat.mul_le_mul_right _ (by omega)
      have few : n * 2 ≤ n * d.natAbs := Nat.mul_le_mul_left _ (by omega)
      omega
  · rintro ⟨unit,within⟩
    obtain ⟨divides,same⟩ := units unit
    exact ⟨divides,by omega⟩

end
end

section
variable {o b d : Int} {n : Nat} {v : Value} (walks : Walks o v b d n)
include walks

theorem Walks.short_of (size : (d.natAbs : Int) = e) : n * e < 2 ^ 32 := by
  rw [← size]
  exact_mod_cast walks.short

theorem filters_none {keep : Word → Prop} :
    Filters v keep (some none) ↔ ∀ i ≤ n, ¬ keep (wrap (b + (i : Nat) * d)) := by
  have empty : ∀ x : Word, ¬ x ∈ none := fun x => mem_none rfl
  constructor
  · intro filters i rank kept
    exact empty _ (filters.1 _ (walks.mem.mpr (mem_walk.mpr ⟨i,rank,rfl⟩)) kept)
  · intro lost
    refine ⟨fun x member kept => ?_,fun x member => absurd member (empty x)⟩
    obtain ⟨i,rank,rfl⟩ := mem_walk.mp (walks.mem.mp member)
    exact absurd kept (lost i rank)

theorem filters_cut {keep : Word → Prop} {j : Nat} (kept : ∀ i ≤ n, keep (wrap (b + (i : Nat) * d)) ↔ i ≤ j) (m : Word) :
    Filters v keep (some { v with mtimes := m }) ↔ Min.min n j ≤ m.toNat ∧ (m.toNat ≤ n ∨ Whole d n) := by
  have member : ∀ x : Word, x ∈ ({ v with mtimes := m } : Value) ↔ x ∈ progression (wrap b) (wrap d) m.toNat := by
    intro x
    have kind : ({ v with mtimes := m } : Value).kind = .VAL := walks.kind
    rw [mem_val kind,← walks.lower,← walks.delta]
  have small : d.natAbs ≤ 2 ^ 31 := by
    have := walks.step
    omega
  rw [← walks.span.keeps_iff walks.steps j m.toNat,Whole,← walks.span.inside_iff walks.steps small m.toNat]
  refine and_congr ⟨fun keeps i rank first => ?_,fun keeps x inside isKept => ?_⟩ ?_
  · exact (member _).mp (keeps _ (walks.mem.mpr (mem_walk.mpr ⟨i,rank,rfl⟩)) ((kept i rank).mpr first))
  · obtain ⟨i,rank,rfl⟩ := mem_walk.mp (walks.mem.mp inside)
    exact (member _).mpr (keeps i rank ((kept i rank).mp isKept))
  · exact forall_congr' fun x => by rw [member,walks.mem]

/-- The cut keeps the words down to the threshold and adds none. -/
theorem cut_iff {k : Int} (down : d < 0) (above : k < b) (turn : b - k < 2 ^ 32) (safe : ¬ (d = -1 ∧ b - k = 2 ^ 31)) :
    (Min.min n ((b - k) / -d).toNat ≤ ((wrap k - wrap b).sdiv (wrap d)).toNat ∧
      (((wrap k - wrap b).sdiv (wrap d)).toNat ≤ n ∨ Whole d n)) ↔ CutFits b d n k := by
  have step := walks.step
  have size : (d.natAbs : Int) = -d := by omega
  have short := walks.short_of size
  have low : 0 ≤ (b - k) / -d := Int.ediv_nonneg (by omega) (by omega)
  have opposite : ((n : Int) + 1) * d = -((n + 1) * -d) := by ring
  have last : (n : Int) * d = -(n * -d) := by ring
  have one : ((n : Int) + 1) * -d = n * -d + -d := by ring
  rw [CutFits,and_iff_right safe,whole_iff size,opposite,last,← wrap_sub]
  by_cases near : b - k ≤ 2 ^ 31
  · have high : (b - k) / -d ≤ b - k := Int.ediv_le_self _ (by omega)
    have rank : (b - k) / -d ≤ n ↔ b - k < (n + 1) * -d := by
      rw [← Int.lt_add_one_iff,Int.ediv_lt_iff_lt_mul (by omega)]
    have count := toNat_wrap ((b - k) / -d)
    rw [if_pos (.inl near),show k - b = -(b - k) by ring,sdiv_back ⟨by omega,near⟩ ⟨step.1,down⟩]
    omega
  · have same : wrap (k - b) = wrap (2 ^ 32 - (b - k)) := wrap_eq_iff.mpr (by omega)
    rw [same,sdiv_along ⟨by omega,by omega⟩ ⟨step.1,down⟩,
      cut_distance ⟨by omega,by omega⟩ ⟨by omega,turn⟩ walks.count short (toNat_wrap _)]
    by_cases unit : d = -1
    · rw [if_pos (.inr unit)]
      omega
    · rw [if_neg (by omega)]
      omega

theorem none_iff {k : Int} {read : Word → Int} (reads : ∀ z, o ≤ z → z ≤ o + (2 ^ 32 - 1) → read (wrap z) = z)
    (down : d < 0) (below : b ≤ k) : Filters v (fun x => k ≤ read x) (some none) ↔ b ≠ k := by
  rw [filters_none walks]
  have first := reads b walks.span.first.1 walks.span.first.2
  constructor
  · rintro lost rfl
    have zero := lost 0 (Nat.zero_le n)
    simp only [Nat.cast_zero,zero_mul,add_zero] at zero
    omega
  · intro other i rank
    have inTurn := walks.span.rank rank
    have descends : (i : Int) * d ≤ 0 := Int.mul_nonpos_of_nonneg_of_nonpos (Int.natCast_nonneg i) down.le
    rw [reads _ inTurn.1 inTurn.2]
    omega

theorem filters_down_iff {k : Int} {read : Word → Int} (reads : ∀ z, o ≤ z → z ≤ o + (2 ^ 32 - 1) → read (wrap z) = z)
    (down : d < 0) (above : k < b) (turn : o ≤ k) (m : Word) :
    Filters v (fun x => k ≤ read x)
        (if wrap k ≤ v.lower + v.delta * m then some { v with mtimes := m }
         else if DivTraps (wrap k - v.lower) v.delta then Option.none
         else some { v with mtimes := (wrap k - v.lower).sdiv v.delta }) ↔ DownFits b d n k m.toNat := by
  have first := walks.span.first
  have low : 0 ≤ (b - k) / -d := Int.ediv_nonneg (by omega) (by omega)
  have kept : ∀ i ≤ n, k ≤ read (wrap (b + (i : Nat) * d)) ↔ i ≤ ((b - k) / -d).toNat := by
    intro i rank
    have inTurn := walks.span.rank rank
    have quotient : (i : Int) ≤ (b - k) / -d ↔ (i : Int) * -d ≤ b - k := Int.le_ediv_iff_mul_le (by omega)
    have opposite : (i : Int) * -d = -(i * d) := by ring
    rw [reads _ inTurn.1 inTurn.2]
    omega
  rw [DownFits,walks.upper]
  by_cases reached : k % 2 ^ 32 ≤ (b + m.toNat * d) % 2 ^ 32
  · rw [if_pos (le_wrap.mpr reached),if_pos reached,filters_cut walks kept]
    refine and_congr ?_ (or_congr ?_ Iff.rfl)
    · omega
    · omega
  · rw [if_neg (mt le_wrap.mp reached),if_neg reached]
    have traps : DivTraps (wrap k - v.lower) v.delta ↔ d = -1 ∧ b - k = 2 ^ 31 := by
      rw [walks.lower,walks.delta,← wrap_sub,divTraps_iff walks.step walks.steps]
      omega
    by_cases trap : d = -1 ∧ b - k = 2 ^ 31
    · rw [if_pos (traps.mpr trap),CutFits]
      exact iff_of_false id fun fits => fits.1 trap
    · rw [if_neg (mt traps.mp trap),filters_cut walks kept,walks.lower,walks.delta]
      exact cut_iff walks down above (by omega) trap

end

theorem reads_signed (z : Int) (low : -2 ^ 31 ≤ z) (high : z ≤ -2 ^ 31 + (2 ^ 32 - 1)) : (wrap z).toInt = z :=
  toInt_wrap low (by omega)

theorem reads_unsigned (z : Int) (low : 0 ≤ z) (high : z ≤ 0 + (2 ^ 32 - 1)) : ((wrap z).toNat : Int) = z := by
  rw [toNat_wrap]
  exact Int.emod_eq_of_lt low (by omega)

section
variable {o b d : Int} {n : Nat} {v : Value} (walks : Walks o v b d n)
include walks

theorem Walks.wraps_iff {top : Word} (greatest : top = wrap (o + (2 ^ 32 - 1))) :
    (top - v.lower) / abs v.delta < v.mtimes ↔ o + (2 ^ 32 - 1) < b + n * d.natAbs := by
  have first := walks.span.first
  have some : 0 < (d.natAbs : Int) := by have := walks.steps; omega
  have distance : (((top - v.lower).toNat : Nat) : Int) = o + (2 ^ 32 - 1) - b := by
    rw [greatest,walks.lower,← wrap_sub,toNat_wrap]
    exact Int.emod_eq_of_lt (by omega) (by omega)
  have quotient : o + (2 ^ 32 - 1) - b < n * d.natAbs ↔ (o + (2 ^ 32 - 1) - b) / d.natAbs < n :=
    (Int.ediv_lt_iff_lt_mul some).symm
  rw [BitVec.lt_def,BitVec.toNat_udiv,walks.abs_delta,walks.mtimes,← Int.ofNat_lt,Int.natCast_ediv,distance,
    ← quotient]
  omega

end

theorem umax_eq : umax = wrap (0 + (2 ^ 32 - 1)) := by decide
theorem maxn_eq : maxn = wrap (-2 ^ 31 + (2 ^ 32 - 1)) := by decide

theorem uwrap_iff {b d : Int} {n : Nat} {v : Value} (walks : Walks 0 v b d n) :
    v.uwrap = true ↔ 2 ^ 32 ≤ b + n * d.natAbs := by
  have some : v.delta ≠ 0 := fun same => walks.steps (by rw [← walks.toInt_delta,same]; rfl)
  have wraps := walks.wraps_iff umax_eq
  simp only [uwrap,Bool.and_eq_true,bne_iff_ne,ne_eq,some,not_false_eq_true,true_and,decide_eq_true_eq,wraps]
  omega

theorem swrap_iff {b d : Int} {n : Nat} {v : Value} (walks : Walks (-2 ^ 31) v b d n) :
    v.swrap = true ↔ 2 ^ 31 ≤ b + n * d.natAbs := by
  have some : v.delta ≠ 0 := fun same => walks.steps (by rw [← walks.toInt_delta,same]; rfl)
  have wraps := walks.wraps_iff maxn_eq
  simp only [swrap,Bool.and_eq_true,bne_iff_ne,ne_eq,some,not_false_eq_true,true_and,decide_eq_true_eq,wraps]
  omega

theorem geu_count {b d k : Int} {n : Nat} {v : Value} (walks : Walks 0 v b d n) (down : d < 0)
    (range : 0 ≤ k ∧ k < 2 ^ 32) : (((if v.uwrap then (umax - wrap k) / -v.delta else v.mtimes).toNat : Nat) : Int) =
      if b - n * d < 2 ^ 32 then (n : Int) else (2 ^ 32 - 1 - k) / -d := by
  have size : (n : Int) * d.natAbs = -(n * d) := by
    rw [show (d.natAbs : Int) = -d by omega]
    ring
  have test := uwrap_iff walks
  have step := walks.step
  by_cases wraps : v.uwrap = true
  · have turned : ¬ b - n * d < 2 ^ 32 := by
      have := test.mp wraps
      omega
    rw [if_pos wraps,if_neg turned,umax_eq,walks.delta,← wrap_sub,← wrap_neg,udiv_wrap,
      Int.emod_eq_of_lt (by omega) (by omega),Int.emod_eq_of_lt (by omega) (by omega)]
    rfl
  · have inTurn : b - n * d < 2 ^ 32 := by
      have := mt test.mpr wraps
      omega
    rw [if_neg wraps,if_pos inTurn,walks.mtimes]

theorem geu_down {b d k : Int} {n : Nat} {v : Value} (walks : Walks 0 v b d n) (down : d < 0)
    (range : 0 ≤ k ∧ k < 2 ^ 32) : Filters v (fun x => k ≤ x.toNat) (v.geu (wrap k)) ↔ GeuFits b d n k := by
  have first := walks.span.first
  have notUp : ¬ (0 : Word).slt v.delta = true := by rw [walks.up_iff]; omega
  have below : v.lower ≤ wrap k ↔ b ≤ k := by
    rw [walks.lower,le_wrap,Int.emod_eq_of_lt (by omega) (by omega),Int.emod_eq_of_lt (by omega) (by omega)]
  rw [geu,if_neg walks.live.1,walks.live.2,GeuFits,if_neg (by omega : ¬ 0 < d)]
  simp only [Bool.false_eq_true,if_false,notUp]
  by_cases under : b ≤ k
  · rw [if_pos (below.mpr under),if_pos under]
    exact none_iff walks reads_unsigned down under
  · rw [if_neg (mt below.mp under),if_neg under,← geu_count walks down range]
    exact filters_down_iff walks reads_unsigned down (by omega) range.1 _

/-- `(MAXn - k) / (-d)` for a downward step. -/
theorem signedCount_eq {d k : Int} (step : -2 ^ 31 ≤ d ∧ d < 0) (range : -2 ^ 31 ≤ k ∧ k < 2 ^ 31) :
    ((((maxn - wrap k).sdiv (-wrap d)).toNat : Nat) : Int) = signedCount d k := by
  rw [maxn_eq,← wrap_sub,← wrap_neg,signedCount]
  by_cases least : d = -2 ^ 31
  · -- the opposite of the least step is itself
    have turned : wrap (-d) = wrap (-2 ^ 31) := wrap_eq_iff.mpr (by omega)
    by_cases positive : 0 ≤ k
    · have small : (2 ^ 31 - 1 - k).tdiv (-2 ^ 31) = 0 := by
        rw [Int.tdiv_neg,Int.tdiv_eq_zero_of_lt (by omega) (by omega)]
        rfl
      have same : (-2 ^ 31 + (2 ^ 32 - 1) - k : Int) = 2 ^ 31 - 1 - k := by ring
      rw [if_pos positive,turned,same,sdiv_wrap (by omega) (by omega),small,least]
      exact (Int.ediv_eq_zero_of_lt (by omega) (by omega)).symm
    · have same : wrap (-2 ^ 31 + (2 ^ 32 - 1) - k) = wrap (-(k + 2 ^ 31 + 1)) := wrap_eq_iff.mpr (by omega)
      rw [if_neg positive,if_pos least,turned,same,sdiv_wrap (by omega) (by omega),Int.neg_tdiv_neg]
      by_cases last : k = -1
      · rw [if_pos last,last]
        rfl
      · rw [if_neg last,Int.tdiv_eq_zero_of_lt (by omega) (by omega)]
        rfl
  · by_cases positive : 0 ≤ k
    · have same : (-2 ^ 31 + (2 ^ 32 - 1) - k : Int) = 2 ^ 31 - 1 - k := by ring
      have low : 0 ≤ (2 ^ 31 - 1 - k) / -d := Int.ediv_nonneg (by omega) (by omega)
      have high : (2 ^ 31 - 1 - k) / -d ≤ 2 ^ 31 - 1 - k := Int.ediv_le_self _ (by omega)
      rw [if_pos positive,same,sdiv_wrap (by omega) (by omega),Int.tdiv_eq_ediv_of_nonneg (by omega),toNat_wrap]
      exact Int.emod_eq_of_lt low (by omega)
    · have same : wrap (-2 ^ 31 + (2 ^ 32 - 1) - k) = wrap (-(k + 2 ^ 31 + 1)) := wrap_eq_iff.mpr (by omega)
      rw [if_neg positive,if_neg least,same,sdiv_wrap (by omega) (by omega),Int.neg_tdiv,
        Int.tdiv_eq_ediv_of_nonneg (by omega),toNat_wrap]

theorem ge_down {b d k : Int} {n : Nat} {v : Value} (walks : Walks (-2 ^ 31) v b d n) (down : d < 0)
    (range : -2 ^ 31 ≤ k ∧ k < 2 ^ 31) : Filters v (fun x => k ≤ x.toInt) (v.ge (wrap k)) ↔ GeFits b d n k := by
  have first := walks.span.first
  have notUp : ¬ (0 : Word).slt v.delta = true := by rw [walks.up_iff]; omega
  have below : v.lower.sle (wrap k) = true ↔ b ≤ k := by
    rw [walks.lower,sle_wrap (by omega) range]
  have size : (n : Int) * d.natAbs = -(n * d) := by
    rw [show (d.natAbs : Int) = -d by omega]
    ring
  have test := swrap_iff walks
  have count : (((if v.swrap then (maxn - wrap k).sdiv (-v.delta) else v.mtimes).toNat : Nat) : Int) =
      if b - n * d < 2 ^ 31 then (n : Int) else signedCount d k := by
    by_cases wraps : v.swrap = true
    · have turned : ¬ b - n * d < 2 ^ 31 := by
        have := test.mp wraps
        omega
      rw [if_pos wraps,if_neg turned,walks.delta,signedCount_eq ⟨walks.step.1,down⟩ range]
    · have inTurn : b - n * d < 2 ^ 31 := by
        have := mt test.mpr wraps
        omega
      rw [if_neg wraps,if_pos inTurn,walks.mtimes]
  rw [ge,if_neg walks.live.1,walks.live.2,GeFits,if_neg (by omega : ¬ 0 < d)]
  simp only [Bool.false_eq_true,if_false,notUp]
  by_cases under : b ≤ k
  · rw [if_pos (below.mpr under),if_pos under]
    exact none_iff walks reads_signed down under
  · rw [if_neg (mt below.mp under),if_neg under,← count]
    exact filters_down_iff walks reads_signed down (by omega) range.1 _

section
variable {o b d : Int} {n : Nat} {v : Value} (walks : Walks o v b d n)
include walks

theorem kept_up {k : Int} {read : Word → Int} (reads : ∀ z, o ≤ z → z ≤ o + (2 ^ 32 - 1) → read (wrap z) = z)
    (up : 0 < d) (above : b ≤ k) : ∀ i ≤ n, read (wrap (b + (i : Nat) * d)) ≤ k ↔ i ≤ ((k - b) / d).toNat := by
  intro i rank
  have inTurn := walks.span.rank rank
  have quotient : (i : Int) ≤ (k - b) / d ↔ (i : Int) * d ≤ k - b := Int.le_ediv_iff_mul_le up
  have low : 0 ≤ (k - b) / d := Int.ediv_nonneg (by omega) up.le
  rw [reads _ inTurn.1 inTurn.2]
  omega

omit walks in
theorem filters_self (keep : Word → Prop) : Filters v keep (some { v with mtimes := v.mtimes }) :=
  ⟨fun _ member _ => member,fun _ member => member⟩

theorem filters_within {k : Int} {read : Word → Int} (reads : ∀ z, o ≤ z → z ≤ o + (2 ^ 32 - 1) → read (wrap z) = z)
    (up : 0 < d) (above : b ≤ k) (within : k ≤ b + n * d) {m : Word} (count : (m.toNat : Int) = (k - b) / d) :
    Filters v (fun x => read x ≤ k) (some { v with mtimes := m }) := by
  rw [filters_cut walks (kept_up walks reads up above)]
  have rank : (k - b) / d ≤ n := Int.ediv_le_of_le_mul up (by omega)
  omega

end

theorem leu_up {b d k : Int} {n : Nat} {v : Value} (walks : Walks 0 v b d n) (up : 0 < d)
    (range : 0 ≤ k ∧ k < 2 ^ 32) : Filters v (fun x => (x.toNat : Int) ≤ k) (v.leu (wrap k)) ↔ LeuFits b d n k := by
  have first := walks.span.first
  have last := walks.span.last
  have notDown : ¬ v.delta.slt 0 = true := by rw [walks.down_iff]; omega
  have inTurn : v.uwrap = false := by
    rw [← Bool.not_eq_true,uwrap_iff walks,show (d.natAbs : Int) = d by omega]
    omega
  have below : wrap k ≤ v.lower ↔ k ≤ b := by
    rw [walks.lower,le_wrap,Int.emod_eq_of_lt (by omega) (by omega),Int.emod_eq_of_lt (by omega) (by omega)]
  have beyond : v.lower + v.delta * v.mtimes ≤ wrap k ↔ b + n * d ≤ k := by
    rw [walks.upper,walks.mtimes,le_wrap,Int.emod_eq_of_lt (by omega) (by omega),
      Int.emod_eq_of_lt (by omega) (by omega)]
  rw [leu,if_neg walks.live.1,walks.live.2,LeuFits,if_pos up]
  simp only [Bool.false_eq_true,if_false,notDown,inTurn]
  by_cases under : k ≤ b
  · rw [if_pos (below.mpr under),filters_none walks]
    have zero := reads_unsigned b first.1 first.2
    constructor
    · rintro lost rfl
      have start := lost 0 (Nat.zero_le n)
      simp only [Nat.cast_zero,zero_mul,add_zero] at start
      omega
    · intro other i rank
      have inRange := walks.span.rank rank
      have ascends : 0 ≤ (i : Int) * d := Int.mul_nonneg (Int.natCast_nonneg i) up.le
      rw [reads_unsigned _ inRange.1 inRange.2]
      omega
  · have right : b ≠ k := by omega
    rw [if_neg (mt below.mp under),iff_true_right right]
    by_cases whole : b + n * d ≤ k
    · rw [if_pos (beyond.mpr whole)]
      exact filters_self _
    · have count : (((wrap k - v.lower) / v.delta).toNat : Int) = (k - b) / d := by
        have step := walks.step
        rw [walks.lower,walks.delta,← wrap_sub,udiv_wrap,Int.emod_eq_of_lt (by omega) (by omega),
          Int.emod_eq_of_lt (by omega) (by omega)]
      rw [if_neg (mt beyond.mp whole)]
      exact filters_within walks reads_unsigned up (by omega) (by omega) count

theorem cut_far_iff {o b d k : Int} {n : Nat} {v : Value} (walks : Walks o v b d n) (up : 0 < d)
    (within : k ≤ b + n * d) (far : 2 ^ 31 ≤ k - b) {m : Word} (count : m = (wrap k - wrap b).sdiv (wrap d)) :
    (Min.min n ((k - b) / d).toNat ≤ m.toNat ∧ (m.toNat ≤ n ∨ Whole d n)) ↔ d = 1 ∨ Whole d n := by
  have step := walks.step
  have size : (d.natAbs : Int) = d := by omega
  have short := walks.short_of size
  have same : wrap (k - b) = wrap (-(2 ^ 32 - (k - b))) := wrap_eq_iff.mpr (by omega)
  have value : (m.toNat : Int) = -((2 ^ 32 - (k - b)) / d) % 2 ^ 32 := by
    rw [count,← wrap_sub,same,sdiv_wrap (by omega) (by omega),Int.neg_tdiv,Int.tdiv_eq_ediv_of_nonneg (by omega),
      toNat_wrap]
  rw [whole_iff size,cut_distance ⟨up,by omega⟩ ⟨far,by omega⟩ walks.count short value]
  exact and_iff_right (by omega)

theorem le_up {b d k : Int} {n : Nat} {v : Value} (walks : Walks (-2 ^ 31) v b d n) (up : 0 < d)
    (range : -2 ^ 31 ≤ k ∧ k < 2 ^ 31) : Filters v (fun x => x.toInt ≤ k) (v.le (wrap k)) ↔ LeFits b d n k := by
  have first := walks.span.first
  have last := walks.span.last
  have step := walks.step
  have notDown : ¬ v.delta.slt 0 = true := by rw [walks.down_iff]; omega
  have inTurn : v.swrap = false := by
    rw [← Bool.not_eq_true,swrap_iff walks,show (d.natAbs : Int) = d by omega]
    omega
  have before : (wrap k).slt v.lower = true ↔ k < b := by rw [walks.lower,slt_wrap range (by omega)]
  have after : (v.lower + v.delta * v.mtimes).slt (wrap k) = true ↔ b + n * d < k := by
    rw [walks.upper,walks.mtimes,slt_wrap (by omega) range]
  rw [le,if_neg walks.live.1,walks.live.2,LeFits,if_pos up]
  simp only [start,stop,Bool.false_eq_true,if_false,notDown,inTurn]
  by_cases under : k < b
  · rw [if_pos (before.mpr under),iff_true_right (.inl under),filters_none walks]
    intro i rank
    have inRange := walks.span.rank rank
    have ascends : 0 ≤ (i : Int) * d := Int.mul_nonneg (Int.natCast_nonneg i) up.le
    rw [reads_signed _ inRange.1 inRange.2]
    omega
  · rw [if_neg (mt before.mp under)]
    by_cases whole : b + n * d < k
    · rw [if_pos (after.mpr whole),iff_true_right (.inr (.inl whole))]
      exact filters_self _
    · rw [if_neg (mt after.mp whole)]
      by_cases near : k - b < 2 ^ 31
      · have count : (((wrap k - v.lower).sdiv v.delta).toNat : Int) = (k - b) / d := by
          have low : 0 ≤ (k - b) / d := Int.ediv_nonneg (by omega) up.le
          have high : (k - b) / d ≤ k - b := Int.ediv_le_self _ (by omega)
          rw [walks.lower,walks.delta,← wrap_sub,sdiv_wrap (by omega) (by omega),
            Int.tdiv_eq_ediv_of_nonneg (by omega),toNat_wrap]
          exact Int.emod_eq_of_lt low (by omega)
        rw [iff_true_right (.inr (.inr (.inl near)))]
        exact filters_within walks reads_signed up (by omega) (by omega) count
      · rw [filters_cut walks (kept_up walks reads_signed up (by omega)),
          cut_far_iff walks up (by omega) (by omega) (by rw [walks.lower,walks.delta])]
        simp only [under,whole,near,false_or]

/-! ### `le` on downward walks -/

/-- How many steps `le` takes a downward walk to have: when it would leave the range upwards, as
    many as there are down to `MINn`. -/
theorem le_count {b d : Int} {n : Nat} {v : Value} (walks : Walks (-2 ^ 31) v b d n) (down : d < 0) {m : Word}
    (count : m = if v.swrap then if v.delta.slt 0 then (minn + v.lower) / -v.delta else (maxn - v.lower) / v.delta
      else v.mtimes) :
    n ≤ m.toNat ∧ -2 ^ 31 ≤ b + m.toNat * d ∧ (m.toNat ≤ n ↔ b - n * d < 2 ^ 31 ∨ b + (n + 1) * d < -2 ^ 31) ∧
      b + m.toNat * d = if b - n * d < 2 ^ 31 then b + n * d else (b + 2 ^ 31) % -d - 2 ^ 31 := by
  have first := walks.span.first
  have last := walks.span.last
  have step := walks.step
  have test := swrap_iff walks
  have isDown : v.delta.slt 0 = true := walks.down_iff.mpr down
  have size : (n : Int) * d.natAbs = -(n * d) := by
    rw [show (d.natAbs : Int) = -d by omega]
    ring
  by_cases wraps : v.swrap = true
  · have turned : ¬ b - n * d < 2 ^ 31 := by
      have := test.mp wraps
      omega
    have least : minn = wrap (-2 ^ 31) := by decide
    have value : (m.toNat : Int) = (b + 2 ^ 31) / -d := by
      rw [count,if_pos wraps,if_pos isDown,least,walks.lower,walks.delta,← wrap_add,← wrap_neg,udiv_wrap,
        Int.emod_eq_of_lt (a := -d) (by omega) (by omega)]
      congr 1
      omega
    have division : -d * ((b + 2 ^ 31) / -d) + (b + 2 ^ 31) % -d = b + 2 ^ 31 := Int.mul_ediv_add_emod _ _
    have rest := Int.emod_nonneg (b + 2 ^ 31) (show -d ≠ 0 by omega)
    have lower : b + m.toNat * d = (b + 2 ^ 31) % -d - 2 ^ 31 := by
      rw [value]
      linarith
    have longer : (n : Int) ≤ (b + 2 ^ 31) / -d := (Int.le_ediv_iff_mul_le (by omega)).mpr (by linarith)
    have next : (b + 2 ^ 31) / -d < n + 1 ↔ b + 2 ^ 31 < (n + 1) * -d := Int.ediv_lt_iff_lt_mul (by omega)
    have opposite : ((n : Int) + 1) * -d = -((n + 1) * d) := by ring
    rw [if_neg turned,lower]
    refine ⟨by omega,by omega,?_,rfl⟩
    omega
  · have inTurn : b - n * d < 2 ^ 31 := by
      have := mt test.mpr wraps
      omega
    have value : m.toNat = n := by rw [count,if_neg wraps,walks.mtimes]
    rw [if_pos inTurn,value]
    exact ⟨Nat.le_refl _,last.1,⟨fun _ => .inl inTurn,fun _ => Nat.le_refl _⟩,rfl⟩

theorem filters_rest {b d k : Int} {n : Nat} {v : Value} (walks : Walks (-2 ^ 31) v b d n) (down : d < 0)
    {m s : Word} (longer : n ≤ m.toNat) (least : -2 ^ 31 ≤ b + m.toNat * d) {q : Nat} (shift : s = wrap q)
    (within : q ≤ m.toNat) (skips : ∀ i ≤ n, b + (i : Nat) * d ≤ k → q ≤ i) :
    Filters v (fun x => x.toInt ≤ k) (some { v with lower := v.lower + v.delta * s, mtimes := m - s }) ↔
      m.toNat ≤ n := by
  have first := walks.span.first
  have small : s.toNat = q := by
    have := m.isLt
    rw [shift,wrap_natCast,BitVec.toNat_ofNat]
    exact Nat.mod_eq_of_lt (by omega)
  have count : (m - s).toNat = m.toNat - q := by
    rw [BitVec.toNat_sub_of_le (by rw [BitVec.le_def]; omega),small]
  have member : ∀ x : Word, x ∈ ({ v with lower := v.lower + v.delta * s, mtimes := m - s } : Value) ↔
      ∃ i, q ≤ i ∧ i ≤ m.toNat ∧ x = wrap (b + (i : Nat) * d) := by
    intro x
    have kind : ({ v with lower := v.lower + v.delta * s, mtimes := m - s } : Value).kind = .VAL := walks.kind
    rw [mem_val kind,walks.upper,walks.delta,count,small,mem_walk]
    constructor
    · rintro ⟨i,rank,rfl⟩
      exact ⟨q + i,by omega,by omega,by rw [Nat.cast_add]; congr 1; ring⟩
    · rintro ⟨i,low,high,rfl⟩
      refine ⟨i - q,by omega,?_⟩
      rw [Nat.cast_sub low]
      congr 1
      ring
  constructor
  · rintro ⟨_,inside⟩
    have reached := walks.mem.mp (inside _ ((member _).mpr ⟨m.toNat,within,Nat.le_refl _,rfl⟩))
    have descends : (m.toNat : Int) * d ≤ 0 := Int.mul_nonpos_of_nonneg_of_nonpos (Int.natCast_nonneg _) down.le
    obtain ⟨i,rank,same⟩ := (walks.span.mem_iff ⟨least,by omega⟩).mp reached
    have equal : (m.toNat : Int) = i := Int.eq_of_mul_eq_mul_right walks.steps (by linarith)
    omega
  · intro shorter
    refine ⟨fun x inside kept => ?_,fun x inside => ?_⟩
    · obtain ⟨i,rank,rfl⟩ := mem_walk.mp (walks.mem.mp inside)
      have inRange := walks.span.rank rank
      rw [reads_signed _ inRange.1 inRange.2] at kept
      exact (member _).mpr ⟨i,skips i rank kept,by omega,rfl⟩
    · obtain ⟨i,_,high,rfl⟩ := (member _).mp inside
      exact walks.mem.mpr (mem_walk.mpr ⟨i,by omega,rfl⟩)

theorem tdiv_small {y z : Int} (low : -z < y) (high : y < z) : y.tdiv z = 0 := by
  rcases le_total 0 y with positive | negative
  · exact Int.tdiv_eq_zero_of_lt positive high
  · have turned : (-y).tdiv z = 0 := Int.tdiv_eq_zero_of_lt (by omega) (by omega)
    rw [Int.neg_tdiv] at turned
    omega

/-- The steps that `le` leaves out of a downward walk that passes the threshold: their number
    wraps to a negative one, which the assertion catches, or is a rank up to the threshold. -/
theorem le_shift {b d k : Int} {N : Nat} (step : -2 ^ 31 ≤ d ∧ d < 0) (first : b < 2 ^ 31)
    (range : -2 ^ 31 ≤ k ∧ k ≤ b) (passes : b + N * d ≤ k) {s : Word}
    (shift : s = (wrap b - wrap k - wrap d - 1).sdiv (-wrap d)) :
    (s.slt 0 = false ∧ ∃ q : Nat, s = wrap q ∧ q ≤ N ∧ ∀ i : Nat, b + i * d ≤ k → q ≤ i) ∧
        (d = -2 ^ 31 ∨ b - k - d ≤ 2 ^ 31 ∨ 2 ^ 32 + d < b - k - d - 1) ∨
      s.slt 0 = true ∧ ¬ (d = -2 ^ 31 ∨ b - k - d ≤ 2 ^ 31 ∨ 2 ^ 32 + d < b - k - d - 1) := by
  have zero : ∀ {z : Int}, s = wrap z → -2 ^ 31 ≤ z → z < 2 ^ 31 → (s.slt 0 = true ↔ z < 0) := by
    intro z same low high
    rw [same,show (0 : Word) = wrap 0 from rfl,slt_wrap ⟨low,high⟩ (by omega)]
  have distance : wrap b - wrap k - wrap d - 1 = wrap (b - k - d - 1) := by
    rw [wrap_sub,wrap_sub,wrap_sub]
    rfl
  have none_left : ∀ i : Nat, b + i * d ≤ k → 0 ≤ i := fun i _ => Nat.zero_le i
  rw [distance,← wrap_neg] at shift
  by_cases least : d = -2 ^ 31
  · -- the opposite of the least step is itself
    refine .inl ⟨?_,.inl least⟩
    have turned : wrap (-d) = wrap (-2 ^ 31) := wrap_eq_iff.mpr (by omega)
    rw [turned] at shift
    by_cases equal : k = b
    · have none : (b - k - d - 1).tdiv (-2 ^ 31) = 0 := by
        rw [Int.tdiv_neg,Int.tdiv_eq_zero_of_lt (by omega) (by omega)]
        rfl
      rw [sdiv_wrap (by omega) (by omega),none] at shift
      exact ⟨by rw [← Bool.not_eq_true,zero shift (by omega) (by omega)]; omega,0,shift,Nat.zero_le N,none_left⟩
    · have same : wrap (b - k - d - 1) = wrap (-(2 ^ 32 - (b - k - d - 1))) := wrap_eq_iff.mpr (by omega)
      rw [same,sdiv_wrap (by omega) (by omega),Int.neg_tdiv_neg] at shift
      by_cases next : b - k = 1
      · have one : (2 ^ 32 - (b - k - d - 1)).tdiv (2 ^ 31) = 1 := by
          rw [next,least]
          rfl
        rw [one] at shift
        refine ⟨by rw [← Bool.not_eq_true,zero shift (by omega) (by omega)]; omega,1,shift,?_,?_⟩
        · by_contra empty
          obtain rfl : N = 0 := by omega
          simp only [Nat.cast_zero,zero_mul,add_zero] at passes
          omega
        · intro i below
          by_contra empty
          obtain rfl : i = 0 := by omega
          simp only [Nat.cast_zero,zero_mul,add_zero] at below
          omega
      · have none : (2 ^ 32 - (b - k - d - 1)).tdiv (2 ^ 31) = 0 := tdiv_small (by omega) (by omega)
        rw [none] at shift
        exact ⟨by rw [← Bool.not_eq_true,zero shift (by omega) (by omega)]; omega,0,shift,Nat.zero_le N,none_left⟩
  · by_cases near : b - k - d ≤ 2 ^ 31
    · refine .inl ⟨?_,.inr (.inl near)⟩
      rw [sdiv_wrap (by omega) (by omega),Int.tdiv_eq_ediv_of_nonneg (by omega)] at shift
      have low : 0 ≤ (b - k - d - 1) / -d := Int.ediv_nonneg (by omega) (by omega)
      have high : (b - k - d - 1) / -d ≤ b - k - d - 1 := Int.ediv_le_self _ (by omega)
      have skipped : ∀ i : Nat, b + i * d ≤ k → (b - k - d - 1) / -d ≤ i := by
        intro i below
        rw [← Int.lt_add_one_iff,Int.ediv_lt_iff_lt_mul (by omega)]
        have opposite : ((i : Int) + 1) * -d = -(i * d) - d := by ring
        omega
      refine ⟨by rw [← Bool.not_eq_true,zero shift (by omega) (by omega)]; omega,((b - k - d - 1) / -d).toNat,?_,?_,?_⟩
      · rw [Int.toNat_of_nonneg low]
        exact shift
      · have := skipped N passes
        omega
      · intro i below
        have := skipped i below
        omega
    · by_cases lost : 2 ^ 32 + d < b - k - d - 1
      · refine .inl ⟨?_,.inr (.inr lost)⟩
        have same : wrap (b - k - d - 1) = wrap (b - k - d - 1 - 2 ^ 32) := wrap_eq_iff.mpr (by omega)
        rw [same,sdiv_wrap (by omega) (by omega),tdiv_small (by omega) (by omega)] at shift
        exact ⟨by rw [← Bool.not_eq_true,zero shift (by omega) (by omega)]; omega,0,shift,Nat.zero_le N,none_left⟩
      · refine .inr ⟨?_,by omega⟩
        have same : wrap (b - k - d - 1) = wrap (-(2 ^ 32 - (b - k - d - 1))) := wrap_eq_iff.mpr (by omega)
        rw [same,sdiv_wrap (by omega) (by omega),Int.neg_tdiv,Int.tdiv_eq_ediv_of_nonneg (by omega)] at shift
        have low : 1 ≤ (2 ^ 32 - (b - k - d - 1)) / -d := (Int.le_ediv_iff_mul_le (by omega)).mpr (by omega)
        have high : (2 ^ 32 - (b - k - d - 1)) / -d ≤ 2 ^ 32 - (b - k - d - 1) := Int.ediv_le_self _ (by omega)
        rw [zero shift (by omega) (by omega)]
        omega

theorem le_down {b d k : Int} {n : Nat} {v : Value} (walks : Walks (-2 ^ 31) v b d n) (down : d < 0)
    (range : -2 ^ 31 ≤ k ∧ k < 2 ^ 31) : Filters v (fun x => x.toInt ≤ k) (v.le (wrap k)) ↔ LeFits b d n k := by
  have first := walks.span.first
  have step := walks.step
  have isDown : v.delta.slt 0 = true := walks.down_iff.mpr down
  rw [le,if_neg walks.live.1,walks.live.2,LeFits,if_neg (by omega : ¬ 0 < d)]
  simp only [Bool.false_eq_true,if_false,start,stop,isDown,if_true]
  generalize count : (if v.swrap then (minn + v.lower) / -v.delta else v.mtimes) = m
  have counted : m = if v.swrap then if v.delta.slt 0 then (minn + v.lower) / -v.delta else (maxn - v.lower) / v.delta
      else v.mtimes := by rw [isDown,if_pos rfl,count]
  obtain ⟨longer,least,shorter,lower⟩ := le_count walks down counted
  have descends : (m.toNat : Int) * d ≤ 0 := Int.mul_nonpos_of_nonneg_of_nonpos (Int.natCast_nonneg _) down.le
  have before : (wrap k).slt (v.lower + v.delta * m) = true ↔ k < b + m.toNat * d := by
    rw [walks.upper,slt_wrap range (by omega)]
  have after : v.lower.slt (wrap k) = true ↔ b < k := by rw [walks.lower,slt_wrap (by omega) range]
  rw [← lower,← shorter]
  by_cases above : k < b + m.toNat * d
  · rw [if_pos (before.mpr above),iff_true_right (.inl above),filters_none walks]
    intro i rank
    have inRange := walks.span.rank rank
    have further : (m.toNat : Int) * d ≤ i * d := Int.mul_le_mul_of_nonpos_right (by omega) down.le
    rw [reads_signed _ inRange.1 inRange.2]
    omega
  · rw [if_neg (mt before.mp above)]
    simp only [above,false_or]
    by_cases under : b < k
    · have whole := filters_rest walks down (k := k) (s := 0) longer least (q := 0) rfl (Nat.zero_le _)
        fun i _ _ => Nat.zero_le i
      simp only [mul_zero,add_zero,sub_zero] at whole
      rw [if_pos (after.mpr under),whole]
      simp [under]
    · rw [if_neg (mt after.mp under)]
      simp only [under,false_or]
      generalize shift : (v.lower - wrap k - v.delta - 1).sdiv (-v.delta) = s
      have shifted : s = (wrap b - wrap k - wrap d - 1).sdiv (-wrap d) := by rw [← shift,walks.lower,walks.delta]
      have passes : b + m.toNat * d ≤ k := by omega
      rcases le_shift ⟨step.1,down⟩ (by omega) ⟨range.1,by omega⟩ passes shifted with
        ⟨⟨positive,q,rank,within,skips⟩,fits⟩ | ⟨negative,unfit⟩
      · rw [positive]
        simp only [Bool.false_eq_true,if_false,fits,and_true]
        exact filters_rest walks down longer least rank within fun i _ => skips i
      · rw [negative]
        simp only [if_true,unfit,and_false,iff_false]
        exact id

/-! ### `ge` and `geu` on upward walks -/

theorem max_comm (a b : Word) : max a b = max b a := by
  unfold max
  by_cases less : a.slt b = true
  · have notLess : ¬ b.slt a = true := by
      rw [BitVec.slt_iff_toInt_lt] at *
      omega
    rw [if_pos less,if_neg notLess]
  · rw [if_neg less]
    by_cases greater : b.slt a = true
    · rw [if_pos greater]
    · rw [if_neg greater]
      rw [BitVec.slt_iff_toInt_lt] at *
      exact BitVec.eq_of_toInt_eq (by omega)

theorem umin_comm (a b : Word) : umin a b = umin b a := by
  apply BitVec.eq_of_toNat_eq
  rw [umin_toNat,umin_toNat,Nat.min_comm]

theorem interWalk_comm {v w : Value} (left : v.delta = 1) (right : w.delta = 1) : interWalk v w = interWalk w v := by
  have same : ∀ x : Word, roundup x 1 = x := by
    intro x
    rw [roundup,show (1 : Word) = 1#32 from rfl,BitVec.udiv_one,BitVec.sub_add_cancel,BitVec.mul_one]
  have up : (0 : Word).slt 1 = true := by decide
  have start : ∀ {u : Value}, u.delta = 1 → u.start = u.lower := by
    intro u unit
    rw [Value.start,unit,if_neg (by decide)]
  unfold interWalk
  simp only [left,right,up,if_true,same,start left,start right,sub_add_cancel]
  rw [max_comm w.lower,umin_comm]

/-- A constant that is the last word of the walk, or no word of it at all. -/
theorem withConst_iff {o b d e : Int} {n : Nat} {v w : Value} (walks : Walks o v b d n) {keep : Word → Prop} {fits : Prop}
    (kept : ∀ i ≤ n, keep (wrap (b + (i : Nat) * d)) ↔ b + (i : Nat) * d = e)
    (last : ∀ i ≤ n, b + (i : Nat) * d = e → b + n * d = e) (start : w.start = wrap e)
    (safe : ¬ DivTraps (w.lower - v.lower) v.delta)
    (test : ((w.lower - v.lower).srem v.delta = 0 ∧ (w.lower - v.lower).sdiv v.delta ≤ v.mtimes) ↔ b + n * d = e ∧ fits) :
    Filters v keep (interWithConst v w) ↔ b + n * d ≠ e ∨ fits := by
  have without : Filters v keep (some none) ↔ b + n * d ≠ e := by
    rw [filters_none walks]
    constructor
    · intro lost reached
      exact lost n (Nat.le_refl n) ((kept n (Nat.le_refl n)).mpr reached)
    · intro other i rank here
      exact other (last i rank ((kept i rank).mp here))
  have found (reached : b + n * d = e) : Filters v keep (some (const (wrap e))) := by
    have only : ∀ x : Word, x ∈ const (wrap e) ↔ x = wrap e := fun x => Progression.mem_const (.inl rfl)
    refine ⟨fun x member isKept => (only x).mpr ?_,fun x member => ?_⟩
    · obtain ⟨i,rank,rfl⟩ := mem_walk.mp (walks.mem.mp member)
      rw [(kept i rank).mp isKept]
    · rw [(only x).mp member,← reached]
      exact walks.mem.mpr (mem_walk.mpr ⟨n,Nat.le_refl n,rfl⟩)
  rw [interWithConst,if_neg safe,start]
  by_cases passes : b + n * d = e ∧ fits
  · rw [if_pos (test.mpr passes)]
    exact iff_of_true (found passes.1) (.inr passes.2)
  · rw [if_neg (mt test.mp passes),without]
    constructor
    · exact .inl
    · rintro (other | fit)
      · exact other
      · exact fun reached => passes ⟨reached,fit⟩

structure Ray (o k : Int) (w : Value) : Prop where
  kind : w.kind = .VAL
  lower : w.lower = wrap k
  delta : w.delta = 1
  mtimes : w.mtimes = wrap (o + (2 ^ 32 - 1) - k)

section
variable {o b d k : Int} {n : Nat} {v w : Value} (walks : Walks o v b d n) (up : 0 < d)
  (ray : Ray o k w) (range : o ≤ k ∧ k ≤ o + (2 ^ 32 - 1))
include walks up ray range

omit walks up in
theorem Ray.ends : w.start = wrap k ∧ w.stop = wrap (o + (2 ^ 32 - 1)) ∧
    (w.isConst = true ↔ k = o + (2 ^ 32 - 1)) := by
  have notDown : ¬ w.delta.slt 0 = true := by rw [ray.delta]; decide
  have zero : w.mtimes = 0 ↔ k = o + (2 ^ 32 - 1) := by
    rw [ray.mtimes,show (0 : Word) = wrap 0 from rfl,wrap_eq_iff]
    omega
  have some : ¬ (1 : Word) = 0 := by decide
  refine ⟨by rw [Value.start,if_neg notDown,ray.lower],?_,?_⟩
  · rw [Value.stop,if_neg notDown,ray.lower,ray.delta,ray.mtimes,show (1 : Word) = wrap 1 from rfl,← wrap_mul,
      ← wrap_add]
    congr 1
    ring
  · rw [isConst,ray.delta]
    simp only [Bool.or_eq_true,beq_iff_eq,some,false_or,zero]

omit up range in
theorem test_near (near : 0 ≤ k - b ∧ k - b < 2 ^ 31) (up : 0 < d) :
    ((w.lower - v.lower).srem v.delta = 0 ∧ (w.lower - v.lower).sdiv v.delta ≤ v.mtimes) ↔
      ∃ i ≤ n, k - b = (i : Nat) * d := by
  rw [ray.lower,walks.lower,walks.delta,← wrap_sub]
  exact test_ahead walks.mtimes (by omega) walks.step walks.steps (Int.tdiv_nonneg near.1 up.le)

omit up range in
/-- From 2^31 on the distance wraps to a negative one. -/
theorem test_far (far : 2 ^ 31 ≤ k - b ∧ k - b < 2 ^ 32) (up : 0 < d) :
    ((w.lower - v.lower).srem v.delta = 0 ∧ (w.lower - v.lower).sdiv v.delta ≤ v.mtimes) ↔
      d = 1 ∧ k - b ≤ n := by
  have same : wrap (k - b) = wrap (-(2 ^ 32 - (k - b))) := wrap_eq_iff.mpr (by omega)
  have positive := Int.tdiv_nonneg (show 0 ≤ 2 ^ 32 - (k - b) by omega) up.le
  rw [ray.lower,walks.lower,walks.delta,← wrap_sub,same,test_behind walks.mtimes (by omega) walks.step walks.steps
    (by rw [Int.neg_tdiv]; omega) (by omega) walks.short]
  omega

variable {read : Word → Int}

theorem top_iff (reads : ∀ z, o ≤ z → z ≤ o + (2 ^ 32 - 1) → read (wrap z) = z)
    (top : k = o + (2 ^ 32 - 1)) : Filters v (fun x => k ≤ read x) (interWithConst v w) ↔
      b + n * d ≠ k ∨ k - b < 2 ^ 31 ∨ d = 1 := by
  have first := walks.span.first
  have last := walks.span.last
  have ascends : ∀ i ≤ n, b + (i : Nat) * d ≤ b + n * d := by
    intro i rank
    have := Int.mul_le_mul_of_nonneg_right (Int.ofNat_le.mpr rank) up.le
    omega
  have safe : ¬ DivTraps (w.lower - v.lower) v.delta := by
    rw [ray.lower,walks.lower,walks.delta,← wrap_sub,divTraps_iff walks.step walks.steps]
    omega
  refine withConst_iff walks (fun i rank => ?_) (fun i rank same => ?_) (ray.ends range).1 safe ?_
  · have inTurn := walks.span.rank rank
    rw [reads _ inTurn.1 inTurn.2]
    omega
  · have := ascends i rank
    omega
  by_cases near : k - b < 2 ^ 31
  · rw [test_near walks ray ⟨by omega,near⟩ up]
    constructor
    · rintro ⟨i,rank,same⟩
      have := ascends i rank
      exact ⟨by omega,.inl near⟩
    · rintro ⟨reached,_⟩
      exact ⟨n,Nat.le_refl n,by omega⟩
  · rw [test_far walks ray ⟨by omega,by omega⟩ up]
    constructor
    · rintro ⟨rfl,within⟩
      exact ⟨by omega,.inr rfl⟩
    · rintro ⟨reached,near' | rfl⟩
      · exact absurd near' near
      · exact ⟨rfl,by omega⟩

omit up in
theorem overlaps_iff (up : 0 < d) : overlaps v w = true ↔ k < b + (n + 1) * d := by
  have first := walks.span.first
  have last := walks.span.last
  have ends := ray.ends range
  have length : 0 ≤ (n : Int) * d := Int.mul_nonneg (Int.natCast_nonneg n) up.le
  have next : ((n : Int) + 1) * d = n * d + d := by ring
  rw [overlaps_up walks up ⟨range.1,range.2,Int.le_refl _⟩ ends.1 ends.2.1 ray.delta ray.mtimes,next]
  omega

/-- A result of 2.5 from a word of the walk on is right when it leaves out words below the
    threshold only. -/
theorem filters_of_rank (reads : ∀ z, o ≤ z → z ≤ o + (2 ^ 32 - 1) → read (wrap z) = z)
    {j : Nat} (rank : j ≤ n) (lower : (interWalk w v).lower = wrap (b + j * d))
    (skips : ∀ i ≤ n, k ≤ b + (i : Nat) * d → j ≤ i) : Filters v (fun x => k ≤ read x) (some (interWalk w v)) := by
  have last := walks.span.last
  have inTurn := walks.span.rank rank
  have member := fun x => mem_up walks up (ray.ends range).2.1 rank lower (x := x)
  have long : ∀ i : Nat, i ≤ n → ((i - j : Nat) : Int) ≤ (o + (2 ^ 32 - 1) - (b + j * d)) % 2 ^ 32 / d := by
    intro i high
    rw [Int.emod_eq_of_lt (by omega) (by omega),Int.le_ediv_iff_mul_le up]
    by_cases low : j ≤ i
    · have inTurn' := walks.span.rank high
      rw [Nat.cast_sub low]
      linarith
    · rw [Nat.sub_eq_zero_of_le (by omega)]
      simp only [Nat.cast_zero,zero_mul]
      omega
  refine ⟨fun x inside kept => ?_,fun x inside => ?_⟩
  · obtain ⟨i,high,rfl⟩ := mem_walk.mp (walks.mem.mp inside)
    have inTurn' := walks.span.rank high
    rw [reads _ inTurn'.1 inTurn'.2] at kept
    exact (member _).mpr ⟨i,skips i high kept,high,long i high,rfl⟩
  · obtain ⟨i,_,high,_,rfl⟩ := (member _).mp inside
    exact walks.mem.mpr (mem_walk.mpr ⟨i,high,rfl⟩)

omit walks up ray range in
theorem max_of_sle {x y : Word} (below : y.sle x = true) : max x y = x := by
  unfold max
  by_cases less : y.slt x = true
  · rw [if_pos less]
  · rw [if_neg less]
    rw [BitVec.sle_iff_toInt_le] at below
    rw [BitVec.slt_iff_toInt_lt] at less
    exact BitVec.eq_of_toInt_eq (by omega)

omit walks up ray range in
theorem max_of_not_sle {x y : Word} (above : ¬ y.sle x = true) : max x y = y := by
  have notLess : ¬ y.slt x = true := by
    rw [BitVec.sle_iff_toInt_le] at above
    rw [BitVec.slt_iff_toInt_lt]
    omega
  rw [max,if_neg notLess]

omit walks up ray range in
theorem lower_mem (u v : Value) : (interWalk u v).lower ∈ interWalk u v := by
  unfold interWalk
  split
  · exact mem_result.mpr (Progression.base_mem _ _ _)
  · exact mem_result.mpr (Progression.base_mem _ _ _)

theorem candidate_iff (reads : ∀ z, o ≤ z → z ≤ o + (2 ^ 32 - 1) → read (wrap z) = z) {c : Int}
    (lower : (interWalk w v).lower = max (wrap b) (wrap c)) (outside : wrap c ≠ wrap b → ¬ wrap c ∈ v) :
    Filters v (fun x => k ≤ read x) (some (interWalk w v)) ↔ (wrap c).sle (wrap b) = true := by
  constructor
  · rintro ⟨_,inside⟩
    by_contra above
    have other : wrap c ≠ wrap b := fun same => above (by rw [same,BitVec.sle_iff_toInt_le])
    rw [max_of_not_sle above] at lower
    exact outside other (inside _ (lower ▸ lower_mem w v))
  · intro below
    rw [max_of_sle below] at lower
    refine filters_of_rank walks up ray range reads (Nat.zero_le n) ?_ fun i _ _ => Nat.zero_le i
    rw [lower]
    simp

/-- The result of 2.5 for a threshold below the greatest word. -/
theorem unit_iff (reads : ∀ z, o ≤ z → z ≤ o + (2 ^ 32 - 1) → read (wrap z) = z)
    (reaches : k < b + (n + 1) * d) : Filters v (fun x => k ≤ read x) (some (interWalk w v)) ↔
      if k ≤ b then (wrap (k + (b - k - 2 ^ 32) % d)).sle (wrap b) = true
      else k ≤ b + n * d ∨ b + (n + 1) * d ≤ k ∨ (wrap (b + (n + 1) * d)).sle (wrap b) := by
  have first := walks.span.first
  have last := walks.span.last
  have lower := lower_up walks up (ray.ends range).1
  have next : ((n : Int) + 1) * d = n * d + d := by ring
  have one : d ≤ n * d := le_mul_of_one_le_left up.le (by have := walks.count; omega)
  by_cases before : k ≤ b
  · rw [if_pos before]
    -- the candidate is the least word from k on that lies a turn before a multiple of the step
    have candidate : b + ((k - b - 1) % 2 ^ 32 / d * d + d) = k + (b - k - 2 ^ 32) % d + 2 ^ 32 := by
      have wrapped : (k - b - 1) % 2 ^ 32 = k - b - 1 + 2 ^ 32 := by omega
      have division := Int.mul_ediv_add_emod (k - b - 1 + 2 ^ 32) d
      have rest := Int.emod_nonneg (k - b - 1 + 2 ^ 32) up.ne'
      have below := Int.emod_lt_of_pos (k - b - 1 + 2 ^ 32) up
      have complement : (b - k - 2 ^ 32) % d = d - 1 - (k - b - 1 + 2 ^ 32) % d := by
        have split : b - k - 2 ^ 32 = d - 1 - (k - b - 1 + 2 ^ 32) % d + d * (-((k - b - 1 + 2 ^ 32) / d) - 1) := by
          linarith
        rw [split,Int.add_mul_emod_self_left,Int.emod_eq_of_lt (by omega) (by omega)]
      rw [wrapped,complement]
      linarith
    have low := Int.emod_nonneg (b - k - 2 ^ 32) up.ne'
    have high := Int.emod_lt_of_pos (b - k - 2 ^ 32) up
    have same : wrap (k + (b - k - 2 ^ 32) % d + 2 ^ 32) = wrap (k + (b - k - 2 ^ 32) % d) :=
      wrap_eq_iff.mpr (by omega)
    rw [candidate,same] at lower
    refine candidate_iff walks up ray range reads lower fun other inside => other ?_
    obtain ⟨i,rank,reached⟩ := (walks.span.mem_iff (by omega)).mp (walks.mem.mp inside)
    by_cases start : i = 0
    · rw [reached,start]
      simp
    · have : d ≤ i * d := le_mul_of_one_le_left up.le (by omega)
      omega
  · rw [if_neg before]
    have whole : (k - b - 1) % 2 ^ 32 = k - b - 1 := Int.emod_eq_of_lt (by omega) (by omega)
    rw [whole] at lower
    have low : 0 ≤ (k - b - 1) / d := Int.ediv_nonneg (by omega) up.le
    by_cases within : k ≤ b + n * d
    · rw [iff_true_right (.inl within)]
      have quotient : (k - b - 1) / d < n := (Int.ediv_lt_iff_lt_mul up).mpr (by omega)
      have candidate : b + ((k - b - 1) / d * d + d) = b + (((k - b - 1) / d).toNat + 1 : Nat) * d := by
        rw [Nat.cast_add,Nat.cast_one,Int.toNat_of_nonneg low]
        ring
      rw [candidate] at lower
      by_cases below : (wrap (b + (((k - b - 1) / d).toNat + 1 : Nat) * d)).sle (wrap b) = true
      · rw [max_of_sle below] at lower
        refine filters_of_rank walks up ray range reads (Nat.zero_le n) ?_ fun i _ _ => Nat.zero_le i
        rw [lower]
        simp
      · rw [max_of_not_sle below] at lower
        refine filters_of_rank walks up ray range reads (by omega) lower fun i _ kept => ?_
        have rank : (k - b - 1) / d < i := (Int.ediv_lt_iff_lt_mul up).mpr (by omega)
        omega
    · have quotient : (k - b - 1) / d = n := by
        rw [Int.ediv_eq_iff_of_pos up]
        constructor
        · linarith
        · linarith
      have candidate : b + ((k - b - 1) / d * d + d) = b + (n + 1) * d := by rw [quotient,next]
      rw [candidate] at lower
      have below : ¬ b + (n + 1) * d ≤ k := by omega
      rw [or_iff_right within,or_iff_right below]
      refine candidate_iff walks up ray range reads lower fun other inside => ?_
      obtain ⟨i,rank,reached⟩ := mem_walk.mp (walks.mem.mp inside)
      by_cases start : i = 0
      · rw [start] at reached
        simp only [Nat.cast_zero,zero_mul,add_zero] at reached
        exact other reached
      · have short := walks.short
        have near : (n + 1 - i) * d.natAbs < 2 ^ 32 := (Nat.mul_le_mul_right _ (by omega)).trans_lt short
        refine ranks_apart b walks.steps (p := i) (q := n + 1) (by omega) near ?_
        rw [← reached]
        congr 1

theorem filters_up_iff (reads : ∀ z, o ≤ z → z ≤ o + (2 ^ 32 - 1) → read (wrap z) = z) :
    Filters v (fun x => k ≤ read x) (v.inter w) ↔ UpFits o b d n k := by
  have live := walks.live
  have ends := ray.ends range
  have kinds : v.kind ≠ .ALL ∧ w.kind ≠ .ALL := by rw [walks.kind,ray.kind]; decide
  have first := walks.span.first
  have step := walks.step
  rw [UpFits]
  by_cases same : v = w
  · have start : b = k := by
      have words : wrap b = wrap k := by rw [← walks.lower,same,ray.lower]
      exact eq_of_wrap words (by omega)
    have unit : d = 1 := by
      have words : wrap d = wrap 1 := by rw [← walks.delta,same,ray.delta]; rfl
      exact eq_of_wrap words (by omega)
    rw [inter,if_pos same,start,unit]
    refine iff_of_true ⟨fun _ member _ => member,fun _ member => member⟩ ?_
    split
    · exact .inr (.inr rfl)
    · rw [if_pos (Int.le_refl k),Int.emod_one,add_zero,BitVec.sle_iff_toInt_le]
  rw [inter,if_neg same,if_neg kinds.1,if_neg kinds.2,live.2]
  simp only [Bool.false_eq_true,false_and,if_false]
  by_cases top : k = o + (2 ^ 32 - 1)
  · rw [if_pos (ends.2.2.mpr top),if_pos top]
    exact top_iff walks up ray range reads top
  · rw [if_neg (mt ends.2.2.mp top),if_neg top]
    by_cases reaches : k < b + (n + 1) * d
    · have notBack : ¬ v.delta = -1 := by
        intro back
        have words : wrap d = wrap (-1) := by rw [← walks.delta,back]; rfl
        have := eq_of_wrap words (by omega)
        omega
      rw [(overlaps_iff walks ray range up).mpr reaches,← unit_iff walks up ray range reads reaches]
      simp only [Bool.not_true,Bool.false_eq_true,if_false,notBack,or_false,ray.delta,true_or,if_true]
      by_cases unit : v.delta = 1
      · rw [if_pos unit,interUnit_eq (.inl (by rw [ray.delta]; decide)),interWalk_comm unit ray.delta]
      · rw [if_neg unit,interUnit_eq (.inl (walks.up_iff.mpr up))]
    · have next : ((n : Int) + 1) * d = n * d + d := by ring
      have length : 0 ≤ (n : Int) * d := Int.mul_nonneg (Int.natCast_nonneg n) up.le
      have apart : overlaps v w = false := by
        rw [← Bool.not_eq_true]
        exact mt (overlaps_iff walks ray range up).mp reaches
      rw [apart,if_pos (by rfl),if_neg (by omega : ¬ k ≤ b)]
      refine iff_of_true ((filters_none walks).mpr fun i rank => ?_) (.inr (.inl (by omega)))
      have inTurn := walks.span.rank rank
      have ascends := Int.mul_le_mul_of_nonneg_right (Int.ofNat_le.mpr rank) up.le
      rw [reads _ inTurn.1 inTurn.2]
      omega

end

theorem ge_up {b d k : Int} {n : Nat} {v : Value} (walks : Walks (-2 ^ 31) v b d n) (up : 0 < d)
    (range : -2 ^ 31 ≤ k ∧ k < 2 ^ 31) : Filters v (fun x => k ≤ x.toInt) (v.ge (wrap k)) ↔ GeFits b d n k := by
  have ray : Ray (-2 ^ 31) k ⟨.VAL,wrap k,1,maxn - wrap k⟩ := ⟨rfl,rfl,rfl,by rw [maxn_eq,← wrap_sub]⟩
  rw [ge,if_neg walks.live.1,walks.live.2,GeFits,if_pos up]
  simp only [Bool.false_eq_true,if_false,if_pos (walks.up_iff.mpr up)]
  exact filters_up_iff walks up ray (by omega) reads_signed

theorem geu_up {b d k : Int} {n : Nat} {v : Value} (walks : Walks 0 v b d n) (up : 0 < d)
    (range : 0 ≤ k ∧ k < 2 ^ 32) : Filters v (fun x => k ≤ x.toNat) (v.geu (wrap k)) ↔ GeuFits b d n k := by
  have ray : Ray 0 k ⟨.VAL,wrap k,1,umax - wrap k⟩ := ⟨rfl,rfl,rfl,by rw [umax_eq,← wrap_sub]⟩
  rw [geu,if_neg walks.live.1,walks.live.2,GeuFits,if_pos up]
  simp only [Bool.false_eq_true,if_false,if_pos (walks.up_iff.mpr up)]
  exact filters_up_iff walks up ray (by omega) reads_unsigned

/-! ### `leu` on downward walks -/

theorem min_of_sle {x y : Word} (below : x.sle y = true) : min x y = x := by
  unfold min
  by_cases less : x.slt y = true
  · rw [if_pos less]
  · rw [if_neg less]
    rw [BitVec.sle_iff_toInt_le] at below
    rw [BitVec.slt_iff_toInt_lt] at less
    exact BitVec.eq_of_toInt_eq (by omega)

theorem min_of_not_sle {x y : Word} (above : ¬ x.sle y = true) : min x y = y := by
  have notLess : ¬ x.slt y = true := by
    rw [BitVec.sle_iff_toInt_le] at above
    rw [BitVec.slt_iff_toInt_lt]
    omega
  rw [min,if_neg notLess]

theorem toInt_unsigned {z : Int} (range : 0 ≤ z ∧ z < 2 ^ 32) :
    (wrap z).toInt = if z < 2 ^ 31 then z else z - 2 ^ 32 := by
  split
  · exact toInt_wrap (by omega) (by omega)
  · rw [show wrap z = wrap (z - 2 ^ 32) from wrap_eq_iff.mpr (by omega)]
    exact toInt_wrap (by omega) (by omega)

structure Below (k : Int) (w : Value) : Prop where
  kind : w.kind = .VAL
  lower : w.lower = 0
  delta : w.delta = 1
  mtimes : w.mtimes = wrap k

theorem Below.ends {k : Int} {w : Value} (below : Below k w) : w.start = 0 ∧ w.stop = wrap k := by
  have notDown : ¬ w.delta.slt 0 = true := by rw [below.delta]; decide
  refine ⟨by rw [Value.start,if_neg notDown,below.lower],?_⟩
  rw [Value.stop,if_neg notDown,below.lower,below.delta,below.mtimes,one_mul,zero_add]

section
variable {b d k : Int} {n : Nat} {v w : Value} (walks : Walks 0 v b d n) (down : d < 0)
  (interval : Below k w)
include walks down interval

/-- A result of 2.5 from the word of rank j on. -/
theorem filters_from (steep : d ≠ -1) {j : Nat} (rank : j ≤ n) (near : j * -d < 2 ^ 31)
    (lower : (interWalk w v).lower = wrap (b + j * d)) :
    Filters v (fun x => (x.toNat : Int) ≤ k) (some (interWalk w v)) ↔ ∀ i ≤ n, b + (i : Nat) * d ≤ k → j ≤ i := by
  have member := fun x => mem_down walks down interval.ends.1 steep rank near lower (x := x)
  constructor
  · rintro ⟨keeps,_⟩ i high kept
    have inTurn := walks.span.rank high
    have inside : wrap (b + i * d) ∈ interWalk w v := by
      refine keeps _ (walks.mem.mpr (mem_walk.mpr ⟨i,high,rfl⟩)) ?_
      show ((wrap (b + i * d)).toNat : Int) ≤ k
      rw [reads_unsigned _ inTurn.1 inTurn.2]
      exact kept
    obtain ⟨i',low,high',same⟩ := (member _).mp inside
    by_contra before
    have short : (i' - i) * d.natAbs < 2 ^ 32 := (Nat.mul_le_mul_right _ (by omega)).trans_lt walks.short
    exact ranks_apart b walks.steps (p := i) (q := i') (by omega) short same
  · intro skips
    refine ⟨fun x inside kept => ?_,fun x inside => ?_⟩
    · obtain ⟨i,high,rfl⟩ := mem_walk.mp (walks.mem.mp inside)
      have inTurn := walks.span.rank high
      rw [reads_unsigned _ inTurn.1 inTurn.2] at kept
      exact (member _).mpr ⟨i,skips i high kept,high,rfl⟩
    · obtain ⟨i,_,high,rfl⟩ := (member _).mp inside
      exact walks.mem.mpr (mem_walk.mpr ⟨i,high,rfl⟩)

/-- The test of 2.4: the walk passes the threshold, or its first word is near the end of the turn. -/
theorem overlaps_below (range : 0 < k ∧ k < 2 ^ 32) :
    overlaps v w = true ↔ b + n * d ≤ k ∨ 2 ^ 32 < b - d := by
  have first := walks.span.first
  have last := walks.span.last
  have step := walks.step
  have start : v.start = wrap (b + n * d) := by
    rw [Value.start,if_pos (walks.down_iff.mpr down),walks.upper,walks.mtimes]
  have stop : v.stop = wrap b := by rw [Value.stop,if_pos (walks.down_iff.mpr down),walks.lower]
  have size : abs v.delta = wrap (-d) := by
    apply BitVec.eq_of_toNat_eq
    have := toNat_wrap (-d)
    rw [Int.emod_eq_of_lt (by omega) (by omega)] at this
    rw [walks.abs_delta]
    omega
  have inWalk : ∀ z, (wrap z - wrap (b + n * d)) / wrap (-d) ≤ v.mtimes ↔ (z - (b + n * d)) % 2 ^ 32 < (n + 1) * -d := by
    intro z
    have quotient := udiv_wrap (z - (b + n * d)) (-d)
    rw [Int.emod_eq_of_lt (a := -d) (by omega) (by omega)] at quotient
    rw [← wrap_sub,BitVec.le_def,walks.mtimes,← Int.ediv_lt_iff_lt_mul (by omega)]
    omega
  have inInterval : ∀ z, (wrap z - wrap 0) / abs 1 ≤ wrap k ↔ z % 2 ^ 32 ≤ k := by
    intro z
    rw [show abs 1 = 1#32 from rfl,BitVec.udiv_one,← wrap_sub,le_wrap,Int.emod_eq_of_lt (a := k) (by omega) (by omega),
      sub_zero]
  have next : ((n : Int) + 1) * -d = -(n * d) - d := by ring
  have descends : (n : Int) * d ≤ 0 := Int.mul_nonpos_of_nonneg_of_nonpos (Int.natCast_nonneg n) down.le
  simp only [overlaps,Bool.or_eq_true,decide_eq_true_eq,start,stop,interval.ends,size,interval.delta,interval.mtimes,
    show (0 : Word) = wrap 0 from rfl,inWalk,inInterval,next]
  omega

theorem zero_test_iff : ((w.lower - v.lower).srem v.delta = 0 ∧ (w.lower - v.lower).sdiv v.delta ≤ v.mtimes) ↔
    b + n * d = 0 ∧ (b ≤ 2 ^ 31 ∨ d = -1) := by
  have first := walks.span.first
  have last := walks.span.last
  rw [interval.lower,walks.lower,walks.delta,show (0 : Word) - wrap b = wrap (0 - b) from (wrap_sub 0 b).symm,zero_sub]
  by_cases near : b ≤ 2 ^ 31
  · rw [test_ahead walks.mtimes (by omega) walks.step walks.steps
      (Int.tdiv_nonneg_of_nonpos_of_nonpos (by omega) down.le),and_iff_left (.inl near)]
    constructor
    · rintro ⟨i,rank,same⟩
      have further : (n : Int) * d ≤ i * d := Int.mul_le_mul_of_nonpos_right (Int.ofNat_le.mpr rank) down.le
      omega
    · exact fun reached => ⟨n,Nat.le_refl n,by omega⟩
  · have same : wrap (-b) = wrap (2 ^ 32 - b) := wrap_eq_iff.mpr (by omega)
    have positive := Int.tdiv_nonneg (show 0 ≤ 2 ^ 32 - b by omega) (show 0 ≤ -d by omega)
    rw [Int.tdiv_neg] at positive
    rw [same,test_behind walks.mtimes (by omega) walks.step walks.steps (by omega) (by omega) walks.short]
    constructor
    · rintro ⟨unit,within⟩
      obtain rfl : d = -1 := by omega
      omega
    · rintro ⟨reached,near' | rfl⟩
      · exact absurd near' near
      · omega

theorem bottom_iff (bottom : k = 0) : Filters v (fun x => (x.toNat : Int) ≤ k) (interWithConst v w) ↔
    ¬ (d = -1 ∧ b = 2 ^ 31) ∧ (b + n * d ≠ 0 ∨ b ≤ 2 ^ 31 ∨ d = -1) := by
  have first := walks.span.first
  have descends : ∀ i ≤ n, b + n * d ≤ b + (i : Nat) * d := by
    intro i rank
    have := Int.mul_le_mul_of_nonpos_right (Int.ofNat_le.mpr rank) down.le
    omega
  have traps : DivTraps (w.lower - v.lower) v.delta ↔ d = -1 ∧ b = 2 ^ 31 := by
    rw [interval.lower,walks.lower,walks.delta,show (0 : Word) = wrap 0 from rfl,← wrap_sub,
      divTraps_iff walks.step walks.steps]
    omega
  by_cases trap : d = -1 ∧ b = 2 ^ 31
  · rw [interWithConst,if_pos (traps.mpr trap)]
    exact iff_of_false id fun fits => fits.1 trap
  rw [and_iff_right trap]
  refine withConst_iff walks (fun i rank => ?_) (fun i rank same => ?_) interval.ends.1 (mt traps.mp trap)
    (zero_test_iff walks down interval)
  · have inTurn := walks.span.rank rank
    rw [reads_unsigned _ inTurn.1 inTurn.2]
    omega
  · have inTurn := walks.span.rank (Nat.le_refl n)
    have := descends i rank
    omega

variable {c : Int} (candidate : (wrap k - wrap b).sdiv (wrap d) * wrap d + wrap b = wrap c)
include candidate

theorem whole_of_sle (steep : d ≠ -1) (below : (wrap b).sle (wrap c) = true) :
    Filters v (fun x => (x.toNat : Int) ≤ k) (some (interWalk w v)) := by
  have lower := lower_down walks down interval.ends.2
  rw [candidate,min_of_sle below] at lower
  refine (filters_from walks down interval steep (Nat.zero_le n) (by simp) ?_).mpr fun i _ _ => Nat.zero_le i
  rw [lower]
  simp

theorem rank_iff (steep : d ≠ -1) {j : Nat} (rank : j ≤ n) (same : c = b + j * d) :
    Filters v (fun x => (x.toNat : Int) ≤ k) (some (interWalk w v)) ↔
      (wrap b).sle (wrap c) = true ∨ ∀ i ≤ n, b + (i : Nat) * d ≤ k → j ≤ i := by
  by_cases below : (wrap b).sle (wrap c) = true
  · exact iff_of_true (whole_of_sle walks down interval candidate steep below) (.inl below)
  · have first := walks.span.first
    have inTurn := walks.span.rank rank
    have opposite : (j : Int) * -d = b - c := by rw [same]; ring
    have near : (j : Int) * -d < 2 ^ 31 := by
      rw [BitVec.sle_iff_toInt_le,toInt_unsigned (by omega),toInt_unsigned (by omega)] at below
      have nonneg : 0 ≤ (j : Int) * -d := Int.mul_nonneg (Int.natCast_nonneg j) (by omega)
      split at below <;> split at below <;> omega
    have lower := lower_down walks down interval.ends.2
    rw [candidate,min_of_not_sle below,same] at lower
    rw [or_iff_right below]
    exact filters_from walks down interval steep rank near lower

theorem outside_iff (steep : d ≠ -1) (outside : wrap c ≠ wrap b → ¬ wrap c ∈ v) :
    Filters v (fun x => (x.toNat : Int) ≤ k) (some (interWalk w v)) ↔ (wrap b).sle (wrap c) = true := by
  constructor
  · rintro ⟨_,inside⟩
    by_contra below
    have other : wrap c ≠ wrap b := fun same => below (by rw [same,BitVec.sle_iff_toInt_le])
    have lower := lower_down walks down interval.ends.2
    rw [candidate,min_of_not_sle below] at lower
    exact outside other (inside _ (lower ▸ lower_mem w v))
  · exact whole_of_sle walks down interval candidate steep

end

theorem Below.walks {k : Int} {w : Value} (interval : Below k w) (range : 0 < k ∧ k < 2 ^ 32) :
    Walks 0 w 0 1 k.toNat where
  kind := interval.kind
  lower := interval.lower
  delta := interval.delta
  mtimes := by
    have count := toNat_wrap k
    rw [Int.emod_eq_of_lt (by omega) range.2] at count
    rw [interval.mtimes]
    omega
  step := by omega
  steps := by omega
  count := by omega
  span := ⟨by omega,by omega⟩

theorem interval_iff {b k : Int} {n : Nat} {v w : Value} (walks : Walks 0 v b (-1) n) (interval : Below k w)
    (range : 0 < k ∧ k < 2 ^ 32) (passes : b + n * (-1) ≤ k) :
    Filters v (fun x => (x.toNat : Int) ≤ k) (some (interWalk v w)) ↔ b + n * (-1) < 2 ^ 31 := by
  have first := walks.span.first
  have last := walks.span.last
  have isDown : v.delta.slt 0 = true := walks.down_iff.mpr (by omega)
  have start : v.start = wrap (b + n * (-1)) := by rw [Value.start,if_pos isDown,walks.upper,walks.mtimes]
  have stop : v.stop = wrap b := by rw [Value.stop,if_pos isDown,walks.lower]
  have lower := lower_up (interval.walks range) (by omega) start
  have candidate : wrap (0 + ((b + n * (-1) - 0 - 1) % 2 ^ 32 / 1 * 1 + 1)) = wrap (b + n * (-1)) :=
    wrap_eq_iff.mpr (by omega)
  rw [candidate] at lower
  by_cases near : b + n * (-1) < 2 ^ 31
  · rw [iff_true_right near]
    have least : (interWalk v w).lower = wrap (0 + (b + n * (-1)).toNat * 1) := by
      rw [lower,zero_add,mul_one,Int.toNat_of_nonneg last.1]
      by_cases zero : b + n * (-1) = 0
      · rw [zero]
        rfl
      · refine max_of_not_sle ?_
        rw [sle_wrap (by omega) (by omega)]
        omega
    have member := fun x => mem_up (interval.walks range) (by omega) stop (by omega) least (x := x)
    refine ⟨fun x inside kept => ?_,fun x inside => ?_⟩
    · obtain ⟨i,rank,rfl⟩ := mem_walk.mp (walks.mem.mp inside)
      have inTurn := walks.span.rank rank
      rw [reads_unsigned _ inTurn.1 inTurn.2] at kept
      refine (member _).mpr ⟨(b + i * (-1)).toNat,by omega,by omega,?_,?_⟩
      · rw [Int.emod_eq_of_lt (by omega) (by omega),Int.ediv_one]
        omega
      · rw [Int.toNat_of_nonneg inTurn.1]
        congr 1
        ring
    · obtain ⟨i,low,high,within,rfl⟩ := (member _).mp inside
      rw [Int.emod_eq_of_lt (by omega) (by omega),Int.ediv_one] at within
      refine walks.mem.mpr (mem_walk.mpr ⟨(b - i).toNat,by omega,?_⟩)
      congr 1
      omega
  · rw [iff_false_right near]
    rintro ⟨_,inside⟩
    have negative : (wrap (b + n * (-1))).sle (wrap 0) = true := by
      rw [BitVec.sle_iff_toInt_le,toInt_unsigned (by omega),if_neg near]
      show b + n * (-1) - 2 ^ 32 ≤ 0
      omega
    rw [max_of_sle negative] at lower
    have zero := walks.mem.mp (inside _ (lower ▸ lower_mem v w))
    obtain ⟨i,rank,same⟩ := (walks.span.mem_iff (by omega)).mp zero
    omega

section
variable {b d k : Int} {n : Nat} {v w : Value} (walks : Walks 0 v b d n) (down : d < 0) (interval : Below k w)
  (range : 0 < k ∧ k < 2 ^ 32) (steep : d ≠ -1)
include walks down interval range steep

/-- The candidate is the least point not below the threshold. -/
theorem steep_above_iff (above : k ≤ b) (near : b - k ≤ 2 ^ 31) :
    Filters v (fun x => (x.toNat : Int) ≤ k) (some (interWalk w v)) ↔
      (b - k) / -d ≤ n ∨ (wrap b).sle (wrap (b + (b - k) / -d * d)) = true := by
  have first := walks.span.first
  have step := walks.step
  have low : 0 ≤ (b - k) / -d := Int.ediv_nonneg (by omega) (by omega)
  have floor : (b - k) / -d * -d ≤ b - k := Int.ediv_mul_le _ (by omega)
  have more : 0 ≤ (b - k) / -d * -d := Int.mul_nonneg low (by omega)
  have candidate : (wrap k - wrap b).sdiv (wrap d) * wrap d + wrap b = wrap (b + (b - k) / -d * d) := by
    rw [← wrap_sub,show k - b = -(b - k) by ring,sdiv_back ⟨by omega,near⟩ ⟨step.1,down⟩,← wrap_mul,← wrap_add,add_comm]
  have opposite : (b - k) / -d * d = -((b - k) / -d * -d) := by ring
  by_cases rank : (b - k) / -d ≤ n
  · have same : b + (b - k) / -d * d = b + (((b - k) / -d).toNat : Nat) * d := by rw [Int.toNat_of_nonneg low]
    rw [rank_iff walks down interval candidate steep (by omega) same]
    refine iff_of_true (.inr fun i _ kept => ?_) (.inl rank)
    have : (b - k) / -d ≤ i := by
      by_contra before
      have further : ((i : Int) + 1) * -d ≤ (b - k) / -d * -d := Int.mul_le_mul_of_nonneg_right (by omega) (by omega)
      have next : ((i : Int) + 1) * -d = -(i * d) - d := by ring
      omega
    omega
  · have outside : wrap (b + (b - k) / -d * d) ≠ wrap b → ¬ wrap (b + (b - k) / -d * d) ∈ v := by
      intro _ inside
      obtain ⟨i,high,same⟩ := (walks.span.mem_iff (by omega)).mp (walks.mem.mp inside)
      have equal : (b - k) / -d = i := Int.eq_of_mul_eq_mul_right walks.steps (by linarith)
      omega
    rw [outside_iff walks down interval candidate steep outside,or_iff_right rank]

/-- The distance wraps, and the candidate is not below the first word as a signed word. -/
theorem steep_far (far : 2 ^ 31 < b - k) : Filters v (fun x => (x.toNat : Int) ≤ k) (some (interWalk w v)) := by
  have first := walks.span.first
  have step := walks.step
  have low : 0 ≤ (2 ^ 32 - (b - k)) / -d := Int.ediv_nonneg (by omega) (by omega)
  have floor : (2 ^ 32 - (b - k)) / -d * -d ≤ 2 ^ 32 - (b - k) := Int.ediv_mul_le _ (by omega)
  have more : 0 ≤ (2 ^ 32 - (b - k)) / -d * -d := Int.mul_nonneg low (by omega)
  have candidate : (wrap k - wrap b).sdiv (wrap d) * wrap d + wrap b = wrap (b + (2 ^ 32 - (b - k)) / -d * -d) := by
    have same : wrap (k - b) = wrap (2 ^ 32 - (b - k)) := wrap_eq_iff.mpr (by omega)
    rw [← wrap_sub,same,sdiv_along ⟨by omega,by omega⟩ ⟨step.1,down⟩,← wrap_mul,← wrap_add,add_comm,Int.neg_mul_comm]
  refine whole_of_sle walks down interval candidate steep ?_
  rw [BitVec.sle_iff_toInt_le,toInt_unsigned (z := b) (by omega),if_neg (by omega)]
  by_cases inTurn : b + (2 ^ 32 - (b - k)) / -d * -d < 2 ^ 32
  · rw [toInt_unsigned (by omega),if_neg (by omega)]
    omega
  · have turned : wrap (b + (2 ^ 32 - (b - k)) / -d * -d) = wrap (b + (2 ^ 32 - (b - k)) / -d * -d - 2 ^ 32) :=
      wrap_eq_iff.mpr (by omega)
    rw [turned,toInt_unsigned (by omega),if_pos (by omega)]
    omega

theorem steep_below_iff (below : b < k) (near : k - b < 2 ^ 31) :
    Filters v (fun x => (x.toNat : Int) ≤ k) (some (interWalk w v)) ↔
      (wrap b).sle (wrap (b + (k - b) / -d * -d)) = true := by
  have first := walks.span.first
  have step := walks.step
  have low : 0 ≤ (k - b) / -d := Int.ediv_nonneg (by omega) (by omega)
  have floor : (k - b) / -d * -d ≤ k - b := Int.ediv_mul_le _ (by omega)
  have more : 0 ≤ (k - b) / -d * -d := Int.mul_nonneg low (by omega)
  have candidate : (wrap k - wrap b).sdiv (wrap d) * wrap d + wrap b = wrap (b + (k - b) / -d * -d) := by
    rw [← wrap_sub,sdiv_along ⟨by omega,near⟩ ⟨step.1,down⟩,← wrap_mul,← wrap_add,add_comm,Int.neg_mul_comm]
  refine outside_iff walks down interval candidate steep fun other inside => other ?_
  obtain ⟨i,high,same⟩ := (walks.span.mem_iff (by omega)).mp (walks.mem.mp inside)
  have descends : (i : Int) * d ≤ 0 := Int.mul_nonpos_of_nonneg_of_nonpos (Int.natCast_nonneg i) down.le
  congr 1
  omega

theorem steep_below_far_iff (far : 2 ^ 31 ≤ k - b) :
    Filters v (fun x => (x.toNat : Int) ≤ k) (some (interWalk w v)) ↔ 2 ^ 32 - (k - b) < -d := by
  have first := walks.span.first
  have step := walks.step
  have low : 0 ≤ (2 ^ 32 - (k - b)) / -d := Int.ediv_nonneg (by omega) (by omega)
  have floor : (2 ^ 32 - (k - b)) / -d * -d ≤ 2 ^ 32 - (k - b) := Int.ediv_mul_le _ (by omega)
  have opposite : (2 ^ 32 - (k - b)) / -d * d = -((2 ^ 32 - (k - b)) / -d * -d) := by ring
  have candidate : (wrap k - wrap b).sdiv (wrap d) * wrap d + wrap b = wrap (b + (2 ^ 32 - (k - b)) / -d * d) := by
    have same : wrap (k - b) = wrap (-(2 ^ 32 - (k - b))) := wrap_eq_iff.mpr (by omega)
    rw [← wrap_sub,same,sdiv_back ⟨by omega,by omega⟩ ⟨step.1,down⟩,← wrap_mul,← wrap_add,add_comm]
  by_cases none : 2 ^ 32 - (k - b) < -d
  · rw [Int.ediv_eq_zero_of_lt (by omega) none,zero_mul,add_zero] at candidate
    refine iff_of_true (whole_of_sle walks down interval candidate steep ?_) none
    rw [BitVec.sle_iff_toInt_le]
  refine iff_of_false ?_ none
  have some : 1 ≤ (2 ^ 32 - (k - b)) / -d := (Int.le_ediv_iff_mul_le (by omega)).mpr (by omega)
  have further : -d ≤ (2 ^ 32 - (k - b)) / -d * -d := le_mul_of_one_le_left (by omega) some
  have signed : ¬ (wrap b).sle (wrap (b + (2 ^ 32 - (k - b)) / -d * d)) = true := by
    rw [sle_wrap (by omega) (by omega)]
    omega
  by_cases rank : (2 ^ 32 - (k - b)) / -d ≤ n
  · have same : b + (2 ^ 32 - (k - b)) / -d * d = b + (((2 ^ 32 - (k - b)) / -d).toNat : Nat) * d := by
      rw [Int.toNat_of_nonneg low]
    rw [rank_iff walks down interval candidate steep (by omega) same,or_iff_right signed]
    intro skips
    have zero := skips 0 (Nat.zero_le n) (by simp; omega)
    omega
  rw [outside_iff walks down interval candidate steep]
  · exact signed
  · intro _ inside
    by_cases inTurn : 0 ≤ b + (2 ^ 32 - (k - b)) / -d * d
    · obtain ⟨i,high,same⟩ := (walks.span.mem_iff (by omega)).mp (walks.mem.mp inside)
      have equal : (2 ^ 32 - (k - b)) / -d = i := Int.eq_of_mul_eq_mul_right walks.steps (by linarith)
      omega
    · have turned : wrap (b + (2 ^ 32 - (k - b)) / -d * d) = wrap (b + (2 ^ 32 - (k - b)) / -d * d + 2 ^ 32) :=
        wrap_eq_iff.mpr (by omega)
      rw [turned] at inside
      obtain ⟨i,high,same⟩ := (walks.span.mem_iff (by omega)).mp (walks.mem.mp inside)
      have descends : (i : Int) * d ≤ 0 := Int.mul_nonpos_of_nonneg_of_nonpos (Int.natCast_nonneg i) down.le
      omega

theorem steep_iff (reaches : b + n * d ≤ k ∨ 2 ^ 32 < b - d) :
    Filters v (fun x => (x.toNat : Int) ≤ k) (some (interWalk w v)) ↔
      if b + n * d ≤ k then
        k ≤ b ∨ if k - b < 2 ^ 31 then (wrap b).sle (wrap (b + (k - b) / -d * -d)) = true else 2 ^ 32 - (k - b) < -d
      else b - d ≤ 2 ^ 32 ∨ 2 ^ 31 < b - k ∨ (b - k) / -d ≤ n ∨ (wrap b).sle (wrap (b + (b - k) / -d * d)) = true := by
  have descends : (n : Int) * d ≤ 0 := Int.mul_nonpos_of_nonneg_of_nonpos (Int.natCast_nonneg n) down.le
  by_cases above : k ≤ b
  · simp only [above,true_or]
    by_cases near : b - k ≤ 2 ^ 31
    · rw [steep_above_iff walks down interval range steep above near]
      by_cases passes : b + n * d ≤ k
      · simp only [passes,if_true,iff_true]
        exact .inl (Int.ediv_le_of_le_mul (by omega) (by linarith))
      · have shallow : ¬ b - d ≤ 2 ^ 32 := by omega
        have close : ¬ 2 ^ 31 < b - k := by omega
        simp only [passes,shallow,close,if_false,false_or]
    · refine iff_of_true (steep_far walks down interval range steep (by omega)) ?_
      split
      · trivial
      · exact .inr (.inl (by omega))
  · rw [if_pos (by omega),or_iff_right above]
    split
    case isTrue near => exact steep_below_iff walks down interval range steep (by omega) near
    case isFalse far => exact steep_below_far_iff walks down interval range steep (by omega)

end

theorem leu_down {b d k : Int} {n : Nat} {v : Value} (walks : Walks 0 v b d n) (down : d < 0)
    (range : 0 ≤ k ∧ k < 2 ^ 32) : Filters v (fun x => (x.toNat : Int) ≤ k) (v.leu (wrap k)) ↔ LeuFits b d n k := by
  have isDown : v.delta.slt 0 = true := walks.down_iff.mpr down
  have interval : Below k ⟨.VAL,0,1,wrap k⟩ := ⟨rfl,rfl,rfl,rfl⟩
  have step := walks.step
  have different : v ≠ ⟨.VAL,0,1,wrap k⟩ := by
    intro same
    have words : wrap d = wrap 1 := by rw [← walks.delta,same]; rfl
    have := eq_of_wrap words (by omega)
    omega
  have kinds : v.kind ≠ .ALL := by rw [walks.kind]; decide
  have isConst : (⟨.VAL,0,1,wrap k⟩ : Value).isConst = true ↔ k = 0 := by
    have zero : wrap k = 0 ↔ k = 0 := by
      rw [show (0 : Word) = wrap 0 from rfl,wrap_eq_iff]
      omega
    have some : ¬ (1 : Word) = 0 := by decide
    rw [Value.isConst]
    simp only [Bool.or_eq_true,beq_iff_eq,some,false_or,zero]
  rw [leu,if_neg walks.live.1,walks.live.2,LeuFits,if_neg (by omega : ¬ 0 < d)]
  simp only [Bool.false_eq_true,if_false,isDown,if_true]
  have other : ¬ (⟨.VAL,0,1,wrap k⟩ : Value).kind = .ALL := Kind.noConfusion
  rw [inter,if_neg different,if_neg kinds,if_neg other,walks.live.2]
  simp only [Bool.false_eq_true,false_and,if_false]
  by_cases bottom : k = 0
  · rw [if_pos (isConst.mpr bottom),if_pos bottom]
    exact bottom_iff walks down interval bottom
  · rw [if_neg (mt isConst.mp bottom),if_neg bottom]
    by_cases reaches : b + n * d ≤ k ∨ 2 ^ 32 < b - d
    · rw [(overlaps_below walks down interval ⟨by omega,range.2⟩).mpr reaches]
      have notUnit : ¬ v.delta = 1 := by
        intro unit
        have words : wrap d = wrap 1 := by rw [← walks.delta,unit]; rfl
        have := eq_of_wrap words (by omega)
        omega
      have unit : v.delta = -1 ↔ d = -1 := by
        rw [walks.delta,show (-1 : Word) = wrap (-1) from rfl,wrap_eq_iff]
        omega
      simp only [Bool.not_true,Bool.false_eq_true,if_false,notUnit,false_or,unit,true_or,if_true]
      by_cases flat : d = -1
      · subst flat
        have first := walks.span.first
        have passes : b + n * (-1) ≤ k := by omega
        rw [if_pos rfl,if_pos rfl,interUnit_eq (.inl (show (0 : Word).slt 1 = true by decide)),interval_iff walks interval ⟨by omega,range.2⟩ passes,or_iff_right (by omega)]
      · have safe : v.delta ≠ 0 ∧ v.delta ≠ -1 :=
          ⟨fun zero => walks.steps (by rw [← walks.toInt_delta,zero]; rfl),mt unit.mp flat⟩
        rw [if_neg flat,if_neg flat,interUnit_eq (.inr safe)]
        exact steep_iff walks down interval ⟨by omega,range.2⟩ flat reaches
    · have apart : overlaps v ⟨.VAL,0,1,wrap k⟩ = false := by
        rw [← Bool.not_eq_true]
        exact mt (overlaps_below walks down interval ⟨by omega,range.2⟩).mp reaches
      rw [apart,if_pos (by rfl),filters_none walks]
      refine iff_of_true (fun i rank => ?_) ?_
      · have inTurn := walks.span.rank rank
        have descends := Int.mul_le_mul_of_nonpos_right (Int.ofNat_le.mpr rank) down.le
        rw [reads_unsigned _ inTurn.1 inTurn.2]
        omega
      · split
        · omega
        · rw [if_neg (by omega)]
          omega

/-- The integer progression stays in the range of signed words. -/
def InSigned (v : Value) : Prop :=
  -2 ^ 31 ≤ v.lower.toInt + v.mtimes.toNat * v.delta.toInt ∧ v.lower.toInt + v.mtimes.toNat * v.delta.toInt < 2 ^ 31

/-- The integer progression stays in the range of unsigned words. -/
def InUnsigned (v : Value) : Prop :=
  0 ≤ v.lower.toNat + v.mtimes.toNat * v.delta.toInt ∧ v.lower.toNat + v.mtimes.toNat * v.delta.toInt < 2 ^ 32

section
variable {v : Value} (kind : v.kind = .VAL)
include kind

theorem walks_of_signed (moves : v.isConst = false) (range : InSigned v) :
    Walks (-2 ^ 31) v v.lower.toInt v.delta.toInt v.mtimes.toNat := by
  have low := BitVec.le_toInt v.lower
  have high := BitVec.toInt_lt (x := v.lower)
  have low' := BitVec.le_toInt v.delta
  have high' := BitVec.toInt_lt (x := v.delta)
  simp only [isConst,Bool.or_eq_false_iff,beq_eq_false_iff_ne] at moves
  obtain ⟨first,last⟩ := range
  refine ⟨kind,(wrap_toInt _).symm,(wrap_toInt _).symm,rfl,by omega,?_,?_,by omega,by omega⟩
  · exact fun zero => moves.1 (BitVec.eq_of_toInt_eq zero)
  · exact fun zero => moves.2 (BitVec.eq_of_toNat_eq zero)

theorem walks_of_unsigned (moves : v.isConst = false) (range : InUnsigned v) :
    Walks 0 v v.lower.toNat v.delta.toInt v.mtimes.toNat := by
  have bound := v.lower.isLt
  have low' := BitVec.le_toInt v.delta
  have high' := BitVec.toInt_lt (x := v.delta)
  simp only [isConst,Bool.or_eq_false_iff,beq_eq_false_iff_ne] at moves
  obtain ⟨first,last⟩ := range
  have lower : v.lower = wrap v.lower.toNat := by rw [wrap_natCast,BitVec.ofNat_toNat,BitVec.setWidth_eq]
  refine ⟨kind,lower,(wrap_toInt _).symm,rfl,by omega,?_,?_,by omega,by omega⟩
  · exact fun zero => moves.1 (BitVec.eq_of_toInt_eq zero)
  · exact fun zero => moves.2 (BitVec.eq_of_toNat_eq zero)

theorem filters_const (const : v.isConst = true) {keep : Word → Prop} {test : Prop} [Decidable test]
    (decides : test ↔ ¬ keep v.lower) : Filters v keep (some (if test then none else v)) := by
  have only : ∀ x : Word, x ∈ v ↔ x = v.lower := by
    intro x
    simp only [isConst,Bool.or_eq_true,beq_iff_eq] at const
    rw [mem_val kind]
    refine Progression.mem_const (const.imp id fun zero => ?_)
    rw [zero]
    rfl
  by_cases lost : test
  · rw [if_pos lost]
    refine ⟨fun x member kept => ?_,fun x member => absurd member (mem_none rfl)⟩
    rw [(only x).mp member] at kept
    exact absurd kept (decides.mp lost)
  · rw [if_neg lost]
    exact ⟨fun _ member _ => member,fun _ member => member⟩

theorem live_of_val : ¬ (v = all ∨ v = none) := by
  rintro (rfl | rfl)
  · cases kind
  · cases kind

/-- A filter is right exactly when the value is a constant, or its walk meets the condition of
    the filter. -/
theorem filters_iff (k : Word) :
    (InSigned v →
      (Filters v (fun x => k.toInt ≤ x.toInt) (v.ge k) ↔
        v.isConst = true ∨ GeFits v.lower.toInt v.delta.toInt v.mtimes.toNat k.toInt) ∧
      (Filters v (fun x => x.toInt ≤ k.toInt) (v.le k) ↔
        v.isConst = true ∨ LeFits v.lower.toInt v.delta.toInt v.mtimes.toNat k.toInt)) ∧
    (InUnsigned v →
      (Filters v (fun x => k.toNat ≤ x.toNat) (v.geu k) ↔
        v.isConst = true ∨ GeuFits v.lower.toNat v.delta.toInt v.mtimes.toNat k.toNat) ∧
      (Filters v (fun x => x.toNat ≤ k.toNat) (v.leu k) ↔
        v.isConst = true ∨ LeuFits v.lower.toNat v.delta.toInt v.mtimes.toNat k.toNat)) := by
  have live := live_of_val kind
  cases moves : v.isConst with
  | true =>
    simp only [true_or,iff_true]
    refine ⟨fun _ => ⟨?_,?_⟩,fun _ => ⟨?_,?_⟩⟩
    · rw [ge,if_neg live,if_pos moves]
      exact filters_const kind moves (by rw [BitVec.slt_iff_toInt_lt,Int.not_le])
    · rw [le,if_neg live,if_pos moves]
      exact filters_const kind moves (by rw [BitVec.slt_iff_toInt_lt,Int.not_le])
    · rw [geu,if_neg live,if_pos moves]
      exact filters_const kind moves (by rw [BitVec.lt_def,Nat.not_le])
    · rw [leu,if_neg live,if_pos moves]
      exact filters_const kind moves (by rw [BitVec.lt_def,Nat.not_le])
  | false =>
    simp only [Bool.false_eq_true,false_or]
    refine ⟨fun range => ?_,fun range => ?_⟩
    · have walks := walks_of_signed kind moves range
      have bounds : -2 ^ 31 ≤ k.toInt ∧ k.toInt < 2 ^ 31 := ⟨BitVec.le_toInt k,BitVec.toInt_lt⟩
      rw [← wrap_toInt k,toInt_wrap bounds.1 bounds.2]
      rcases lt_or_gt_of_ne walks.steps with down | up
      · exact ⟨ge_down walks down bounds,le_down walks down bounds⟩
      · exact ⟨ge_up walks up bounds,le_up walks up bounds⟩
    · have walks := walks_of_unsigned kind moves range
      have bounds : 0 ≤ (k.toNat : Int) ∧ (k.toNat : Int) < 2 ^ 32 := ⟨Int.natCast_nonneg _,by have := k.isLt; omega⟩
      have word : wrap k.toNat = k := by rw [wrap_natCast,BitVec.ofNat_toNat,BitVec.setWidth_eq]
      simp only [← Int.ofNat_le]
      rcases lt_or_gt_of_ne walks.steps with down | up
      · have cut := geu_down walks down bounds
        have rest := leu_down walks down bounds
        rw [word] at cut rest
        exact ⟨cut,rest⟩
      · have cut := geu_up walks up bounds
        have rest := leu_up walks up bounds
        rw [word] at cut rest
        exact ⟨cut,rest⟩

end

theorem filters_iff_walk : Filters ⟨.VAL,0,4,3⟩ (fun x => (8 : Word).toInt ≤ x.toInt) (ge ⟨.VAL,0,4,3⟩ 8) ∧
    Filters ⟨.VAL,0,4,3⟩ (fun x => x.toNat ≤ (8 : Word).toNat) (leu ⟨.VAL,0,4,3⟩ 8) := by
  have signed : InSigned ⟨.VAL,0,4,3⟩ := by unfold InSigned; decide
  have unsigned : InUnsigned ⟨.VAL,0,4,3⟩ := by unfold InUnsigned; decide
  have ge : GeFits 0 4 3 8 := by
    rw [GeFits,if_pos (by omega),UpFits,if_neg (by omega),if_neg (by omega)]
    exact .inl (by decide)
  have leu : LeuFits 0 4 3 8 := by
    rw [LeuFits,if_pos (by omega)]
    omega
  have fits := filters_iff (v := ⟨.VAL,0,4,3⟩) rfl 8
  exact ⟨(fits.1 signed).1.mpr (.inr ge),(fits.2 unsigned).2.mpr (.inr leu)⟩

/-- The words 0, 4, 8 and 12 have one that is at most 0, but `leu` takes them all for greater. -/
theorem threshold_lost : ¬ ∀ v : Value, v.kind = .VAL → ∀ k : Word,
    (InSigned v → Filters v (fun x => k.toInt ≤ x.toInt) (v.ge k) ∧ Filters v (fun x => x.toInt ≤ k.toInt) (v.le k)) ∧
    (InUnsigned v → Filters v (fun x => k.toNat ≤ x.toNat) (v.geu k) ∧
      Filters v (fun x => x.toNat ≤ k.toNat) (v.leu k)) := by
  intro right
  have unsigned : InUnsigned ⟨.VAL,0,4,3⟩ := by unfold InUnsigned; decide
  have empty : leu ⟨.VAL,0,4,3⟩ 0 = some none := by decide
  have filters := ((right ⟨.VAL,0,4,3⟩ rfl 0).2 unsigned).2
  rw [empty] at filters
  exact mem_none rfl (filters.1 0 (mem_mk.mpr (Progression.base_mem 0 4 _)) (Nat.le_refl _))

end Value
end Otawa.Clp
