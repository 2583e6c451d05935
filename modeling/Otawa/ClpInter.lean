import Otawa.ClpWalk
import Mathlib.Data.Int.Log
import Mathlib.Data.Rat.Floor

/-!
`Value::inter`: the intersection of two values. Constants, disjoint intervals and intervals of
step 1 have paths of their own; two walks with steps are met by a linear congruence, which is
solved with a modular inverse and single-precision floats.
-/
namespace Otawa.Clp
open Otawa.Progression (progression)

/-- `MAXn` and `MINn`. -/
def maxn : Word := BitVec.intMax 32
def minn : Word := BitVec.intMin 32

/-- `max(intn_t, intn_t)`. -/
def max (a b : Word) : Word := if b.slt a then a else b
/-- `umin(uintn_t, uintn_t)`. -/
def umin (a b : Word) : Word := if a < b then a else b
def roundup (v m : Word) : Word := ((v - 1) / m + 1) * m
/-- `lcm(long, long)`: the product is kept in an `int32`. -/
def lcm (a b : Int) : Int := (abs (BitVec.ofInt 32 (a * b))).toNat / gcd a b

/-- A number as a `float`: rounded to 24 bits, half-way cases to the even one. -/
def single (q : ℚ) : ℚ :=
  if q = 0 then 0
  else
    let ulp : ℚ := 2 ^ (Int.log 2 |q| - 23)
    let low := ⌊q / ulp⌋
    let rest := q / ulp - low
    (if rest < 1 / 2 ∨ rest = 1 / 2 ∧ low % 2 = 0 then low else low + 1) * ulp

/-- A `float` as an `intn_t`, which is defined in the range only. -/
def intOf (q : ℚ) : Option Word := if -2 ^ 31 ≤ q ∧ q < 2 ^ 31 then some (BitVec.ofInt 32 ⌊q⌋) else none
/-- A `float` as a `uintn_t`, which is defined in the range only. -/
def uintOf (q : ℚ) : Option Word := if 0 ≤ q ∧ q < 2 ^ 32 then some (BitVec.ofInt 32 ⌊q⌋) else none

namespace Value

/-- `u1` and `u2`, where a downward walk of `val` is given the lower bound of `this`. -/
def upper (v this : Value) : Int :=
  if v.delta.slt 0 then this.lower.toInt else v.lower.toInt + v.delta.toInt * v.mtimes.toNat

/-- 2.3: a constant in the walk of w; `none` when the remainder traps. -/
def interConst (v w : Value) : Option Value :=
  if w.start.sle v.start ∧ DivTraps (v.start - w.start) w.delta then Option.none
  else if w.start.sle v.start ∧ (v.start - w.start).srem w.delta = 0 ∧ v.upper v ≤ w.upper v ∨ w = all then
    some (const v.start)
  else some none

/-- 2.3: a constant w in the walk of v. -/
def interWithConst (v w : Value) : Option Value :=
  if DivTraps (w.lower - v.lower) v.delta then Option.none
  else if (w.lower - v.lower).srem v.delta = 0 ∧ (w.lower - v.lower).sdiv v.delta ≤ v.mtimes then some (const w.start)
  else some none

/-- 2.4: the intervals overlap. -/
def overlaps (v w : Value) : Bool :=
  (w.start - v.start) / abs v.delta ≤ v.mtimes || (w.stop - v.start) / abs v.delta ≤ v.mtimes ||
    (v.start - w.start) / abs w.delta ≤ w.mtimes || (v.stop - w.start) / abs w.delta ≤ w.mtimes

/-- 2.5: the walk w in the interval u, without the traps. -/
def interWalk (u w : Value) : Value :=
  if (0 : Word).slt w.delta then
    let ls := max w.lower (roundup (u.start - w.lower) w.delta + w.lower)
    let ms := umin ((u.stop - ls) / w.delta) ((w.stop - ls) / w.delta)
    ⟨.VAL,ls,if ms = 0 then 0 else w.delta,ms⟩
  else
    let ls := min w.lower ((u.stop - w.lower).sdiv w.delta * w.delta + w.lower)
    let ms := min (w.mtimes + (w.lower - ls).sdiv w.delta) ((ls - u.start) / -w.delta)
    ⟨.VAL,ls,if ms = 0 then 0 else w.delta,ms⟩

/-- 2.5: the divisions of a downward walk may trap, first by the base, then by the result. -/
def interUnit (u w : Value) : Option Value :=
  if ¬ (0 : Word).slt w.delta ∧ (DivTraps (u.stop - w.lower) w.delta ∨
      DivTraps (w.lower - min w.lower ((u.stop - w.lower).sdiv w.delta * w.delta + w.lower)) w.delta) then Option.none
  else some (interWalk u w)

theorem interUnit_eq {u w : Value} (safe : (0 : Word).slt w.delta = true ∨ w.delta ≠ 0 ∧ w.delta ≠ -1) :
    interUnit u w = some (interWalk u w) := by
  refine if_neg ?_
  rintro ⟨notUp,traps⟩
  obtain ⟨zero,back⟩ := safe.resolve_left notUp
  rcases traps with (null | least) | null | least
  · exact zero null
  · exact back least.2
  · exact zero null
  · exact back least.2

/-- 3.4: the first `i` from 1 on with `(d1 * i - 1) % d2 == 0`. -/
def inverse (d1 d2 : Word) : Option Nat :=
  (List.range' 1 ((abs d2).toNat - 1)).find? fun i => (d1 * BitVec.ofNat 32 i - 1) % d2 = 0

/-- 3: two walks. A failed assertion and a float out of range have no result. -/
def interSteps (v w : Value) : Option Value := do
  let (l1,l2,d1,d2) := (v.lower,w.lower,v.delta,w.delta)
  let d := BitVec.ofInt 32 (gcd d1.toInt d2.toInt)
  if (l2 - l1) % d ≠ 0 then return none
  let ds := BitVec.ofInt 32 (lcm d1.toInt d2.toInt)
  match inverse d1 d2 with
  | Option.none => return none
  | some ip1p =>
    let i1p : Int := ip1p * (l2 - l1).toInt
    let i2p : Int := (1 - d1.toInt * ip1p).tdiv (-d2).toInt * (l2 - l1).toInt
    -- a float divided by 0 is out of range
    if ds = 0 then Option.none
    let k1 ← intOf ⌈single (single (single (-i1p) * single d1.toInt) / single ds.toNat)⌉
    let k2 ← intOf ⌈single (single (single (-i2p) * single d2.toInt) / single ds.toNat)⌉
    let k := (max k1 k2).toInt
    let i1s := BitVec.ofInt 32 (i1p + (k * ds.toNat).tdiv d1.toInt)
    let i2s := BitVec.ofInt 32 (i2p + (k * ds.toNat).tdiv d2.toInt)
    let ls := l1 + d1 * i1s
    if ls ≠ l2 + d2 * i2s then Option.none
    let umin := min (l1 + d1 * v.mtimes) (l2 + d2 * w.mtimes)
    let ms ← uintOf ⌊single (single (umin - ls).toInt / single ds.toNat)⌋
    return if ms = 0 then ⟨.VAL,ls,0,0⟩ else ⟨.VAL,ls,ds,ms⟩

def inter (v w : Value) : Option Value :=
  if v = w then some v
  else if v.kind = .ALL then some w
  else if w.kind = .ALL then some v
  else if v.isConst ∧ w.isConst then some (if v.lower = w.lower then const v.lower else none)
  else if v.isConst then interConst v w
  else if w.isConst then interWithConst v w
  else if !overlaps v w then some none
  else if v.delta = 1 ∨ v.delta = -1 then interUnit v w
  else if w.delta = 1 ∨ w.delta = -1 then interUnit w v
  else interSteps v w

theorem udiv_eq_wrap (y : Int) {d : Int} (positive : 0 < d) (step : d < 2 ^ 32) : wrap y / wrap d = wrap (y % 2 ^ 32 / d) := by
  have below : y % 2 ^ 32 / d ≤ y % 2 ^ 32 := Int.ediv_le_self _ (by omega)
  have low : 0 ≤ y % 2 ^ 32 / d := Int.ediv_nonneg (by omega) positive.le
  have value := udiv_wrap y d
  have bound := toNat_wrap (y % 2 ^ 32 / d)
  rw [Int.emod_eq_of_lt (a := d) positive.le (by omega)] at value
  rw [Int.emod_eq_of_lt low (by omega)] at bound
  apply BitVec.eq_of_toNat_eq
  omega

theorem roundup_wrap (y : Int) {d : Int} (positive : 0 < d) (step : d < 2 ^ 31) :
    roundup (wrap y) (wrap d) = wrap ((y - 1) % 2 ^ 32 / d * d + d) := by
  have before : wrap y - 1 = wrap (y - 1) := (wrap_sub y 1).symm
  rw [roundup,before,udiv_eq_wrap _ positive (by omega),show (1 : Word) = wrap 1 from rfl,← wrap_add,← wrap_mul]
  congr 1
  ring

theorem umin_toNat (x y : Word) : (umin x y).toNat = Min.min x.toNat y.toNat := by
  unfold umin
  by_cases less : x < y
  · rw [if_pos less]
    rw [BitVec.lt_def] at less
    omega
  · rw [if_neg less]
    rw [BitVec.lt_def] at less
    omega

theorem mem_result {ls d ms x : Word} : x ∈ (⟨.VAL,ls,if ms = 0 then 0 else d,ms⟩ : Value) ↔ x ∈ progression ls d ms.toNat := by
  rw [mem_mk]
  by_cases zero : ms = 0
  · rw [Progression.mem_const (.inr (by rw [zero]; rfl)),Progression.mem_const (.inr (by rw [zero]; rfl))]
  · rw [if_neg zero]

section
variable {o b d p q : Int} {n : Nat} {u v : Value} (walks : Walks o v b d n) (up : 0 < d)
include walks up

theorem lower_up (first : u.start = wrap p) :
    (interWalk u v).lower = max (wrap b) (wrap (b + ((p - b - 1) % 2 ^ 32 / d * d + d))) := by
  rw [interWalk,if_pos (walks.up_iff.mpr up)]
  simp only [first,walks.lower,walks.delta]
  rw [← wrap_sub,roundup_wrap _ up walks.step.2,← wrap_add,add_comm b]

theorem mem_up (last : u.stop = wrap q) {j : Nat} (rank : j ≤ n) (lower : (interWalk u v).lower = wrap (b + j * d))
    {x : Word} : x ∈ interWalk u v ↔
      ∃ i, j ≤ i ∧ i ≤ n ∧ ((i - j : Nat) : Int) ≤ (q - (b + j * d)) % 2 ^ 32 / d ∧ x = wrap (b + (i : Nat) * d) := by
  have step := walks.step
  have start : max v.lower (roundup (u.start - v.lower) (wrap d) + v.lower) = wrap (b + j * d) := by
    rw [← lower,interWalk,if_pos (walks.up_iff.mpr up),walks.delta]
  have stop : v.stop = wrap (b + n * d) := by
    rw [Value.stop,if_neg (by rw [walks.down_iff]; omega),walks.upper,walks.mtimes]
  have inTurn := walks.span.rank rank
  have further : (n - j : Nat) * d = b + n * d - (b + j * d) := by
    rw [Nat.cast_sub rank]
    ring
  have left : ((wrap q - wrap (b + j * d)) / wrap d).toNat = (q - (b + j * d)) % 2 ^ 32 / d := by
    rw [← wrap_sub,udiv_wrap,Int.emod_eq_of_lt (a := d) up.le (by omega)]
  have right : (((wrap (b + n * d) - wrap (b + j * d)) / wrap d).toNat : Int) = ((n - j : Nat) : Int) := by
    have low : 0 ≤ ((n - j : Nat) : Int) * d := Int.mul_nonneg (Int.natCast_nonneg _) up.le
    have last := walks.span.last
    rw [← wrap_sub,udiv_wrap,Int.emod_eq_of_lt (a := d) up.le (by omega),← further,
      Int.emod_eq_of_lt low (by omega),Int.mul_ediv_cancel _ up.ne']
  rw [interWalk,if_pos (walks.up_iff.mpr up)]
  simp only [walks.delta,start,last,stop]
  rw [mem_result,mem_walk,umin_toNat]
  constructor
  · rintro ⟨i,count,rfl⟩
    refine ⟨j + i,by omega,by omega,by rw [Nat.add_sub_cancel_left]; omega,?_⟩
    rw [Nat.cast_add]
    congr 1
    ring
  · rintro ⟨i,low,high,count,rfl⟩
    refine ⟨i - j,by omega,?_⟩
    rw [Nat.cast_sub low]
    congr 1
    ring

omit up in
theorem overlaps_up (up : 0 < d) (range : o ≤ p ∧ p ≤ q ∧ q ≤ o + (2 ^ 32 - 1)) (first : u.start = wrap p)
    (last : u.stop = wrap q) (unit : u.delta = 1) (length : u.mtimes = wrap (q - p)) : overlaps v u = true ↔
      (p - b) % 2 ^ 32 < (n + 1) * d ∨ (q - b) % 2 ^ 32 < (n + 1) * d ∨ (b - p) % 2 ^ 32 ≤ q - p ∨
        (b + n * d - p) % 2 ^ 32 ≤ q - p := by
  have step := walks.step
  have start : v.start = wrap b := by rw [Value.start,if_neg (by rw [walks.down_iff]; omega),walks.lower]
  have stop : v.stop = wrap (b + n * d) := by
    rw [Value.stop,if_neg (by rw [walks.down_iff]; omega),walks.upper,walks.mtimes]
  have size : abs v.delta = wrap d := by
    apply BitVec.eq_of_toNat_eq
    have := toNat_wrap d
    rw [Int.emod_eq_of_lt up.le (by omega)] at this
    rw [walks.abs_delta]
    omega
  have inWalk : ∀ z, (wrap z - wrap b) / wrap d ≤ v.mtimes ↔ (z - b) % 2 ^ 32 < (n + 1) * d := by
    intro z
    have quotient := udiv_wrap (z - b) d
    rw [Int.emod_eq_of_lt (a := d) up.le (by omega)] at quotient
    rw [← wrap_sub,BitVec.le_def,walks.mtimes,← Int.ediv_lt_iff_lt_mul up]
    omega
  have inInterval : ∀ z, (wrap z - wrap p) / abs 1 ≤ wrap (q - p) ↔ (z - p) % 2 ^ 32 ≤ q - p := by
    intro z
    rw [show abs 1 = 1#32 from rfl,BitVec.udiv_one,← wrap_sub,le_wrap,
      Int.emod_eq_of_lt (a := q - p) (by omega) (by omega)]
  simp only [overlaps,Bool.or_eq_true,decide_eq_true_eq,first,last,start,stop,size,unit,length,inWalk,inInterval,or_assoc]

end

section
variable {b d p q : Int} {n : Nat} {u v : Value} (walks : Walks 0 v b d n) (down : d < 0)
include walks down

theorem lower_down (last : u.stop = wrap q) :
    (interWalk u v).lower = min (wrap b) ((wrap q - wrap b).sdiv (wrap d) * wrap d + wrap b) := by
  rw [interWalk,if_neg (by rw [walks.up_iff]; omega)]
  simp only [last,walks.lower,walks.delta]

theorem mem_down (first : u.start = 0) (steep : d ≠ -1) {j : Nat} (rank : j ≤ n) (near : j * -d < 2 ^ 31)
    (lower : (interWalk u v).lower = wrap (b + j * d)) {x : Word} :
    x ∈ interWalk u v ↔ ∃ i, j ≤ i ∧ i ≤ n ∧ x = wrap (b + (i : Nat) * d) := by
  have step := walks.step
  have short := walks.short
  have inTurn := walks.span.rank rank
  have start : min v.lower ((u.stop - v.lower).sdiv (wrap d) * wrap d + v.lower) = wrap (b + j * d) := by
    rw [← lower,interWalk,if_neg (by rw [walks.up_iff]; omega),walks.delta]
  have few : (n : Int) * 2 ≤ n * -d := Int.mul_le_mul_of_nonneg_left (by omega) (by omega)
  have size : (n : Int) * -d < 2 ^ 32 := by
    rw [show -d = (d.natAbs : Int) by omega]
    exact_mod_cast short
  have left : v.mtimes + (v.lower - wrap (b + j * d)).sdiv (wrap d) = wrap (n - j : Nat) := by
    have distance : wrap b - wrap (b + j * d) = wrap (j * -d) := by
      rw [← wrap_sub]
      congr 1
      ring
    have nonneg : 0 ≤ (j : Int) * -d := Int.mul_nonneg (Int.natCast_nonneg j) (by omega)
    have quotient : ((j : Int) * -d).tdiv d = -j := by
      rw [show (j : Int) * -d = -j * d by ring,Int.mul_tdiv_cancel _ walks.steps]
    have count : v.mtimes = wrap n := by
      apply BitVec.eq_of_toNat_eq
      rw [walks.mtimes,wrap_natCast,BitVec.toNat_ofNat,Nat.mod_eq_of_lt (by omega)]
    rw [walks.lower,distance,sdiv_wrap (by omega) (by omega),quotient,count,← wrap_add,Nat.cast_sub rank]
    rfl
  have right : ∃ y : Int, (wrap (b + j * d) - 0) / -wrap d = wrap y ∧ ((n - j : Nat) : Int) ≤ y ∧ y < 2 ^ 31 := by
    have last := walks.span.last
    have whole : (0 : Int) ≤ b + j * d := inTurn.1
    refine ⟨(b + j * d) / -d,?_,?_,?_⟩
    · rw [sub_zero,← wrap_neg,udiv_eq_wrap _ (by omega) (by omega),Int.emod_eq_of_lt whole (by omega)]
    · rw [Int.le_ediv_iff_mul_le (by omega),Nat.cast_sub rank]
      linarith
    · rw [Int.ediv_lt_iff_lt_mul (by omega)]
      omega
  obtain ⟨y,same,low,high⟩ := right
  have count : min (v.mtimes + (v.lower - wrap (b + j * d)).sdiv (wrap d)) ((wrap (b + j * d) - u.start) / -wrap d) =
      wrap (n - j : Nat) := by
    rw [left,first,same,min]
    split
    case isTrue => rfl
    case isFalse notLess =>
      rw [slt_wrap (by omega) (by omega)] at notLess
      congr 1
      omega
  rw [interWalk,if_neg (by rw [walks.up_iff]; omega)]
  simp only [walks.delta,start,count]
  rw [mem_result,mem_walk,wrap_natCast,BitVec.toNat_ofNat,Nat.mod_eq_of_lt (by omega)]
  constructor
  · rintro ⟨i,count,rfl⟩
    refine ⟨j + i,by omega,by omega,?_⟩
    rw [Nat.cast_add]
    congr 1
    ring
  · rintro ⟨i,low,high,rfl⟩
    refine ⟨i - j,by omega,?_⟩
    rw [Nat.cast_sub low]
    congr 1
    ring

end

end Value
end Otawa.Clp
