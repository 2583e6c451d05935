import Otawa.ClpHull

/-!
The union operations of `clp::Value` on operands of every kind. The conditions of
`ClpHull` are put in terms of the operands alone: `join` numbers the words of both
from the smaller start by their greatest common measure (`JoinFits`), a widening
keeps the words of a step that divides the word size or of a walk that is shorter
than a turn (`WideningFits`), and a widening under a loop bound needs the second
walk to lie inside the first one (`FfwideningFits`).
-/
namespace Otawa.Clp.Value
open Otawa.Progression (progression)

/-! ### `join` -/

def measure (v w : Value) : Nat :=
  Nat.gcd (Nat.gcd (v.start - w.start).toInt.natAbs v.delta.toInt.natAbs) w.delta.toInt.natAbs

def extent (v w : Value) : Nat :=
  ((Max.max v.upper64 w.upper64 - Min.min v.start.toInt w.start.toInt) / (measure v w : Int)).toNat

/-- The words of `u`, numbered by the measure from the smaller start modulo the length
    of a turn, have numbers up to `count`. -/
def Numbered (v w u : Value) (count : Nat) : Prop :=
  ∀ i ≤ u.mtimes.toNat,
    ((u.start - min v.start w.start).toInt / (measure v w : Int) + (i * (u.delta.toInt.natAbs / measure v w) : Nat)) %
      ((2 ^ 32 / Nat.gcd (2 ^ 32) (measure v w) : Nat) : Int) ≤ count

/-- When the join of two progressions contains both: two constants, the first one
    recorded without step and count, are at most 2^31 apart; other operands have a
    measure, and the extent modulo 2^32 is a number beyond those of their words. -/
def JoinFits (v w : Value) : Prop :=
  v = w ∨
    if v.delta = 0 ∧ v.mtimes = 0 ∧ w.isConst then (v.lower.toInt - w.lower.toInt).natAbs ≤ 2 ^ 31
    else measure v w ≠ 0 ∧ Numbered v w v (extent v w % 2 ^ 32) ∧ Numbered v w w (extent v w % 2 ^ 32)

theorem joinStep_measure (v w : Value) : (joinStep v w).toNat = measure v w := by
  rw [joinStep_toNat,abs_toNat,abs_toNat,abs_toNat,measure]

theorem toInt_min (a b : Word) : (min a b).toInt = Min.min a.toInt b.toInt := by
  unfold min
  by_cases less : a.slt b
  · have signed : a.toInt < b.toInt := by simpa [BitVec.slt_eq_decide] using less
    rw [if_pos less]
    omega
  · have signed : ¬ a.toInt < b.toInt := by simpa [BitVec.slt_eq_decide] using less
    rw [if_neg less]
    omega

theorem start_le_upper64 (v : Value) : v.start.toInt ≤ v.upper64 := by
  have length : (0 : Int) ≤ (abs v.delta).toNat * v.mtimes.toNat :=
    Int.mul_nonneg (Int.natCast_nonneg _) (Int.natCast_nonneg _)
  simp only [upper64]
  omega

theorem joinCount_extent (v w : Value) : (joinCount v w).toNat = extent v w % 2 ^ 32 := by
  have ends : (if w.upper64 < v.upper64 then v.upper64 else w.upper64) = Max.max v.upper64 w.upper64 := by
    split <;> omega
  have above : 0 ≤ Max.max v.upper64 w.upper64 - Min.min v.start.toInt w.start.toInt := by
    have := start_le_upper64 v
    omega
  have quotient := Int.ediv_nonneg above (Int.natCast_nonneg (measure v w))
  simp only [joinCount,ends,toInt_min,joinStep_measure,extent,Int.tdiv_eq_ediv_of_nonneg above]
  rw [BitVec.toNat_ofInt]
  omega

theorem join_walks {v w : Value} (left : v.kind = .VAL) (right : w.kind = .VAL) (differ : v ≠ w)
    (walks : ¬ (v.delta = 0 ∧ v.mtimes = 0 ∧ w.isConst)) (some_ : measure v w ≠ 0) :
    v.join w = some ⟨.VAL,min v.start w.start,BitVec.ofNat 32 (measure v w),BitVec.ofNat 32 (extent v w)⟩ := by
  have step : joinStep v w = BitVec.ofNat 32 (measure v w) := by
    rw [← joinStep_measure,BitVec.ofNat_toNat,BitVec.setWidth_eq]
  have count : joinCount v w = BitVec.ofNat 32 (extent v w) := by
    apply BitVec.eq_of_toNat_eq
    rw [joinCount_extent,BitVec.toNat_ofNat]
  have nonzero : joinStep v w ≠ 0 := fun zero => some_ (by rw [← joinStep_measure,zero]; rfl)
  simp only [join,differ,left,right,walks,nonzero,if_false,reduceCtorEq,or_self]
  rw [step,count]

private theorem joinReaches_iff (v w u : Value) : JoinReaches v w u ↔ Numbered v w u (extent v w % 2 ^ 32) := by
  simp only [JoinReaches,Reaches,Numbered,order,joinStep_measure,joinCount_extent,abs_toNat]

theorem joinKeeps_iff {v w : Value} (left : v.kind = .VAL) (right : w.kind = .VAL) : JoinKeeps v w ↔ JoinFits v w := by
  have zero : joinStep v w = 0 ↔ measure v w = 0 := by
    rw [← joinStep_measure,← BitVec.toNat_inj]
    rfl
  simp only [JoinKeeps,JoinFits,left,right,reduceCtorEq,false_or,ne_eq,zero,joinReaches_iff]

private theorem recorded_of {v : Value} (real : v.kind ≠ .REG) (some_ : v.kind ≠ .NONE) : Recorded v := by
  cases kind : v.kind with
  | NONE => exact absurd kind some_
  | REG => exact absurd kind real
  | VAL => exact .inl kind
  | ALL => exact .inr kind

theorem keeps_same {u v w : Value} (empty : w.kind = .NONE) (inside : ∀ x ∈ v, x ∈ u) : Keeps (some u) v w :=
  keeps_some.mpr ⟨inside,fun _ member => absurd member (mem_none empty)⟩

theorem keeps_other {u v w : Value} (empty : v.kind = .NONE) (inside : ∀ x ∈ w, x ∈ u) : Keeps (some u) v w :=
  keeps_some.mpr ⟨fun _ member => absurd member (mem_none empty),inside⟩

private theorem join_none {v w : Value} (empty : v.kind = .NONE) : Keeps (v.join w) v w := by
  unfold join
  split
  case isTrue same => exact keeps_some.mpr ⟨fun _ member => member,fun _ member => same ▸ member⟩
  split
  case isTrue => exact keeps_top rfl
  case isFalse bounded =>
  refine keeps_other empty fun x member => ?_
  rcases kind_of_mem member with kind | kind
  · exact mem_mk.mpr ((mem_val kind).mp member)
  · exact absurd (.inr kind) bounded

/-- `join` yields a value that contains both its operands exactly when, for two
    progressions, the numbers of their words fit the count. -/
theorem join_contains_iff {v w : Value} (left : v.kind ≠ .REG) (right : w.kind ≠ .REG) :
    Keeps (v.join w) v w ↔ (v.kind = .VAL → w.kind = .VAL → JoinFits v w) := by
  by_cases vEmpty : v.kind = .NONE
  · simp only [vEmpty,reduceCtorEq,false_implies,iff_true]
    exact join_none vEmpty
  by_cases wEmpty : w.kind = .NONE
  · simp only [wEmpty,reduceCtorEq,false_implies,implies_true,iff_true]
    by_cases top : v.kind = .ALL
    · have differ : v ≠ w := fun same => by simp [same,wEmpty] at top
      rw [join,if_neg differ,if_pos (.inl top)]
      exact keeps_top rfl
    · have differ : v ≠ w := fun same => vEmpty (same ▸ wEmpty)
      simp only [join,differ,top,wEmpty,vEmpty,if_false,if_true,reduceCtorEq,or_self]
      exact keeps_same wEmpty fun _ member => member
  have vRecorded := recorded_of left vEmpty
  have wRecorded := recorded_of right wEmpty
  rw [join_keeps_iff vRecorded wRecorded]
  rcases vRecorded with vKind | vKind
  · rcases wRecorded with wKind | wKind
    · rw [joinKeeps_iff vKind wKind]
      simp only [vKind,wKind,forall_const]
    · simp [JoinKeeps,wKind]
  · simp [JoinKeeps,vKind]

theorem joinFits_walks : JoinFits ⟨.VAL,0,4,3⟩ ⟨.VAL,16,4,3⟩ := by
  refine .inr ?_
  rw [if_neg (by decide)]
  refine ⟨by decide +kernel,?_,?_⟩
  · unfold Numbered; decide +kernel
  · unfold Numbered; decide +kernel

/-- The walks of 0, 4, 8, 12 and of 16, 20, 24, 28 have a join that contains both. -/
theorem join_contains_iff_walks : Keeps (join ⟨.VAL,0,4,3⟩ ⟨.VAL,16,4,3⟩) ⟨.VAL,0,4,3⟩ ⟨.VAL,16,4,3⟩ :=
  (join_contains_iff (by decide) (by decide)).mpr fun _ _ => joinFits_walks

/-- Every word by steps of 1 and the word -1: the count wraps to 0, and 0 is lost. -/
theorem join_loses : ¬ ∀ v w : Value, v.kind ≠ .REG → w.kind ≠ .REG → Keeps (v.join w) v w := by
  intro contains
  have kept := contains ⟨.VAL,0,1,umax⟩ (const (-1)) (by decide) (by decide)
  rw [join_keeps_iff (.inl rfl) (.inl rfl),joinKeeps_iff rfl rfl] at kept
  rcases kept with same | fits
  · exact absurd same (by decide)
  rw [if_neg (by decide)] at fits
  have missed := fits.2.1 1 (by decide)
  exact absurd missed (by decide +kernel)

section Grid
variable {lo hi : Int} {g : Nat} {v w : Value}

private theorem emod_le {x : Int} {n : Nat} (positive : 0 ≤ x) : x % (n : Int) ≤ x := by
  rw [Int.emod_def]
  exact Int.sub_le_self _ (Int.mul_nonneg (Int.natCast_nonneg n) (Int.ediv_nonneg positive (Int.natCast_nonneg n)))

private theorem start_const (const : v.isConst) : v.start = v.lower := by
  simp only [isConst,Bool.or_eq_true,beq_iff_eq] at const
  rcases const with still | empty
  · simp [start,still]
  · simp [start,empty]

private theorem numbered_inside {u : Value} (positive : measure v w ≠ 0) (fits : extent v w < 2 ^ 32)
    (ahead : 0 ≤ (u.start - min v.start w.start).toInt)
    (offset : (measure v w : Int) ∣ (u.start - min v.start w.start).toInt) (step : measure v w ∣ u.delta.toInt.natAbs)
    (inside : (u.start - min v.start w.start).toInt + (u.delta.toInt.natAbs * u.mtimes.toNat : Nat) ≤
      Max.max v.upper64 w.upper64 - Min.min v.start.toInt w.start.toInt) :
    Numbered v w u (extent v w % 2 ^ 32) := by
  intro i le
  obtain ⟨a,number⟩ := offset
  obtain ⟨k,steps⟩ := step
  have walked : u.delta.toInt.natAbs * i ≤ u.delta.toInt.natAbs * u.mtimes.toNat := Nat.mul_le_mul_left _ le
  have some_ : (measure v w : Int) ≠ 0 := by omega
  rw [Nat.mod_eq_of_lt fits,number,Int.mul_ediv_cancel_left _ some_,steps,
    Nat.mul_div_cancel_left _ (Nat.pos_of_ne_zero positive)]
  have first : 0 ≤ a := by
    rw [number] at ahead
    exact nonneg_of_mul_nonneg_right ahead (by omega)
  refine Int.le_trans (emod_le (Int.add_nonneg first (Int.natCast_nonneg _))) ?_
  refine Int.le_trans ((Int.le_ediv_iff_mul_le (by omega)).mpr ?_) (Int.self_le_toNat _)
  calc (a + (i * k : Nat)) * (measure v w : Int) = measure v w * a + (measure v w * k * i : Nat) := by push_cast; ring
    _ = (u.start - min v.start w.start).toInt + (u.delta.toInt.natAbs * i : Nat) := by rw [number,steps]
    _ ≤ _ := by omega

end Grid

/-! ### `widening` -/

/-- The step of a widening is kept: the steps are the same, one pair of ends moved by
    nothing or by the step and the other pair by the step. -/
def StepKept (v w : Value) (near far : Word) : Prop :=
  abs v.delta = abs w.delta ∧ (near = 0 ∨ near = abs v.delta) ∧ far = abs v.delta

/-- The step `d` divides the word size, or a walk of `n` steps from the word `near` on is
    shorter than a turn. -/
def WalkFits (d near n : Word) : Prop :=
  d.toInt.natAbs ∣ 2 ^ 32 ∨ near.toNat + d.toInt.natAbs * n.toNat < 2 ^ 32

/-- When the widening of two values of kind `NONE` or `VAL` contains both. The kind of the
    first one is kept unless the ends moved apart, and with it nothing of the second one. -/
def WideningFits (v w : Value) : Prop :=
  v = w ∨
    if v.isConst ∧ w.isConst then w.kind = .VAL → v.kind = .VAL
    else if w.start.sle v.start ∧ w.stop.sle v.stop then
      (w.kind = .VAL → v.kind = .VAL) ∧ (StepKept v w (v.stop - w.stop) (v.start - w.start) →
        (v.kind = .VAL → WalkFits v.delta 0 v.mtimes) ∧ (w.kind = .VAL → WalkFits w.delta (v.stop - w.stop) w.mtimes))
    else if v.start.sle w.start ∧ v.stop.sle w.stop then
      (w.kind = .VAL → v.kind = .VAL) ∧ (StepKept v w (w.start - v.start) (w.stop - v.stop) →
        (v.kind = .VAL → WalkFits v.delta 0 v.mtimes) ∧ (w.kind = .VAL → WalkFits w.delta (w.start - v.start) w.mtimes))
    else True

theorem widenStep_kept {v w : Value} {near far : Word} (kept : StepKept v w near far) :
    widenStep v w near far = abs v.delta := by
  obtain ⟨same,nearMove,farMove⟩ := kept
  have still : ¬ (abs v.delta ≠ abs w.delta ∨ (near ≠ 0 ∧ near ≠ abs v.delta) ∨ far ≠ abs v.delta) := by
    rintro (differ | ⟨one,two⟩ | moved)
    · exact differ same
    · exact nearMove.elim one two
    · exact moved farMove
  exact if_neg still

theorem widenStep_unit {v w : Value} {near far : Word} (moved : ¬ StepKept v w near far) :
    widenStep v w near far = 1 := by
  refine if_pos ?_
  by_contra still
  push Not at still
  refine moved ⟨still.1,?_,still.2.2⟩
  by_cases zero : near = 0
  · exact .inl zero
  · exact .inr (still.2.1 zero)

/-- A walk of a step that does not divide the word size as far as the word size allows
    misses a word of a turn. -/
private theorem turn_longer {g : Nat} (positive : 0 < g) (bound : g ≤ 2 ^ 31) (divides : ¬ g ∣ 2 ^ 32) :
    (2 ^ 32 - 1) / g + 1 < 2 ^ 32 / Nat.gcd (2 ^ 32) g := by
  obtain ⟨k,factor⟩ := Nat.gcd_dvd_right (2 ^ 32) g
  obtain ⟨turn,size⟩ := Nat.gcd_dvd_left (2 ^ 32) g
  have gcdPositive : 0 < Nat.gcd (2 ^ 32) g := Nat.gcd_pos_of_pos_left _ (by decide)
  generalize Nat.gcd (2 ^ 32) g = c at factor size gcdPositive
  have two : 2 ≤ k := by
    rcases Nat.lt_or_ge k 2 with small | large
    · have : k = 0 ∨ k = 1 := by omega
      rcases this with rfl | rfl
      · omega
      · rw [Nat.mul_one] at factor
        exact absurd ⟨turn,by rw [factor]; exact size⟩ divides
    · exact large
  have length : 2 ^ 32 / c = turn := Nat.div_eq_of_eq_mul_right gcdPositive size
  rw [length]
  have count : (2 ^ 32 - 1) / g * g ≤ 2 ^ 32 - 1 := Nat.div_mul_le_self _ _
  have some : 1 ≤ (2 ^ 32 - 1) / g := (Nat.le_div_iff_mul_le positive).mpr (by omega)
  generalize (2 ^ 32 - 1) / g = steps at count some
  have below : c * (steps * k) < c * turn := by
    calc c * (steps * k) = steps * g := by rw [factor]; ring
      _ < 2 ^ 32 := by omega
      _ = c * turn := size
  have longer : steps * k < turn := Nat.lt_of_mul_lt_mul_left below
  have twice : steps * 2 ≤ steps * k := Nat.mul_le_mul_left _ two
  omega

/-- The walk by steps of `g` as long as the word size allows contains the words `z` to
    `z + m` of a turn when `g` divides the word size or when they stay below it. -/
private theorem reaches_iff {g z m : Nat} (positive : 0 < g) (bound : g ≤ 2 ^ 31) (one : z ≤ 1) :
    (∀ i ≤ m, ((z : Int) + (i : Nat)) % ((2 ^ 32 / Nat.gcd (2 ^ 32) g : Nat) : Int) ≤ ((2 ^ 32 - 1) / g : Nat)) ↔
      g ∣ 2 ^ 32 ∨ z * g + g * m < 2 ^ 32 := by
  have within : z * g + g * m < 2 ^ 32 ↔ z + m ≤ (2 ^ 32 - 1) / g := by
    rw [Nat.le_div_iff_mul_le positive,Nat.add_mul,Nat.mul_comm m g]
    omega
  by_cases divides : g ∣ 2 ^ 32
  · simp only [divides,true_or,iff_true]
    intro i _
    obtain ⟨turn,size⟩ := divides
    have gcd : Nat.gcd (2 ^ 32) g = g := Nat.gcd_eq_right ⟨turn,size⟩
    have length : 2 ^ 32 / g = turn := Nat.div_eq_of_eq_mul_right positive size
    have turnPositive : 0 < turn := Nat.pos_of_ne_zero fun zero => by simp [zero] at size
    have last : turn - 1 ≤ (2 ^ 32 - 1) / g := by
      rw [Nat.le_div_iff_mul_le positive,Nat.sub_mul,Nat.mul_comm turn,← size]
      omega
    rw [gcd,length]
    have below := Int.emod_lt_of_pos ((z : Int) + i) (b := (turn : Int)) (by omega)
    omega
  · simp only [divides,false_or,within]
    have longer := turn_longer positive bound divides
    generalize (2 ^ 32 - 1) / g = count at longer
    generalize 2 ^ 32 / Nat.gcd (2 ^ 32) g = turn at longer
    constructor
    · intro numbers
      by_contra beyond
      have missed := numbers (count + 1 - z) (by omega)
      rw [Int.emod_eq_of_lt (by omega) (by omega)] at missed
      omega
    · intro inside i le
      rw [Int.emod_eq_of_lt (by omega) (by omega)]
      omega

private theorem walk_iff {d near n : Word} (step : d ≠ 0) (moved : near = 0 ∨ near = abs d) :
    Reaches (abs d) (near.toInt / (abs d).toNat) ((abs d).toNat / (abs d).toNat) n.toNat (umax / abs d).toNat ↔
      WalkFits d near n := by
  have size := abs_toNat d
  have positive : 0 < d.toInt.natAbs := by
    rcases Nat.eq_zero_or_pos d.toInt.natAbs with zero | positive
    · exact absurd (BitVec.eq_of_toInt_eq (y := 0) (by rw [Int.natAbs_eq_zero.mp zero]; rfl)) step
    · exact positive
  have bound : d.toInt.natAbs ≤ 2 ^ 31 := by
    have low := BitVec.le_toInt d
    have high := BitVec.toInt_lt (x := d)
    omega
  have count : (umax / abs d).toNat = (2 ^ 32 - 1) / d.toInt.natAbs := by rw [BitVec.toNat_udiv,size]; rfl
  simp only [Reaches,order,count,size,Nat.div_self positive,Nat.mul_one,WalkFits]
  rcases moved with rfl | rfl
  · have zero : ((0 : Word).toInt / (d.toInt.natAbs : Int)) = ((0 : Nat) : Int) := by simp
    rw [zero,reaches_iff positive bound (by omega)]
    simp
  · by_cases half : d.toInt.natAbs = 2 ^ 31
    · simp only [half,show 2 ^ 31 ∣ 2 ^ 32 by decide,true_or,iff_true]
      intro i _
      have below := Int.emod_lt_of_pos ((abs d).toInt / ((2 ^ 31 : Nat) : Int) + i)
        (b := ((2 ^ 32 / Nat.gcd (2 ^ 32) (2 ^ 31) : Nat) : Int)) (by decide)
      have turn : 2 ^ 32 / Nat.gcd (2 ^ 32) (2 ^ 31) = 2 := by decide
      rw [turn] at below ⊢
      omega
    · have one : (abs d).toInt / (d.toInt.natAbs : Int) = ((1 : Nat) : Int) := by
        rw [BitVec.toInt_eq_toNat_of_lt (by omega),size]
        exact Int.ediv_self (by omega)
      rw [one,size,reaches_iff positive bound (by omega),Nat.one_mul]

private theorem down_iff {u : Value} {b : Word} (kind : u.kind = .VAL) (step : u.delta ≠ 0)
    (moved : b - u.stop = 0 ∨ b - u.stop = abs u.delta) :
    (∀ x ∈ u, x ∈ progression b (-abs u.delta) (umax / abs u.delta).toNat) ↔
      WalkFits u.delta (b - u.stop) u.mtimes := by
  rw [subset_down_iff kind (dvd_moved (Nat.dvd_refl _) moved) (Nat.dvd_refl _)]
  exact walk_iff step moved

private theorem up_iff {u : Value} {b : Word} (kind : u.kind = .VAL) (step : u.delta ≠ 0)
    (moved : u.start - b = 0 ∨ u.start - b = abs u.delta) :
    (∀ x ∈ u, x ∈ progression b (abs u.delta) (umax / abs u.delta).toNat) ↔
      WalkFits u.delta (u.start - b) u.mtimes := by
  rw [subset_up_iff kind (dvd_moved (Nat.dvd_refl _) moved) (Nat.dvd_refl _)]
  exact walk_iff step moved

private theorem down_widened {u v w : Value} (near far : Word) (kind : u.kind = .VAL) (step : StepKept v w near far → u.delta ≠ 0)
    (same : StepKept v w near far → abs u.delta = abs v.delta)
    (moved : v.stop - u.stop = 0 ∨ v.stop - u.stop = near) :
    (∀ x ∈ u, x ∈ progression v.stop (-widenStep v w near far) (umax / widenStep v w near far).toNat) ↔
      (StepKept v w near far → WalkFits u.delta (v.stop - u.stop) u.mtimes) := by
  by_cases kept : StepKept v w near far
  · simp only [kept,true_implies]
    rw [widenStep_kept kept,← same kept]
    refine down_iff kind (step kept) ?_
    rcases moved with still | here
    · exact .inl still
    · rw [here,same kept]
      exact kept.2.1
  · simp only [kept,false_implies,iff_true]
    have full : umax / 1 = umax := by decide
    rw [widenStep_unit kept]
    exact fun x _ => (mem_mk (d := -1) (n := umax / 1)).mp (mem_umax rfl (.inr rfl) full x)

private theorem up_widened {u v w : Value} (near far : Word) (kind : u.kind = .VAL) (step : StepKept v w near far → u.delta ≠ 0)
    (same : StepKept v w near far → abs u.delta = abs v.delta)
    (moved : u.start - v.start = 0 ∨ u.start - v.start = near) :
    (∀ x ∈ u, x ∈ progression v.start (widenStep v w near far) (umax / widenStep v w near far).toNat) ↔
      (StepKept v w near far → WalkFits u.delta (u.start - v.start) u.mtimes) := by
  by_cases kept : StepKept v w near far
  · simp only [kept,true_implies]
    rw [widenStep_kept kept,← same kept]
    refine up_iff kind (step kept) ?_
    rcases moved with still | here
    · exact .inl still
    · rw [here,same kept]
      exact kept.2.1
  · simp only [kept,false_implies,iff_true]
    have full : umax / 1 = umax := by decide
    rw [widenStep_unit kept]
    exact fun x _ => (mem_mk (d := 1) (n := umax / 1)).mp (mem_umax rfl (.inl rfl) full x)

/-- A result of the kind of the first operand contains both operands when it has a kind
    at all and its words are theirs. -/
private theorem keeps_kind {v w : Value} {b d n : Word} (left : v.kind = .NONE ∨ v.kind = .VAL)
    (right : w.kind = .NONE ∨ w.kind = .VAL) :
    Keeps (some ⟨v.kind,b,d,n⟩) v w ↔ (w.kind = .VAL → v.kind = .VAL) ∧
      (v.kind = .VAL → ∀ x ∈ v, x ∈ progression b d n.toNat) ∧
      (w.kind = .VAL → ∀ x ∈ w, x ∈ progression b d n.toNat) := by
  rw [keeps_some]
  rcases left with vKind | vKind
  · rcases right with wKind | wKind
    · simp only [vKind,wKind,reduceCtorEq,false_implies,and_self,iff_true]
      exact ⟨fun x member => absurd member (mem_none vKind),fun x member => absurd member (mem_none wKind)⟩
    · simp only [vKind,wKind,reduceCtorEq,false_implies,true_implies,true_and,false_and,iff_false]
      rintro ⟨-,inside⟩
      have first : w.lower ∈ w := (mem_val wKind).mpr (Progression.base_mem _ _ _)
      exact mem_none rfl (inside w.lower first)
  · rcases right with wKind | wKind
    · simp only [vKind,wKind,reduceCtorEq,false_implies,true_implies,and_true,true_and,mem_mk]
      exact and_iff_left fun x member => absurd member (mem_none wKind)
    · simp only [vKind,wKind,true_implies,true_and,mem_mk]

private theorem delta_of_abs {v : Value} (zero : abs v.delta = 0) : v.isConst := by
  have size := abs_toNat v.delta
  rw [zero] at size
  have none : v.delta = 0 := BitVec.eq_of_toInt_eq (y := 0) (by rw [Int.natAbs_eq_zero.mp size.symm]; rfl)
  simp [isConst,none]

theorem kept_steps {v w : Value} {near far : Word} (walks : ¬ (v.isConst ∧ w.isConst))
    (kept : StepKept v w near far) : v.delta ≠ 0 ∧ w.delta ≠ 0 := by
  have nonzero : abs v.delta ≠ 0 := fun zero => walks ⟨delta_of_abs zero,delta_of_abs (kept.1 ▸ zero)⟩
  refine ⟨?_,?_⟩
  · rintro none
    exact nonzero (by rw [none]; rfl)
  · rintro none
    exact nonzero (by rw [kept.1,none]; rfl)

private theorem under_kept {p q kept a b : Prop} :
    ((p → kept → a) ∧ (q → kept → b)) ↔ (kept → (p → a) ∧ (q → b)) := by
  constructor
  · rintro ⟨one,two⟩ same
    exact ⟨fun left => one left same,fun right => two right same⟩
  · intro both
    exact ⟨fun left same => (both same).1 left,fun right same => (both same).2 right⟩

theorem widening_contains_iff {v w : Value} (left : v.kind ≠ .REG) (right : w.kind ≠ .REG) :
    Keeps (some (v.widening w)) v w ↔ (v.kind ≠ .ALL → w.kind ≠ .ALL → WideningFits v w) := by
  by_cases top : v.kind = .ALL ∨ w.kind = .ALL
  · have some_ : ¬ (v.kind = .NONE ∧ w.kind = .NONE) := by rintro ⟨one,two⟩; simp [one,two] at top
    rw [widening,if_neg some_,if_pos top]
    refine iff_of_true (keeps_top rfl) fun one two => absurd top ?_
    simp [one,two]
  push Not at top
  simp only [top.1,top.2,ne_eq,not_false_eq_true,true_implies]
  have vKind : v.kind = .NONE ∨ v.kind = .VAL := by cases kind : v.kind <;> simp_all
  have wKind : w.kind = .NONE ∨ w.kind = .VAL := by cases kind : w.kind <;> simp_all
  unfold widening WideningFits
  by_cases none : v.kind = .NONE ∧ w.kind = .NONE
  · rw [if_pos none]
    refine iff_of_true (keeps_same none.2 fun _ member => member) (.inr ?_)
    simp [none]
  simp only [none,top,or_self,if_false]
  by_cases same : v = w
  · subst same
    simp [keeps_some]
  rw [if_neg same,or_iff_right same]
  by_cases consts : v.isConst ∧ w.isConst
  · rw [if_pos consts,if_pos consts,keeps_kind vKind wKind]
    refine and_iff_left ⟨fun kind x member => ?_,fun kind x member => ?_⟩
    · rw [(recorded_const kind consts.1 x).mp member]
      exact Progression.base_mem _ _ _
    · rw [(recorded_const kind consts.2 x).mp member]
      exact ⟨1,by decide,by rw [one_nsmul]; abel⟩
  rw [if_neg consts,if_neg consts]
  by_cases down : w.start.sle v.start ∧ w.stop.sle v.stop
  · rw [if_pos down,if_pos down,keeps_kind vKind wKind]
    refine and_congr_right fun _ => ?_
    have vWalk (kind : v.kind = .VAL) := down_widened (w := w) (v.stop - w.stop) (v.start - w.start) kind
      (fun kept => (kept_steps consts kept).1) (fun _ => rfl) (.inl (sub_self _))
    have wWalk (kind : w.kind = .VAL) := down_widened (v := v) (v.stop - w.stop) (v.start - w.start) kind
      (fun kept => (kept_steps consts kept).2) (fun kept => kept.1.symm) (.inr rfl)
    rw [forall_congr' vWalk,forall_congr' wWalk,sub_self]
    exact under_kept
  rw [if_neg down,if_neg down]
  by_cases up : v.start.sle w.start ∧ v.stop.sle w.stop
  · rw [if_pos up,if_pos up,keeps_kind vKind wKind]
    refine and_congr_right fun _ => ?_
    have vWalk (kind : v.kind = .VAL) := up_widened (w := w) (w.start - v.start) (w.stop - v.stop) kind
      (fun kept => (kept_steps consts kept).1) (fun _ => rfl) (.inl (sub_self _))
    have wWalk (kind : w.kind = .VAL) := up_widened (v := v) (w.start - v.start) (w.stop - v.stop) kind
      (fun kept => (kept_steps consts kept).2) (fun kept => kept.1.symm) (.inr rfl)
    rw [forall_congr' vWalk,forall_congr' wWalk,sub_self]
    exact under_kept
  · rw [if_neg up,if_neg up,iff_true]
    exact keeps_top rfl

/-- When the widening under a loop bound of two values of kind `NONE` or `VAL` contains
    both: two constants need at least one iteration; the bases of two walks of one step
    must not be 2^31 apart when the step is -1, for the remainder traps there, and a
    second walk some steps away must lie inside the first one, which is kept. -/
def FfwideningFits (loopBound : Word) (v w : Value) : Prop :=
  v = w ∨ (v.kind = .NONE ∧ w.kind = .NONE) ∨
    if v.isConst ∧ w.isConst then w.kind = .VAL → loopBound ≠ 0 ∨ v.lower = w.lower
    else v.delta = w.delta → ¬ (w.lower - v.lower = BitVec.intMin 32 ∧ v.delta = -1) ∧
      ((w.lower - v.lower).srem v.delta = 0 → w.mtimes ≤ v.mtimes → w.kind = .VAL →
        v.kind = .VAL ∧ (order v.delta ≤ v.mtimes.toNat + 1 ∨
          (w.lower - v.lower).toInt / v.delta.toInt % (order v.delta : Int) + w.mtimes.toNat ≤ v.mtimes.toNat))

/-- When the join of two recorded values contains both. -/
def JoinKept (v w : Value) : Prop := v.kind = .VAL → w.kind = .VAL → JoinFits v w

/-- When their widening does, for a loop bound that is unknown when it is negative. -/
def WideningKept (loopBound : Word) (v w : Value) : Prop :=
  v.kind ≠ .ALL → w.kind ≠ .ALL → if loopBound.slt 0 then WideningFits v w else FfwideningFits loopBound v w

private theorem turn_iff {turn : Nat} (positive : 0 < turn) {z : Int} {m n : Nat} :
    (∀ i ≤ m, (z + (i * 1 : Nat)) % (turn : Int) ≤ n) ↔ turn ≤ n + 1 ∨ z % (turn : Int) + m ≤ n := by
  have low := Int.emod_nonneg z (b := (turn : Int)) (by omega)
  have high := Int.emod_lt_of_pos z (b := (turn : Int)) (by omega)
  constructor
  · intro numbers
    by_contra beyond
    push Not at beyond
    have first := numbers 0 (Nat.zero_le m)
    simp only [Nat.zero_mul,Nat.cast_zero,add_zero] at first
    have missed := numbers (n + 1 - (z % (turn : Int)).toNat) (by omega)
    rw [← Int.emod_add_emod,Int.emod_eq_of_lt (by omega) (by omega)] at missed
    omega
  · rintro (long | inside) i bound
    · have := Int.emod_lt_of_pos (z + (i * 1 : Nat)) (b := (turn : Int)) (by omega)
      omega
    · by_cases long : turn ≤ n + 1
      · have := Int.emod_lt_of_pos (z + (i * 1 : Nat)) (b := (turn : Int)) (by omega)
        omega
      · rw [← Int.emod_add_emod,Int.emod_eq_of_lt (by omega) (by omega)]
        omega

theorem order_pos (d : Word) : 0 < order d := by
  rw [← addOrderOf_word]
  exact addOrderOf_pos d

private theorem consts_contain_iff {v w : Value} {loopBound : Word} (left : v.kind = .NONE ∨ v.kind = .VAL)
    (right : w.kind = .NONE ∨ w.kind = .VAL) (consts : v.isConst ∧ w.isConst) :
    Keeps (if v.lower.slt w.lower then some ⟨.VAL,v.lower,w.lower - v.lower,loopBound⟩
      else some ⟨.VAL,v.lower - loopBound * (v.lower - w.lower),v.lower - w.lower,loopBound⟩) v w ↔
        (w.kind = .VAL → loopBound ≠ 0 ∨ v.lower = w.lower) := by
  have first (x : Word) (member : x ∈ v) : x = v.lower :=
    (recorded_const ((kind_of_mem member).resolve_right (by rcases left with kind | kind <;> simp [kind])) consts.1 x).mp member
  have second (u : Value) : (∀ x ∈ w, x ∈ u) ↔ (w.kind = .VAL → w.lower ∈ u) := by
    rcases right with kind | kind
    · simp only [kind,reduceCtorEq,false_implies,iff_true]
      exact fun x member => absurd member (mem_none kind)
    · simp only [kind,true_implies,recorded_const kind consts.2,forall_eq]
  split
  case isTrue =>
    rw [keeps_some,second,mem_mk,upward_consts]
    refine and_iff_right fun x member => ?_
    rw [first x member]
    exact mem_mk.mpr (Progression.base_mem _ _ _)
  case isFalse =>
    rw [keeps_some,second,mem_mk,downward_consts]
    refine and_iff_right fun x member => ?_
    rw [first x member]
    exact mem_mk.mpr ⟨loopBound.toNat,le_rfl,by rw [nsmul_word]; ring⟩

private theorem keeps_first_iff {v w : Value} (left : v.kind = .NONE ∨ v.kind = .VAL)
    (right : w.kind = .NONE ∨ w.kind = .VAL) (same : v.delta = w.delta) (rest : (w.lower - v.lower).srem v.delta = 0) :
    Keeps (some v) v w ↔ (w.kind = .VAL → v.kind = .VAL ∧ (order v.delta ≤ v.mtimes.toNat + 1 ∨
      (w.lower - v.lower).toInt / v.delta.toInt % (order v.delta : Int) + w.mtimes.toNat ≤ v.mtimes.toNat)) := by
  rw [keeps_some,and_iff_right fun _ member => member]
  rcases right with wKind | wKind
  · simp only [wKind,reduceCtorEq,false_implies,iff_true]
    exact fun x member => absurd member (mem_none wKind)
  have member : w.lower ∈ w := (mem_val wKind).mpr (Progression.base_mem _ _ _)
  rcases left with vKind | vKind
  · simp only [vKind,wKind,reduceCtorEq,false_and,true_implies,iff_false]
    exact fun inside => mem_none vKind (inside w.lower member)
  · simp only [vKind,wKind,true_implies,true_and]
    rw [shifted_iff vKind wKind same rest]
    simp only [Reaches,turn_iff (order_pos v.delta)]

theorem ffwidening_contains_iff {v w : Value} (loopBound : Word) (left : v.kind ≠ .REG) (right : w.kind ≠ .REG) :
    Keeps (v.ffwidening w loopBound) v w ↔ (v.kind ≠ .ALL → w.kind ≠ .ALL → FfwideningFits loopBound v w) := by
  by_cases top : v.kind = .ALL ∨ w.kind = .ALL
  · have some_ : ¬ (v.kind = .NONE ∧ w.kind = .NONE) := by rintro ⟨one,two⟩; simp [one,two] at top
    rw [ffwidening,if_neg some_,if_pos top]
    refine iff_of_true (keeps_top rfl) fun one two => absurd top ?_
    simp [one,two]
  push Not at top
  simp only [top.1,top.2,ne_eq,not_false_eq_true,true_implies]
  have vKind : v.kind = .NONE ∨ v.kind = .VAL := by cases kind : v.kind <;> simp_all
  have wKind : w.kind = .NONE ∨ w.kind = .VAL := by cases kind : w.kind <;> simp_all
  unfold ffwidening FfwideningFits
  by_cases none : v.kind = .NONE ∧ w.kind = .NONE
  · rw [if_pos none]
    exact iff_of_true (keeps_same none.2 fun _ member => member) (.inr (.inl none))
  simp only [none,top,or_self,if_false,false_or]
  by_cases same : v = w
  · subst same
    simp [keeps_some]
  rw [if_neg same,or_iff_right same]
  by_cases consts : v.isConst ∧ w.isConst
  · rw [if_pos consts,if_pos consts]
    exact consts_contain_iff vKind wKind consts
  rw [if_neg consts,if_neg consts]
  by_cases step : v.delta = w.delta
  · have moves : v.delta ≠ 0 := by
      intro zero
      exact consts ⟨by simp [isConst,zero],by simp [isConst,← step,zero]⟩
    rw [if_pos step,forall_prop_of_true step]
    have traps : DivTraps (w.lower - v.lower) v.delta ↔ w.lower - v.lower = BitVec.intMin 32 ∧ v.delta = -1 := by
      rw [DivTraps,or_iff_right moves]
    by_cases trap : DivTraps (w.lower - v.lower) v.delta
    · rw [if_pos trap]
      refine iff_of_false ?_ fun fits => fits.1 (traps.mp trap)
      rintro ⟨u,result,-⟩
      cases result
    rw [if_neg trap,and_iff_right (traps.not.mp trap)]
    by_cases shifted : (w.lower - v.lower).srem v.delta = 0 ∧ w.mtimes ≤ v.mtimes
    · rw [if_pos shifted,forall_prop_of_true shifted.1,forall_prop_of_true shifted.2]
      exact keeps_first_iff vKind wKind step shifted.1
    · rw [if_neg shifted]
      exact iff_of_true (keeps_top rfl) fun rest fewer => absurd ⟨rest,fewer⟩ shifted
  · rw [if_neg step]
    exact iff_of_true (keeps_top rfl) fun same => absurd same step

/-- A widening contains both its operands, with or without a loop bound, exactly when the
    walks fit. -/
theorem widenings_contain_iff {v w : Value} (loopBound : Word) (left : v.kind ≠ .REG) (right : w.kind ≠ .REG) :
    (Keeps (some (v.widening w)) v w ∧ Keeps (v.ffwidening w loopBound) v w) ↔
      (v.kind ≠ .ALL → w.kind ≠ .ALL → WideningFits v w ∧ FfwideningFits loopBound v w) := by
  rw [widening_contains_iff left right,ffwidening_contains_iff loopBound left right]
  constructor
  · intro ⟨plain,bounded⟩ vNotTop wNotTop
    exact ⟨plain vNotTop wNotTop,bounded vNotTop wNotTop⟩
  · intro both
    exact ⟨fun vNotTop wNotTop => (both vNotTop wNotTop).1,fun vNotTop wNotTop => (both vNotTop wNotTop).2⟩

theorem wideningFits_walks : WideningFits ⟨.VAL,0,4,3⟩ ⟨.VAL,16,4,3⟩ := by
  refine .inr ?_
  rw [if_neg (by decide),if_neg (by decide),if_pos (by decide)]
  refine ⟨fun _ => rfl,fun kept => ?_⟩
  rcases kept.2.1 with still | step
  · exact absurd still (by decide)
  · exact absurd step (by decide)

/-- The constants 0 and 4 under a bound of 10 iterations. -/
theorem widenings_contain_iff_consts :
    Keeps (some ((const 0).widening (const 4))) (const 0) (const 4) ∧
      Keeps ((const 0).ffwidening (const 4) 10) (const 0) (const 4) := by
  refine (widenings_contain_iff 10 (by decide) (by decide)).mpr fun _ _ => ⟨.inr ?_,.inr (.inr ?_)⟩
  · rw [if_pos (by decide)]; exact fun _ => rfl
  · rw [if_pos (by decide)]; exact fun _ => .inl (by decide)

/-- The walk of 100, 104, 108, 112 is taken for a shift of the walk of 0, 4, 8, 12 that
    adds nothing. -/
theorem widenings_lose : ¬ ∀ (v w : Value) (loopBound : Word), v.kind ≠ .REG → w.kind ≠ .REG → 0 ≤ loopBound.toInt →
    Keeps (some (v.widening w)) v w ∧ Keeps (v.ffwidening w loopBound) v w := by
  intro contain
  have kept := (contain ⟨.VAL,0,4,3⟩ ⟨.VAL,100,4,3⟩ 10 (by decide) (by decide) (by decide)).2
  rw [ffwidening_contains_iff 10 (by decide) (by decide)] at kept
  rcases kept (by decide) (by decide) with same | none | fits
  · exact absurd same (by decide)
  · exact absurd none.1 (by decide)
  rw [if_neg (by decide)] at fits
  exact absurd ((fits rfl).2 (by decide) (by decide) rfl) (by decide +kernel)

end Otawa.Clp.Value
