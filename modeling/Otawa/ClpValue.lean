import Otawa.Progression
import Mathlib.Data.BitVec
import Mathlib.Data.Int.GCD
import Mathlib.Data.Finite.Defs

/-!
Circular-linear progressions (`clp::Value`): the triples `(b, d, n)` over 32-bit
words and the operations of the analysis on them. Words, signed words (`intn_t`)
and counts (`uintn_t`) are all `BitVec 32`; signed comparisons and divisions are
written out, and arithmetic wraps. A value of kind `VAL` denotes the progression
`{b + k d | 0 ≤ k ≤ n}` of words (`Value.Mem`).
-/
namespace Otawa.Clp
open Otawa.Progression (progression)

abbrev Word := BitVec 32

instance : Finite Word := Finite.of_injective BitVec.toFin fun _ _ => BitVec.eq_of_toFin_eq

/-- `kind_t`: nothing, a register (addresses only), a progression, or every word. -/
inductive Kind where
  | NONE | REG | VAL | ALL
  deriving DecidableEq, Repr

/-- `UMAXn`. -/
def umax : Word := BitVec.allOnes 32

/-- `class Value`. -/
structure Value where
  kind : Kind
  lower : Word
  delta : Word
  mtimes : Word
  deriving DecidableEq, Repr

/-- The absolute value of a `long`. -/
def labs (a : Int) : Int := if a < 0 then -a else a

theorem natAbs_labs (a : Int) : (labs a).natAbs = a.natAbs := by unfold labs; split <;> simp
theorem labs_eq_natAbs (a : Int) : labs a = a.natAbs := by unfold labs; split <;> omega

/-- `gcd(long, long)`: Euclid on absolute values. -/
def gcd (a b : Int) : Int :=
  if labs a = 0 then labs b
  else if labs b = 0 then labs a
  else gcd (labs b) ((labs a).tmod (labs b))
termination_by b.natAbs
decreasing_by
  rename_i nonzero
  rw [Int.natAbs_tmod,natAbs_labs,natAbs_labs]
  rw [labs_eq_natAbs] at nonzero
  exact Nat.mod_lt _ (by omega)

theorem gcd_eq (a b : Int) : gcd a b = Int.gcd a b := by
  induction a, b using gcd.induct with
  | case1 a b zero =>
    rw [gcd,if_pos zero,labs_eq_natAbs]
    have : a = 0 := by rw [labs_eq_natAbs] at zero; omega
    simp [this]
  | case2 a b left zero =>
    rw [gcd,if_neg left,if_pos zero,labs_eq_natAbs]
    have : b = 0 := by rw [labs_eq_natAbs] at zero; omega
    simp [this]
  | case3 a b left right ih =>
    rw [gcd,if_neg left,if_neg right,ih,Int.gcd,Int.gcd,Int.natAbs_tmod,natAbs_labs,natAbs_labs,
      Nat.gcd_comm b.natAbs,← Nat.gcd_rec,Nat.gcd_comm]

/-- `elm::abs` of a signed word, a `uintn_t`. -/
def abs (x : Word) : Word := if x.slt 0 then -x else x
/-- `min(intn_t, intn_t)`. -/
def min (a b : Word) : Word := if a.slt b then a else b

namespace Value

def none : Value := ⟨.NONE,0,0,0⟩
def all : Value := ⟨.ALL,0,1,umax⟩
/-- `Value(const int)` and `Value(VAL, k)`. -/
def const (k : Word) : Value := ⟨.VAL,k,0,0⟩

def isConst (v : Value) : Bool := v.delta == 0 || v.mtimes == 0
/-- `start`: the smaller end of the progression. -/
def start (v : Value) : Word := if v.delta.slt 0 then v.lower + v.delta * v.mtimes else v.lower
/-- `stop`: the greater end of the progression. -/
def stop (v : Value) : Word := if v.delta.slt 0 then v.lower else v.lower + v.delta * v.mtimes

/-- `reverse`: swap the ends and negate the step. -/
def reverse (v : Value) : Value := ⟨.VAL,v.lower + v.delta * v.mtimes,-v.delta,v.mtimes⟩

/-- The step of a sum: `uintn_t g = gcd(_delta, val._delta)`. -/
def step (v w : Value) : Word := BitVec.ofInt 32 (gcd v.delta.toInt w.delta.toInt)
/-- The count of a sum, rescaled to the step `g`. -/
def count (v w : Value) (g : Word) : Word := v.mtimes * (abs v.delta / g) + w.mtimes * (abs w.delta / g)

def add (v w : Value) : Value :=
  let needreverse := v.delta.slt 0 || w.delta.slt 0
  let r : Value :=
    if v.kind = .NONE ∧ w.kind = .NONE then ⟨.NONE,0,0,0⟩
    else if v.kind = .ALL ∨ w.kind = .ALL then ⟨.ALL,0,1,umax⟩
    else if v.delta = 0 ∧ w.delta = 0 then ⟨v.kind,v.lower + w.lower,0,0⟩
    else
      let g := step v w
      ⟨.VAL,v.start + w.start,g,count v w g⟩
  if needreverse then r.reverse else r

def sub (v w : Value) : Value :=
  let needreverse := v.delta.slt 0 || w.delta.slt 0
  let r : Value :=
    if v.kind = .NONE ∧ w.kind = .NONE then ⟨.NONE,0,0,0⟩
    else if v.kind = .ALL ∨ w.kind = .ALL then ⟨.ALL,0,1,umax⟩
    else if v.delta = 0 ∧ w.delta = 0 then ⟨v.kind,v.lower - w.lower,0,0⟩
    else
      let g := step v w
      ⟨.VAL,v.start - w.stop,g,count v w g⟩
  if needreverse then r.reverse else r

def shl (v w : Value) : Value :=
  if !w.isConst || w.lower.slt 0 then ⟨.ALL,0,1,umax⟩
  else if v.kind ≠ .NONE ∧ v.kind ≠ .ALL then
    if v.delta = 0 ∧ v.mtimes = 0 then ⟨.VAL,v.lower <<< w.lower.toNat,0,0⟩
    else ⟨.VAL,v.lower <<< w.lower.toNat,v.delta <<< w.lower.toNat,v.mtimes⟩
  else v

def shr (v w : Value) : Value :=
  if !w.isConst || w.lower.slt 0 then ⟨.ALL,0,1,umax⟩
  else if v.kind ≠ .NONE ∧ v.kind ≠ .ALL then
    if v.delta = 0 ∧ v.mtimes = 0 then ⟨.VAL,v.lower.sshiftRight w.lower.toNat,0,0⟩
    else if v.delta.srem 2 = 0 then
      ⟨.VAL,v.lower.sshiftRight w.lower.toNat,v.delta.sshiftRight w.lower.toNat,v.mtimes⟩
    else ⟨.VAL,v.lower.sshiftRight w.lower.toNat,1,(v.delta * v.mtimes) >>> w.lower.toNat⟩
  else v

def or (v w : Value) : Value :=
  if v.kind = .ALL ∨ w.kind = .NONE then v
  else if w.kind = .ALL ∨ v.kind = .NONE then w
  else if w.isConst then
    if v.isConst then { v with lower := v.lower ||| w.lower } else all
  else all

/-- The step of a join: `uintn_t g = gcd(gcd(abs(start() - val.start()), _delta), val._delta)`. -/
def joinStep (v w : Value) : Word :=
  BitVec.ofInt 32 (gcd (gcd (abs (v.start - w.start)).toNat v.delta.toInt) w.delta.toInt)
/-- The `int64_t` upper end of `join`; it never leaves 64 bits, hence an integer. -/
def upper64 (v : Value) : Int := v.start.toInt + (abs v.delta).toNat * v.mtimes.toNat
/-- The count of a join: `(umax - ls) / g` in 64 bits, kept in a `uintn_t`. -/
def joinCount (v w : Value) : Word :=
  let umax := if w.upper64 < v.upper64 then v.upper64 else w.upper64
  BitVec.ofInt 32 ((umax - (min v.start w.start).toInt).tdiv (joinStep v w).toNat)

/-- `join`. The last case divides by the step, which is 0 for two constants of the
    same base that are not recorded alike; the division then traps (`none`). -/
def join (v w : Value) : Option Value :=
  if v = w then some v
  else if v.kind = .ALL ∨ w.kind = .ALL then some ⟨.ALL,0,1,umax⟩
  else if v.kind = .NONE then some ⟨.VAL,w.lower,w.delta,w.mtimes⟩
  else if w.kind = .NONE then some v
  else if v.delta = 0 ∧ v.mtimes = 0 ∧ w.isConst then
    some ⟨.VAL,min v.lower w.lower,abs (v.lower - w.lower),1⟩
  else if joinStep v w = 0 then Option.none
  else some ⟨.VAL,min v.start w.start,joinStep v w,joinCount v w⟩

/-- The step of a widening: 1 unless the ends moved by nothing or by the common step. -/
def widenStep (v w : Value) (near far : Word) : Word :=
  if abs v.delta ≠ abs w.delta ∨ (near ≠ 0 ∧ near ≠ abs v.delta) ∨ far ≠ abs v.delta then 1 else abs v.delta

def widening (v w : Value) : Value :=
  if v.kind = .NONE ∧ w.kind = .NONE then v
  else if v.kind = .ALL ∨ w.kind = .ALL then all
  else if v = w then v
  else if v.isConst ∧ w.isConst then { v with delta := w.lower - v.lower, mtimes := umax }
  else if w.start.sle v.start ∧ w.stop.sle v.stop then
    let absd := widenStep v w (v.stop - w.stop) (v.start - w.start)
    ⟨v.kind,v.stop,-absd,umax / absd⟩
  else if v.start.sle w.start ∧ v.stop.sle w.stop then
    let absd := widenStep v w (w.start - v.start) (w.stop - v.stop)
    ⟨v.kind,v.start,absd,umax / absd⟩
  else all

/-- The signed division of a word traps: by 0, and where the quotient is out of range. -/
def DivTraps (x d : Word) : Prop := d = 0 ∨ x = BitVec.intMin 32 ∧ d = -1

instance (x d : Word) : Decidable (DivTraps x d) := inferInstanceAs (Decidable (_ ∨ _))

/-- `ffwidening`, for a known bound on the iterations of the loop; `none` when the remainder
    traps. -/
def ffwidening (v w : Value) (loopBound : Word) : Option Value :=
  if v.kind = .NONE ∧ w.kind = .NONE then some v
  else if v.kind = .ALL ∨ w.kind = .ALL then some ⟨.ALL,0,1,umax⟩
  else if v = w then some v
  else if v.isConst ∧ w.isConst then
    if v.lower.slt w.lower then some ⟨.VAL,v.lower,w.lower - v.lower,loopBound⟩
    else
      let step := v.lower - w.lower
      some ⟨.VAL,v.lower - loopBound * step,step,loopBound⟩
  else if v.delta = w.delta then
    if DivTraps (w.lower - v.lower) v.delta then Option.none
    else if (w.lower - v.lower).srem v.delta = 0 ∧ w.mtimes ≤ v.mtimes then some v
    else some ⟨.ALL,0,1,umax⟩
  else some ⟨.ALL,0,1,umax⟩

def Mem (v : Value) (x : Word) : Prop :=
  match v.kind with
  | .NONE => False
  | .REG => False
  | .VAL => x ∈ progression v.lower v.delta v.mtimes.toNat
  | .ALL => True

instance : Membership Word Value := ⟨Mem⟩

variable {x : Word} {v : Value}

theorem mem_none (kind : v.kind = .NONE) : ¬ x ∈ v := by
  show ¬ Mem v x
  simp [Mem,kind]
theorem mem_all (kind : v.kind = .ALL) : x ∈ v := by
  show Mem v x
  simp [Mem,kind]
theorem mem_val (kind : v.kind = .VAL) :
    x ∈ v ↔ x ∈ progression v.lower v.delta v.mtimes.toNat := by
  show Mem v x ↔ _
  simp [Mem,kind]
theorem mem_mk {b d n x : Word} : x ∈ (⟨.VAL,b,d,n⟩ : Value) ↔ x ∈ progression b d n.toNat := Iff.rfl
theorem kind_of_mem (member : x ∈ v) : v.kind = .VAL ∨ v.kind = .ALL := by
  change Mem v x at member
  cases kind : v.kind <;> simp [Mem,kind] at member ⊢

theorem nsmul_word (n d : Word) : n.toNat • d = d * n := by
  rw [nsmul_eq_mul,mul_comm,BitVec.natCast_eq_ofNat,BitVec.ofNat_toNat,BitVec.setWidth_eq]

theorem zsmul_word (z : Int) (d : Word) : z • d = BitVec.ofInt 32 z * d := by
  rw [zsmul_eq_mul]
  rfl

/-- After how many steps a walk by `g` comes back to its first word. -/
def order (g : Word) : Nat := 2 ^ 32 / Nat.gcd (2 ^ 32) g.toNat

theorem addOrderOf_word (g : Word) : addOrderOf g = order g := by
  have zero_iff (n : Nat) : n • g = 0 ↔ order g ∣ n := by
    have gcdPos : 0 < Nat.gcd (2 ^ 32) g.toNat := Nat.gcd_pos_of_pos_left _ (by decide)
    rw [show n • g = BitVec.ofNat 32 n * g from nsmul_eq_mul n g,← BitVec.toNat_inj,BitVec.toNat_mul,
      BitVec.toNat_ofNat,Nat.mod_mul_mod]
    show n * g.toNat % 2 ^ 32 = 0 ↔ _
    rw [← Nat.dvd_iff_mod_eq_zero,order,mul_comm]
    constructor
    · intro divides
      have coprime := Nat.coprime_div_gcd_div_gcd (m := 2 ^ 32) (n := g.toNat) gcdPos
      apply coprime.dvd_of_dvd_mul_left
      have split : g.toNat * n = Nat.gcd (2 ^ 32) g.toNat * (g.toNat / Nat.gcd (2 ^ 32) g.toNat * n) := by
        rw [← mul_assoc,Nat.mul_div_cancel' (Nat.gcd_dvd_right _ _)]
      apply (Nat.mul_dvd_mul_iff_left gcdPos).mp
      rwa [Nat.mul_div_cancel' (Nat.gcd_dvd_left _ _),← split]
    · intro divides
      calc 2 ^ 32 = Nat.gcd (2 ^ 32) g.toNat * (2 ^ 32 / Nat.gcd (2 ^ 32) g.toNat) :=
            (Nat.mul_div_cancel' (Nat.gcd_dvd_left _ _)).symm
        _ ∣ g.toNat * n := Nat.mul_dvd_mul (Nat.gcd_dvd_right _ _) divides
  apply Nat.dvd_antisymm
  · rw [addOrderOf_dvd_iff_nsmul_eq_zero,zero_iff]
  · rw [← zero_iff,addOrderOf_nsmul_eq_zero]

theorem reverse_mem (kind : v.kind = .VAL) : x ∈ v.reverse ↔ x ∈ v := by
  rw [mem_val rfl,mem_val kind,← Progression.reversed v.lower]
  simp only [reverse,nsmul_word]

/-- `start` and the absolute step walk the same words upwards. -/
theorem mem_start (kind : v.kind = .VAL) :
    x ∈ v ↔ x ∈ progression v.start (abs v.delta) v.mtimes.toNat := by
  rw [mem_val kind]
  by_cases down : v.delta.slt 0
  · rw [← Progression.reversed v.lower]
    simp only [start,abs,down,↓reduceIte,nsmul_word]
  · simp only [start,abs,down,Bool.false_eq_true,↓reduceIte]

/-- `stop` and the opposite of the absolute step walk them downwards. -/
theorem mem_stop (kind : v.kind = .VAL) :
    x ∈ v ↔ -x ∈ progression (-v.stop) (abs v.delta) v.mtimes.toNat := by
  rw [mem_val kind,Progression.neg_mem]
  by_cases down : v.delta.slt 0
  · simp only [stop,abs,down,↓reduceIte]
  · rw [← Progression.reversed (-v.lower)]
    simp only [stop,abs,down,Bool.false_eq_true,↓reduceIte,smul_neg,nsmul_word,neg_neg,neg_add]

theorem mem_umax (kind : v.kind = .VAL) (unit : v.delta = 1 ∨ v.delta = -1)
    (count : v.mtimes = umax) (x : Word) : x ∈ v := by
  have up (b y : Word) : y ∈ progression b 1 umax.toNat := by
    refine ⟨(y - b).toNat,?_,?_⟩
    · have := (y - b).isLt
      have : umax.toNat = 2 ^ 32 - 1 := by decide
      omega
    · rw [nsmul_word,one_mul]; abel
  rw [mem_val kind,count]
  rcases unit with unit | unit
  · rw [unit]; exact up v.lower x
  · rw [unit,Progression.neg_mem,neg_neg]; exact up (-v.lower) (-x)

theorem mem_top (x : Word) : x ∈ (⟨.ALL,0,1,umax⟩ : Value) := mem_all rfl
theorem mem_top_reverse (x : Word) : x ∈ (⟨.ALL,0,1,umax⟩ : Value).reverse :=
  mem_umax rfl (.inr rfl) rfl x

def common (v w : Value) : Nat := Int.gcd v.delta.toInt w.delta.toInt
/-- How many common steps lie between the first words and the words of ranks
    `i` and `j`, as an unbounded number. -/
def rescaled (v w : Value) (i j : Nat) : Nat :=
  i * (v.delta.toInt.natAbs / common v w) + j * (w.delta.toInt.natAbs / common v w)
/-- After how many steps a walk by the common step comes back to its first word. -/
def period (v w : Value) : Nat := 2 ^ 32 / Nat.gcd (2 ^ 32) (common v w)
/-- The rescaled count, kept in a `uintn_t`, is at least the rank of every pair
    of words, ranks being counted up to the period. `countFits_of_lt` is the case
    of a rescaled count that does not wrap. -/
def CountFits (v w : Value) : Prop :=
  ∀ i ≤ v.mtimes.toNat, ∀ j ≤ w.mtimes.toNat,
    rescaled v w i j % period v w ≤ rescaled v w v.mtimes.toNat w.mtimes.toNat % 2 ^ 32

theorem abs_toNat (x : Word) : (abs x).toNat = x.toInt.natAbs := by
  have range := x.isLt
  have zero : (0 : Word).toInt = 0 := by decide
  have cond := BitVec.toInt_eq_toNat_cond x
  unfold abs
  by_cases negative : x.slt 0
  · rw [if_pos negative,BitVec.toNat_neg]
    simp only [BitVec.slt_eq_decide,decide_eq_true_eq,zero] at negative
    split at cond <;> omega
  · rw [if_neg negative]
    simp only [BitVec.slt_eq_decide,decide_eq_true_eq,zero] at negative
    split at cond <;> omega

theorem common_le (v w : Value) : common v w ≤ 2 ^ 31 := by
  have low := BitVec.le_toInt v.delta
  have high := BitVec.toInt_lt (x := v.delta)
  have low' := BitVec.le_toInt w.delta
  have high' := BitVec.toInt_lt (x := w.delta)
  by_cases zero : v.delta.toInt = 0
  · simp only [common,zero,Int.gcd_zero_left]; omega
  · have := Nat.le_of_dvd (by omega) (Int.gcd_dvd_natAbs_left v.delta.toInt w.delta.toInt)
    simp only [common]; omega

theorem step_toNat (v w : Value) : (step v w).toNat = common v w := by
  have bound := common_le v w
  rw [step,gcd_eq,BitVec.ofInt_natCast,BitVec.toNat_ofNat]
  exact Nat.mod_eq_of_lt (by simp only [common] at bound; omega)

theorem scale_toNat (v w : Value) (d : Word) : (abs d / step v w).toNat = d.toInt.natAbs / common v w := by
  rw [BitVec.toNat_udiv,abs_toNat,step_toNat]

theorem count_toNat (v w : Value) :
    (count v w (step v w)).toNat = rescaled v w v.mtimes.toNat w.mtimes.toNat % 2 ^ 32 := by
  simp only [count,BitVec.toNat_add,BitVec.toNat_mul,scale_toNat,rescaled,Nat.add_mod,Nat.mod_mod]

theorem abs_eq_nsmul (v w : Value) (d : Word) (divides : common v w ∣ d.toInt.natAbs) :
    abs d = (d.toInt.natAbs / common v w) • step v w := by
  rw [← scale_toNat,nsmul_word]
  apply BitVec.eq_of_toNat_eq
  rw [BitVec.toNat_mul,step_toNat,scale_toNat,Nat.mul_div_cancel' divides,← abs_toNat]
  exact (Nat.mod_eq_of_lt (abs d).isLt).symm

theorem addOrderOf_step (v w : Value) : addOrderOf (step v w) = period v w := by
  rw [addOrderOf_word,order,step_toNat,period]

private theorem mem_kept (needreverse : Bool) (kind : v.kind = .VAL) :
    x ∈ (if needreverse then v.reverse else v) ↔ x ∈ v := by
  cases needreverse
  · simp
  · simpa using reverse_mem kind

/-- A sum that is not of two constants walks upwards from the smaller ends. -/
theorem mem_add {v w : Value} (left : v.kind = .VAL) (right : w.kind = .VAL)
    (steps : ¬ (v.delta = 0 ∧ w.delta = 0)) :
    x ∈ v.add w ↔ x ∈ progression (v.start + w.start) (step v w) (count v w (step v w)).toNat := by
  simp only [add,left,right,steps,if_false,reduceCtorEq,and_self,or_self]
  rw [mem_kept _ rfl,mem_val rfl]

/-- A difference walks upwards from the smaller end of one to the greater end of the other. -/
theorem mem_sub {v w : Value} (left : v.kind = .VAL) (right : w.kind = .VAL)
    (steps : ¬ (v.delta = 0 ∧ w.delta = 0)) :
    x ∈ v.sub w ↔ x ∈ progression (v.start + -w.stop) (step v w) (count v w (step v w)).toNat := by
  simp only [sub,left,right,steps,if_false,reduceCtorEq,and_self,or_self]
  rw [mem_kept _ rfl,mem_val rfl,sub_eq_add_neg]

theorem ranks_iff (v w : Value) (b c : Word) :
    (∀ x ∈ progression b (abs v.delta) v.mtimes.toNat, ∀ y ∈ progression c (abs w.delta) w.mtimes.toNat,
        x + y ∈ progression (b + c) (step v w) (count v w (step v w)).toNat) ↔ CountFits v w := by
  rw [abs_eq_nsmul v w v.delta (Int.gcd_dvd_natAbs_left _ _),abs_eq_nsmul v w w.delta (Int.gcd_dvd_natAbs_right _ _),
    Progression.sums_subset_iff,count_toNat,addOrderOf_step]
  rfl

theorem add_iff {v w : Value} (left : v.kind = .VAL) (right : w.kind = .VAL)
    (steps : ¬ (v.delta = 0 ∧ w.delta = 0)) :
    (∀ x ∈ v, ∀ y ∈ w, x + y ∈ v.add w) ↔ CountFits v w := by
  rw [← ranks_iff v w v.start w.start]
  simp only [mem_start left,mem_start right,mem_add left right steps]

theorem sub_iff {v w : Value} (left : v.kind = .VAL) (right : w.kind = .VAL)
    (steps : ¬ (v.delta = 0 ∧ w.delta = 0)) :
    (∀ x ∈ v, ∀ y ∈ w, x - y ∈ v.sub w) ↔ CountFits v w := by
  rw [← ranks_iff v w v.start (-w.stop)]
  simp only [mem_start left,mem_stop right,mem_sub left right steps]
  constructor
  · intro differences x member y reached
    have := differences x member (-y) (by rwa [neg_neg])
    rwa [sub_neg_eq_add] at this
  · intro sums x member y reached
    rw [sub_eq_add_neg]
    exact sums x member (-y) reached

private theorem add_const {v w : Value} (left : v.kind = .VAL) (right : w.kind = .VAL)
    (consts : v.delta = 0 ∧ w.delta = 0) {x y : Word} (xMem : x ∈ v) (yMem : y ∈ w) :
    x + y ∈ v.add w ∧ x - y ∈ v.sub w := by
  rw [mem_val left,Progression.mem_const (.inl consts.1)] at xMem
  rw [mem_val right,Progression.mem_const (.inl consts.2)] at yMem
  subst xMem yMem
  have forward : (0 : Word).slt 0 = false := by decide
  simp only [add,sub,left,right,consts,forward,reduceCtorEq,and_self,or_self,if_false,if_true,Bool.or_self,
    Bool.false_eq_true]
  exact ⟨mem_mk.mpr (Progression.base_mem _ _ _),mem_mk.mpr (Progression.base_mem _ _ _)⟩

theorem rescaled_const {v w : Value} (consts : v.delta = 0 ∧ w.delta = 0) (i j : Nat) : rescaled v w i j = 0 := by
  simp [rescaled,consts]

private theorem add_top {v w : Value} (top : v.kind = .ALL ∨ w.kind = .ALL) (x y : Word) :
    x ∈ v.add w ∧ y ∈ v.sub w := by
  have some : ¬ (v.kind = .NONE ∧ w.kind = .NONE) := by rintro ⟨left,right⟩; simp [left,right] at top
  simp only [add,sub,some,top,if_false,if_true]
  constructor <;> split <;> first | exact mem_top_reverse _ | exact mem_top _

/-- Addition and subtraction contain every sum and every difference exactly when
    the rescaled count of two progressions survives its reduction to 32 bits. -/
theorem add_sub_iff (v w : Value) :
    (∀ x ∈ v, ∀ y ∈ w, x + y ∈ v.add w ∧ x - y ∈ v.sub w) ↔
      (v.kind = .VAL → w.kind = .VAL → CountFits v w) := by
  constructor
  · intro sound left right
    by_cases consts : v.delta = 0 ∧ w.delta = 0
    · intro i _ j _
      simp [rescaled_const consts]
    · exact (add_iff left right consts).mp fun x xMem y yMem => (sound x xMem y yMem).1
  · intro fits x xMem y yMem
    rcases kind_of_mem xMem with left | left
    · rcases kind_of_mem yMem with right | right
      · by_cases consts : v.delta = 0 ∧ w.delta = 0
        · exact add_const left right consts xMem yMem
        · exact ⟨(add_iff left right consts).mpr (fits left right) x xMem y yMem,
            (sub_iff left right consts).mpr (fits left right) x xMem y yMem⟩
      · exact add_top (.inr right) _ _
    · exact add_top (.inl left) _ _

/-- Every word by steps of 1, to which one more repetition is added: the count
    wraps to 0, and the sum of 5 and 0 is lost. -/
theorem add_wraps :
    ¬ ∀ v w : Value, ∀ x ∈ v, ∀ y ∈ w, x + y ∈ v.add w ∧ x - y ∈ v.sub w := by
  intro sound
  have five : (5 : Word) ∈ (⟨.VAL,0,1,umax⟩ : Value) := mem_umax rfl (.inl rfl) rfl 5
  have zero : (0 : Word) ∈ (⟨.VAL,0,1,1⟩ : Value) := mem_mk.mpr (Progression.base_mem 0 1 _)
  have result : (⟨.VAL,0,1,umax⟩ : Value).add ⟨.VAL,0,1,1⟩ = ⟨.VAL,0,1,0⟩ := by
    have unit : step ⟨.VAL,0,1,umax⟩ ⟨.VAL,0,1,1⟩ = 1 := by
      apply BitVec.eq_of_toNat_eq
      rw [step_toNat]
      decide
    simp only [add,unit]
    decide
  have lost := (sound _ _ 5 five 0 zero).1
  rw [result,mem_mk] at lost
  exact absurd ((Progression.mem_const (.inr rfl)).mp lost) (by decide)

end Value
end Otawa.Clp
