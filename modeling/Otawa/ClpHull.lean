import Otawa.ClpValue

/-!
When a walk contains the words of a value: `join` and the widenings rebuild a
progression whose count is kept in 32 bits, and the words of an operand have ranks
in it (`subset_up_iff`, `subset_down_iff`, `shifted_iff`). `join_keeps_iff` puts this
together for the join.
-/
namespace Otawa.Clp.Value
open Otawa.Progression (progression)

/-- An operation on two values yields a value that contains both. -/
def Keeps (result : Option Value) (v w : Value) : Prop :=
  ∃ u, result = some u ∧ (∀ x ∈ v, x ∈ u) ∧ ∀ x ∈ w, x ∈ u

theorem keeps_some {u v w : Value} :
    Keeps (some u) v w ↔ (∀ x ∈ v, x ∈ u) ∧ ∀ x ∈ w, x ∈ u := by
  constructor
  · rintro ⟨result,same,kept⟩
    rw [Option.some_inj.mp same]; exact kept
  · intro kept; exact ⟨u,rfl,kept⟩

theorem keeps_top {u v w : Value} (top : u.kind = .ALL) : Keeps (some u) v w :=
  keeps_some.mpr ⟨fun _ _ => mem_all top,fun _ _ => mem_all top⟩

def Recorded (v : Value) : Prop := v.kind = .VAL ∨ v.kind = .ALL

theorem Recorded.ne_none {v : Value} (recorded : v.Recorded) : v ≠ none := by
  rintro rfl
  rcases recorded with kind | kind <;> cases kind

theorem Recorded.ne_reg {v : Value} (recorded : v.Recorded) : v.kind ≠ .REG := by
  rcases recorded with kind | kind <;> simp [kind]

theorem join_recorded {u v w : Value} (left : Recorded v) (joined : v.join w = some u) : Recorded u := by
  unfold join at joined
  split at joined
  · cases joined; exact left
  split at joined
  · cases joined; exact .inr rfl
  split at joined
  · cases joined; exact .inl rfl
  split at joined
  · cases joined; exact left
  split at joined
  · cases joined; exact .inl rfl
  split at joined
  · cases joined
  · cases joined; exact .inl rfl

theorem widening_recorded {v w : Value} (left : Recorded v) : Recorded (v.widening w) := by
  unfold widening
  repeat' split
  all_goals first | exact left | exact .inl rfl | exact .inr rfl

theorem ffwidening_recorded {u v w : Value} {loopBound : Word} (left : Recorded v)
    (widened : v.ffwidening w loopBound = some u) : Recorded u := by
  unfold ffwidening at widened
  repeat' split at widened
  all_goals cases widened
  all_goals first | exact left | exact .inl rfl | exact .inr rfl

/-- The words `z + i p` steps of `g` away, for `i` up to `m`, are among the first `n`. -/
def Reaches (g : Word) (z : Int) (p m n : Nat) : Prop :=
  ∀ i ≤ m, (z + (i * p : Nat)) % (order g : Int) ≤ n

private theorem offset_word {g c b : Word} (divides : (g.toNat : Int) ∣ (c - b).toInt) :
    c = b + ((c - b).toInt / g.toNat) • g := by
  have split : ((c - b).toInt / (g.toNat : Int)) • g = c - b := by
    rw [zsmul_word,← BitVec.ofInt_toInt (x := c - b)]
    conv_rhs => rw [← Int.ediv_mul_cancel divides]
    rw [BitVec.ofInt_mul,BitVec.ofInt_toInt,BitVec.ofInt_natCast,BitVec.ofNat_toNat,BitVec.setWidth_eq]
  rw [split]; abel

private theorem scaled_word {g d : Word} (divides : g.toNat ∣ (abs d).toNat) :
    abs d = ((abs d).toNat / g.toNat) • g := by
  rw [show ((abs d).toNat / g.toNat) • g = BitVec.ofNat 32 ((abs d).toNat / g.toNat) * g from nsmul_eq_mul _ g]
  apply BitVec.eq_of_toNat_eq
  have bound := (abs d).isLt
  rw [BitVec.toNat_mul,BitVec.toNat_ofNat,Nat.mod_mul_mod,Nat.div_mul_cancel divides,Nat.mod_eq_of_lt bound]

theorem subset_up_iff {v : Value} {b g : Word} {n : Nat} (kind : v.kind = .VAL)
    (base : (g.toNat : Int) ∣ (v.start - b).toInt) (scale : g.toNat ∣ (abs v.delta).toNat) :
    (∀ x ∈ v, x ∈ progression b g n) ↔
      Reaches g ((v.start - b).toInt / g.toNat) ((abs v.delta).toNat / g.toNat) v.mtimes.toNat n := by
  have points (x : Word) :
      x ∈ v ↔ x ∈ progression v.start (((abs v.delta).toNat / g.toNat) • g) v.mtimes.toNat := by
    rw [mem_start kind,← scaled_word scale]
  simp only [points]
  rw [Progression.subset_iff (offset_word base),addOrderOf_word]
  rfl

theorem subset_down_iff {v : Value} {b g : Word} {n : Nat} (kind : v.kind = .VAL)
    (base : (g.toNat : Int) ∣ (b - v.stop).toInt) (scale : g.toNat ∣ (abs v.delta).toNat) :
    (∀ x ∈ v, x ∈ progression b (-g) n) ↔
      Reaches g ((b - v.stop).toInt / g.toNat) ((abs v.delta).toNat / g.toNat) v.mtimes.toNat n := by
  have flip : b - v.stop = -v.stop - -b := by abel
  have points (x : Word) :
      x ∈ v ↔ -x ∈ progression (-v.stop) (((abs v.delta).toNat / g.toNat) • g) v.mtimes.toNat := by
    rw [mem_stop kind,← scaled_word scale]
  have opposite : (∀ x ∈ v, x ∈ progression b (-g) n) ↔
      ∀ y ∈ progression (-v.stop) (((abs v.delta).toNat / g.toNat) • g) v.mtimes.toNat,
        y ∈ progression (-b) g n := by
    constructor
    · intro inside y member
      have kept := inside (-y) ((points _).mpr (by rwa [neg_neg]))
      rwa [Progression.neg_mem,neg_neg,neg_neg] at kept
    · intro inside x member
      rw [Progression.neg_mem,neg_neg]
      exact inside _ ((points x).mp member)
  rw [flip] at base ⊢
  rw [opposite,Progression.subset_iff (offset_word base),addOrderOf_word]
  rfl

theorem natAbs_neg (x : Word) : (-x).toInt.natAbs = x.toInt.natAbs := by
  have range := x.isLt
  simp only [BitVec.toInt_eq_toNat_cond,BitVec.toNat_neg]
  split <;> split <;> omega

theorem joinStep_toNat (v w : Value) :
    (joinStep v w).toNat = Nat.gcd (Nat.gcd (abs (v.start - w.start)).toNat (abs v.delta).toNat) (abs w.delta).toNat := by
  have bound : Nat.gcd (Nat.gcd (abs (v.start - w.start)).toNat (abs v.delta).toNat) (abs w.delta).toNat < 2 ^ 32 := by
    by_cases zero : (abs w.delta).toNat = 0
    · rw [zero,Nat.gcd_zero_right]
      by_cases zero' : (abs v.delta).toNat = 0
      · rw [zero',Nat.gcd_zero_right]; exact (abs _).isLt
      · exact (Nat.le_of_dvd (by omega) (Nat.gcd_dvd_right _ _)).trans_lt (abs _).isLt
    · exact (Nat.le_of_dvd (by omega) (Nat.gcd_dvd_right _ _)).trans_lt (abs _).isLt
  rw [joinStep,gcd_eq,gcd_eq,BitVec.ofInt_natCast,BitVec.toNat_ofNat]
  simp only [Int.gcd,Int.natAbs_natCast,← abs_toNat v.delta,← abs_toNat w.delta]
  exact Nat.mod_eq_of_lt bound

/-- The words of `u` are reached by the count of the join of `v` and `w`. -/
def JoinReaches (v w u : Value) : Prop :=
  Reaches (joinStep v w) ((u.start - min v.start w.start).toInt / (joinStep v w).toNat)
    ((abs u.delta).toNat / (joinStep v w).toNat) u.mtimes.toNat (joinCount v w).toNat

/-- When a join contains its operands: two constants must be at most 2^31 apart;
    otherwise the step must not be null and the count must reach both operands. -/
def JoinKeeps (v w : Value) : Prop :=
  v = w ∨ v.kind = .ALL ∨ w.kind = .ALL ∨
    if v.delta = 0 ∧ v.mtimes = 0 ∧ w.isConst then (v.lower.toInt - w.lower.toInt).natAbs ≤ 2 ^ 31
    else joinStep v w ≠ 0 ∧ JoinReaches v w v ∧ JoinReaches v w w

private theorem mem_pair {b d x : Word} : x ∈ progression b d 1 ↔ x = b ∨ x = b + d := by
  constructor
  · rintro ⟨k,bound,rfl⟩
    rcases Nat.le_one_iff_eq_zero_or_eq_one.mp bound with rfl | rfl <;> simp
  · rintro (rfl | rfl)
    · exact Progression.base_mem _ _ _
    · exact ⟨1,le_rfl,by simp⟩

private theorem toInt_sub_cases (a b : Word) :
    ((a - b).toInt = a.toInt - b.toInt ∨ (a - b).toInt = a.toInt - b.toInt + 2 ^ 32 ∨
        (a - b).toInt = a.toInt - b.toInt - 2 ^ 32) ∧
      -2 ^ 31 ≤ (a - b).toInt ∧ (a - b).toInt < 2 ^ 31 ∧ (a.toInt - b.toInt).natAbs < 2 ^ 32 := by
  have difference := BitVec.toInt_sub (x := a) (y := b)
  have low := BitVec.le_toInt a
  have high := BitVec.toInt_lt (x := a)
  have low' := BitVec.le_toInt b
  have high' := BitVec.toInt_lt (x := b)
  rw [Int.bmod_def] at difference
  split at difference <;> omega

private theorem far_iff {a b : Word} (less : a.slt b) :
    b ∈ progression a (abs (a - b)) 1 ↔ (a.toInt - b.toInt).natAbs ≤ 2 ^ 31 := by
  have difference := toInt_sub_cases a b
  have opposite := toInt_sub_cases b a
  have zero : (0 : Word).toInt = 0 := by decide
  simp only [BitVec.slt_eq_decide,decide_eq_true_eq] at less
  rw [mem_pair]
  unfold abs
  split
  · rename_i negative
    simp only [BitVec.slt_eq_decide,decide_eq_true_eq,zero] at negative
    constructor
    · intro _; omega
    · intro _; exact .inr (by abel)
  · rename_i positive
    simp only [BitVec.slt_eq_decide,decide_eq_true_eq,zero] at positive
    constructor
    · rintro (same | same)
      · rw [same] at less; omega
      · have equal : b - a = a - b := by
          conv_lhs => rw [same]
          abel
        have := congrArg BitVec.toInt equal
        omega
    · intro _; omega

private theorem abs_sub_comm (a b : Word) : abs (a - b) = abs (b - a) := by
  apply BitVec.eq_of_toNat_eq
  rw [abs_toNat,abs_toNat,← natAbs_neg,neg_sub]

private theorem pair_iff (a b : Word) :
    (a ∈ progression (min a b) (abs (a - b)) 1 ∧ b ∈ progression (min a b) (abs (a - b)) 1) ↔
      (a.toInt - b.toInt).natAbs ≤ 2 ^ 31 := by
  unfold min
  by_cases less : a.slt b
  · rw [if_pos less,← far_iff less,and_iff_right (Progression.base_mem _ _ _)]
  · rw [if_neg less,and_iff_left (Progression.base_mem _ _ _)]
    by_cases greater : b.slt a
    · rw [abs_sub_comm,far_iff greater]
      omega
    · have same : a.toInt = b.toInt := by
        simp only [BitVec.slt_eq_decide,decide_eq_true_eq] at less greater
        omega
      rw [BitVec.eq_of_toInt_eq same]
      simp [Progression.base_mem]

private theorem min_cases (a b : Word) : min a b = a ∨ min a b = b := by
  unfold min; split <;> simp

private theorem dvd_toInt {n : Nat} {x : Word} (divides : n ∣ (abs x).toNat) : (n : Int) ∣ x.toInt := by
  rw [abs_toNat] at divides
  exact Int.natCast_dvd.mpr divides

private theorem dvd_zero (n : Nat) (x : Word) : (n : Int) ∣ (x - x).toInt := by
  rw [sub_self,show (0 : Word).toInt = 0 by decide]
  exact Int.dvd_zero _

theorem joinStep_dvd (v w : Value) :
    ((joinStep v w).toNat : Int) ∣ (v.start - min v.start w.start).toInt ∧
      ((joinStep v w).toNat : Int) ∣ (w.start - min v.start w.start).toInt ∧
      (joinStep v w).toNat ∣ (abs v.delta).toNat ∧ (joinStep v w).toNat ∣ (abs w.delta).toNat := by
  have apart : (joinStep v w).toNat ∣ (abs (v.start - w.start)).toNat := by
    rw [joinStep_toNat]; exact (Nat.gcd_dvd_left _ _).trans (Nat.gcd_dvd_left _ _)
  refine ⟨?_,?_,?_,?_⟩
  · rcases min_cases v.start w.start with same | same <;> rw [same]
    · exact dvd_zero _ _
    · exact dvd_toInt apart
  · rcases min_cases v.start w.start with same | same <;> rw [same]
    · rw [abs_sub_comm] at apart; exact dvd_toInt apart
    · exact dvd_zero _ _
  · rw [joinStep_toNat]; exact (Nat.gcd_dvd_left _ _).trans (Nat.gcd_dvd_right _ _)
  · rw [joinStep_toNat]; exact Nat.gcd_dvd_right _ _

theorem join_general_iff {v w : Value} (left : v.kind = .VAL) (right : w.kind = .VAL) :
    Keeps (some ⟨.VAL,min v.start w.start,joinStep v w,joinCount v w⟩) v w ↔
      JoinReaches v w v ∧ JoinReaches v w w := by
  obtain ⟨leftBase,rightBase,leftScale,rightScale⟩ := joinStep_dvd v w
  rw [keeps_some]
  simp only [mem_mk]
  rw [subset_up_iff left leftBase leftScale,subset_up_iff right rightBase rightScale]
  rfl

theorem join_keeps_iff {v w : Value} (left : Recorded v) (right : Recorded w) :
    Keeps (v.join w) v w ↔ JoinKeeps v w := by
  unfold join JoinKeeps
  by_cases same : v = w
  · subst same
    simp [keeps_some]
  rcases left with left | left
  · rcases right with right | right
    · simp only [same,left,right,if_false,reduceCtorEq,or_self,false_or]
      by_cases consts : v.delta = 0 ∧ v.mtimes = 0 ∧ w.isConst
      · rw [if_pos consts,if_pos consts,← pair_iff,keeps_some]
        have wConst : w.delta = 0 ∨ w.mtimes.toNat = 0 := by
          have := consts.2.2
          simp only [isConst,Bool.or_eq_true,beq_iff_eq] at this
          exact this.imp id fun zero => by rw [zero]; rfl
        simp only [mem_val left,mem_val right,mem_mk,
          Progression.mem_const (.inl consts.1),Progression.mem_const wConst,forall_eq]
        rfl
      · rw [if_neg consts,if_neg consts]
        by_cases zero : joinStep v w = 0
        · simp [zero,Keeps]
        · rw [if_neg zero,join_general_iff left right]
          exact ⟨fun reached => ⟨zero,reached⟩,fun kept => kept.2⟩
    · simp only [same,left,right,if_false,if_true,reduceCtorEq,or_true,true_or,iff_true]
      exact keeps_top rfl
  · simp only [same,left,if_false,if_true,reduceCtorEq,or_true,true_or,iff_true]
    exact keeps_top rfl

theorem recorded_const {v : Value} (kind : v.kind = .VAL) (const : v.isConst) (x : Word) :
    x ∈ v ↔ x = v.lower := by
  simp only [isConst,Bool.or_eq_true,beq_iff_eq] at const
  rw [mem_val kind,Progression.mem_const (const.imp id fun zero => by rw [zero]; rfl)]

theorem dvd_moved {n : Nat} {x d : Word} (scale : n ∣ (abs d).toNat) (moved : x = 0 ∨ x = abs d) :
    (n : Int) ∣ x.toInt := by
  rcases moved with rfl | rfl
  · rw [show (0 : Word).toInt = 0 by decide]; exact Int.dvd_zero _
  · apply dvd_toInt
    rw [abs_toNat]
    rcases Nat.lt_or_ge (abs d).toNat (2 ^ 31) with small | large
    · rw [BitVec.toInt_eq_toNat_of_lt (by omega),Int.natAbs_natCast]; exact scale
    · have bound := (abs d).isLt
      have size := abs_toNat d
      have low := BitVec.le_toInt d
      have high := BitVec.toInt_lt (x := d)
      rw [BitVec.toInt_eq_toNat_cond,if_neg (by omega)]
      rw [show (((abs d).toNat : Int) - (2 ^ 32 : Nat)).natAbs = (abs d).toNat by omega]
      exact scale

private theorem offset_signed {g c b : Word} (divides : g.toInt ∣ (c - b).toInt) :
    c = b + ((c - b).toInt / g.toInt) • g := by
  have split : ((c - b).toInt / g.toInt) • g = c - b := by
    rw [zsmul_word,← BitVec.ofInt_toInt (x := c - b)]
    conv_rhs => rw [← Int.ediv_mul_cancel divides]
    rw [BitVec.ofInt_mul,BitVec.ofInt_toInt,BitVec.ofInt_toInt]
  rw [split]; abel

private theorem one_step {n : Word} (some : n ≠ 0) : 1 ≤ n.toNat := by
  rcases Nat.eq_zero_or_pos n.toNat with zero | positive
  · exact absurd (BitVec.eq_of_toNat_eq (by rw [zero]; rfl)) some
  · exact positive

theorem upward_consts {a b n : Word} :
    b ∈ progression a (b - a) n.toNat ↔ n ≠ 0 ∨ a = b := by
  constructor
  · intro member
    by_cases zero : n = 0
    · subst zero
      exact .inr ((Progression.mem_const (.inr rfl)).mp member).symm
    · exact .inl zero
  · rintro (some | rfl)
    · exact ⟨1,one_step some,by rw [one_nsmul]; abel⟩
    · exact Progression.base_mem _ _ _

theorem downward_consts {a b n : Word} :
    b ∈ progression (a - n * (a - b)) (a - b) n.toNat ↔ n ≠ 0 ∨ a = b := by
  have turned : progression (a - n * (a - b)) (a - b) n.toNat = progression a (b - a) n.toNat := by
    rw [← Progression.reversed a,nsmul_word]
    congr 1 <;> ring
  rw [turned,upward_consts]

/-- A walk of the same step, some steps away, is part of another one when that reaches it. -/
theorem shifted_iff {v w : Value} (left : v.kind = .VAL) (right : w.kind = .VAL) (same : v.delta = w.delta)
    (rest : (w.lower - v.lower).srem v.delta = 0) :
    (∀ x ∈ w, x ∈ v) ↔
      Reaches v.delta ((w.lower - v.lower).toInt / v.delta.toInt) 1 w.mtimes.toNat v.mtimes.toNat := by
  have divides : v.delta.toInt ∣ (w.lower - v.lower).toInt := by
    have rest := congrArg BitVec.toInt rest
    rw [BitVec.toInt_srem,show (0 : Word).toInt = 0 by decide] at rest
    exact Int.dvd_of_tmod_eq_zero rest
  simp only [mem_val left,mem_val right,← same]
  have ranks := Progression.subset_iff (offset_signed divides) 1 w.mtimes.toNat v.mtimes.toNat
  rw [one_nsmul,addOrderOf_word] at ranks
  exact ranks

end Otawa.Clp.Value
