import Otawa.ClpUnion

/-!
The conjunction and the disjunction of `clp::Value` (`_and`, `_or`). The conjunction with a
constant looks for a field of ones; the mask of the bits beyond the field keeps its last
one, so that every field is taken for an impure one and the result is `all`.
-/
namespace Otawa.Clp.Value

/-- "The Top element is represented by (0, 1, 2^32 - 1)". -/
def Canonical (v : Value) : Prop := v.kind = .ALL → v = all

/-! ### The Top element

No operation builds another value of the kind `ALL`.
-/

theorem canonical_all : Canonical all := fun _ => rfl
theorem canonical_val {b d n : Word} : Canonical ⟨.VAL,b,d,n⟩ := fun kind => Kind.noConfusion kind

theorem canonical_of_kind {v : Value} (kind : v.kind ≠ .ALL) : Canonical v := fun top => absurd top kind

section
variable {v w : Value} (left : Canonical v) (right : Canonical w)

theorem canonical_reverse : Canonical v.reverse := canonical_val

/-- The common form of a sum and of a difference. -/
private theorem canonical_linear (needreverse : Bool) (c b g n : Word) :
    Canonical (let r : Value :=
        if v.kind = .NONE ∧ w.kind = .NONE then ⟨.NONE,0,0,0⟩
        else if v.kind = .ALL ∨ w.kind = .ALL then ⟨.ALL,0,1,umax⟩
        else if v.delta = 0 ∧ w.delta = 0 then ⟨v.kind,c,0,0⟩
        else ⟨.VAL,b,g,n⟩
      if needreverse then r.reverse else r) := by
  dsimp only
  split
  case isTrue => exact canonical_val
  split
  case isTrue => exact canonical_of_kind (by decide)
  split
  case isTrue => exact canonical_all
  case isFalse top =>
    push Not at top
    split
    case isTrue => exact canonical_of_kind top.1
    case isFalse => exact canonical_val

theorem canonical_add : Canonical (v.add w) := canonical_linear _ _ _ _ _
theorem canonical_sub : Canonical (v.sub w) := canonical_linear _ _ _ _ _

include left in
theorem canonical_shl : Canonical (v.shl w) := by
  unfold shl
  repeat' split
  all_goals first | exact canonical_all | exact canonical_val | exact left

include left in
theorem canonical_shr : Canonical (v.shr w) := by
  unfold shr
  repeat' split
  all_goals first | exact canonical_all | exact canonical_val | exact left

include left in
theorem canonical_widening : Canonical (v.widening w) := by
  unfold widening
  split
  case isTrue => exact left
  split
  case isTrue => exact canonical_all
  case isFalse top =>
    push Not at top
    repeat' split
    all_goals first | exact left | exact canonical_all | exact canonical_of_kind top.1

include left in
theorem canonical_ffwidening {loopBound : Word} {u : Value} (widened : v.ffwidening w loopBound = some u) : Canonical u := by
  unfold ffwidening at widened
  repeat' split at widened
  all_goals cases widened
  all_goals first | exact left | exact canonical_all | exact canonical_val

include left right in
theorem canonical_or : Canonical (v.or w) := by
  unfold or
  split
  case isTrue => exact left
  case isFalse top =>
    push Not at top
    repeat' split
    all_goals first | exact right | exact canonical_all | exact canonical_of_kind top.1

include left in
theorem canonical_join {u : Value} (joined : v.join w = some u) : Canonical u := by
  unfold join at joined
  repeat' split at joined
  all_goals cases joined
  all_goals first | exact left | exact canonical_all | exact canonical_val

end

def andThreshold : Word := 8

/-- `k & (1 << m)`. -/
def hasBit (k : Word) (m : Nat) : Bool := k &&& ((1 : Word) <<< m) != 0

def fieldStart (k : Word) : Nat := ((List.range 32).find? (hasBit k)).getD 32

/-- The last bit of the field, from the first one `m` on. -/
def fieldEnd (k : Word) (m : Nat) : Nat := ((List.range' m (32 - m)).find? fun n => !hasBit k n).getD 32 - 1

def andEach (v : Value) (k : Word) : Option Value :=
  (List.range v.mtimes.toNat).foldlM (fun r i => r.join (const ((v.lower + v.delta * BitVec.ofNat 32 i) &&& k))) none

/-- The conjunction of a value that is no constant with a constant `k` that is not null. -/
def andField (v : Value) (k : Word) : Option Value :=
  let m := fieldStart k
  let n := fieldEnd k m
  let bit := (1 : Word) <<< m
  if k &&& ~~~((1 : Word) <<< n - 1) ≠ 0 then some all
  else if v.lower.srem bit = 0 ∧ bit.sle v.delta ∧ v.delta.srem bit = 0 then some v
  else if v.lower.srem bit = 0 ∧ ¬ bit.sle v.delta ∧ bit.srem v.delta = 0 then
    some ⟨.VAL,v.lower,bit,(v.mtimes + 1) / (bit.sdiv v.delta) - 1⟩
  else if v.mtimes + 1 < andThreshold then andEach v k
  else some ⟨.VAL,0,bit,(1 : Word) <<< (n + 1 - m - 1)⟩

/-- `_and`; `none` when a join traps. -/
def and (v w : Value) : Option Value :=
  if v = all then some v
  else if w = all then some all
  else if v = none then some v
  else if w = none then some none
  else if v.isConst ∧ w.isConst then some (const (w.lower &&& v.lower))
  else if v.isConst ∨ w.isConst then
    let k := if v.isConst then v.lower else w.lower
    if k = 0 then some (const 0) else andField (if v.isConst then w else v) k
  else some all

theorem hasBit_iff {k : Word} {m : Nat} (bound : m < 32) : hasBit k m = true ↔ k.getLsbD m = true := by
  have bit : (1 : Word) <<< m = BitVec.twoPow 32 m := rfl
  rw [hasBit,bne_iff_ne,bit,BitVec.and_twoPow]
  cases set : k.getLsbD m with
  | true =>
    simp only [if_true,iff_true]
    intro zero
    have size := congrArg BitVec.toNat zero
    rw [BitVec.toNat_twoPow_of_lt bound] at size
    exact (Nat.two_pow_pos m).ne' size
  | false => simp

theorem fieldStart_spec {k : Word} (some_ : k ≠ 0) : fieldStart k < 32 ∧ hasBit k (fieldStart k) = true := by
  cases found : (List.range 32).find? (hasBit k) with
  | some m =>
    obtain ⟨bit,bound,-⟩ := List.find?_range_eq_some.mp found
    rw [fieldStart,found]
    exact ⟨List.mem_range.mp bound,bit⟩
  | none =>
    refine absurd (BitVec.eq_of_getLsbD_eq fun i bound => ?_) some_
    have clear := List.find?_range_eq_none.mp found i bound
    simp only [Bool.not_eq_eq_eq_not,Bool.not_true] at clear
    have := (hasBit_iff (k := k) bound).not.mp (by simp [clear])
    simpa using this

theorem fieldEnd_spec {k : Word} {m : Nat} (bound : m < 32) (bit : hasBit k m = true) :
    fieldEnd k m < 32 ∧ hasBit k (fieldEnd k m) = true := by
  cases found : (List.range' m (32 - m)).find? fun n => !hasBit k n with
  | some n =>
    obtain ⟨clear,inside,before⟩ := List.find?_range'_eq_some.mp found
    have first : m ≠ n := by
      rintro rfl
      simp [bit] at clear
    have range := List.mem_range'_1.mp inside
    have last := before (n - 1) (by omega) (by omega)
    rw [fieldEnd,found]
    exact ⟨by simp only [Option.getD_some]; omega,by simpa using last⟩
  | none =>
    have last := List.find?_range'_eq_none.mp found 31 (by omega) (by omega)
    rw [fieldEnd,found]
    exact ⟨by decide,by simpa using last⟩

theorem andField_all {v : Value} {k : Word} (some_ : k ≠ 0) : andField v k = some all := by
  obtain ⟨bound,first⟩ := fieldStart_spec some_
  obtain ⟨small,last⟩ := fieldEnd_spec bound first
  generalize place : fieldEnd k (fieldStart k) = n at small last
  refine if_pos fun masked => ?_
  rw [place] at masked
  have set := (hasBit_iff small).mp last
  have cleared := congrArg (fun x : Word => x.getLsbD n) masked
  have beyond : ((1 : Word) <<< n - 1).getLsbD n = false := by
    have size : ((1 : Word) <<< n - 1).toNat = 2 ^ n - 1 := by
      have power := BitVec.toNat_twoPow_of_lt small
      have positive := Nat.two_pow_pos n
      have below : 2 ^ n ≤ 2 ^ 31 := Nat.pow_le_pow_right (by decide) (by omega)
      change ((1 : Word) <<< n).toNat = 2 ^ n at power
      rw [BitVec.toNat_sub,power]
      have one : (1 : Word).toNat = 1 := rfl
      omega
    rw [BitVec.getLsbD,size]
    exact Nat.testBit_lt_two_pow (by have := Nat.two_pow_pos n; omega)
  rw [BitVec.getLsbD_and,BitVec.getLsbD_not,set,beyond] at cleared
  simp [small] at cleared

theorem canonical_and {v w u : Value} (left : Canonical v) (result : v.and w = some u) : Canonical u := by
  unfold and at result
  dsimp only at result
  repeat' split at result
  all_goals first | rw [andField_all ‹_›] at result | skip
  all_goals cases result
  all_goals first | exact left | exact canonical_all | exact canonical_val | exact canonical_of_kind (by decide)

/-- The values that the operations build from those of the other kinds and from Top. -/
inductive Computed : Value → Prop
  | all : Computed all
  | mk (kind : Kind) (b d n : Word) (other : kind ≠ .ALL) : Computed ⟨kind,b,d,n⟩
  | reverse {v : Value} : Computed v → Computed v.reverse
  | add {v w : Value} : Computed v → Computed w → Computed (v.add w)
  | sub {v w : Value} : Computed v → Computed w → Computed (v.sub w)
  | shl {v w : Value} : Computed v → Computed w → Computed (v.shl w)
  | shr {v w : Value} : Computed v → Computed w → Computed (v.shr w)
  | and {v w u : Value} : Computed v → Computed w → v.and w = some u → Computed u
  | or {v w : Value} : Computed v → Computed w → Computed (v.or w)
  | join {v w u : Value} : Computed v → Computed w → v.join w = some u → Computed u
  | widening {v w : Value} : Computed v → Computed w → Computed (v.widening w)
  | ffwidening {v w u : Value} (loopBound : Word) : Computed v → Computed w → v.ffwidening w loopBound = some u → Computed u

/-- Whatever is computed, Top is the only value of its kind. -/
theorem computed_canonical {v : Value} (computed : Computed v) : Canonical v := by
  induction computed with
  | all => exact canonical_all
  | mk kind b d n other => exact canonical_of_kind other
  | reverse => exact canonical_reverse
  | add => exact canonical_add
  | sub => exact canonical_sub
  | shl _ _ left => exact canonical_shl left
  | shr _ _ left => exact canonical_shr left
  | and _ _ result left => exact canonical_and left result
  | or _ _ left right => exact canonical_or left right
  | join _ _ joined left => exact canonical_join left joined
  | widening _ _ left => exact canonical_widening left
  | ffwidening loopBound _ _ widened left => exact canonical_ffwidening left widened

/-- The walk of 4, 8 widened by 0, 16, that lie around it, and one more. -/
theorem computed_canonical_widened : ((⟨.VAL,4,4,1⟩ : Value).widening ⟨.VAL,0,16,1⟩).add (const 1) = all :=
  computed_canonical (.add (.widening (.mk .VAL 4 4 1 (by decide)) (.mk .VAL 0 16 1 (by decide)))
    (.mk .VAL 1 0 0 (by decide))) (by decide)

/-- A value of kind `ALL` that `_and` takes for a constant: it is not recorded as Top. -/
def Blind (v : Value) : Prop := v.kind = .ALL ∧ v ≠ all ∧ v.isConst

/-- When the other operand makes up for it: Top itself, a value without words, the
    constant 0, or no constant while the word recorded is not 0. -/
def AndFits (v w : Value) : Prop :=
  v.Blind → w ≠ all → w.kind = .VAL ∨ w.kind = .ALL → if w.isConst then w.kind = .VAL ∧ w.lower = 0 else v.lower ≠ 0

theorem mem_const_self (k : Word) : k ∈ Value.const k := mem_mk.mpr (Progression.base_mem _ _ _)

theorem andField_contains {v : Value} {k : Word} (some_ : k ≠ 0) (z : Word) : ∃ u, andField v k = some u ∧ z ∈ u :=
  ⟨all,andField_all some_,mem_all rfl⟩

private theorem ne_none_of_kind {v : Value} (kind : v.kind = .VAL ∨ v.kind = .ALL) : v ≠ none := by
  rintro rfl
  rcases kind with kind | kind <;> cases kind

private theorem top_of_const {v : Value} {x : Word} (const : v.isConst) (top : v ≠ all) (member : x ∈ v) :
    v.kind = .VAL ∧ x = v.lower ∨ v.Blind := by
  rcases kind_of_mem member with kind | kind
  · exact .inl ⟨kind,(recorded_const kind const x).mp member⟩
  · exact .inr ⟨kind,top,const⟩

section
variable {v w : Value} (vTop : v ≠ all) (wTop : w ≠ all) (vSome : v ≠ none) (wSome : w ≠ none)
include vTop wTop vSome wSome

theorem and_eq : v.and w =
    if v.isConst ∧ w.isConst then some (const (w.lower &&& v.lower))
    else if v.isConst then if v.lower = 0 then some (const 0) else andField w v.lower
    else if w.isConst then if w.lower = 0 then some (const 0) else andField v w.lower
    else some all := by
  simp only [Value.and,vTop,wTop,vSome,wSome,if_false]
  by_cases first : v.isConst
  · simp only [first,true_or,true_and,if_true]
  · simp only [first,false_or,false_and,if_false,Bool.false_eq_true]

theorem and_comm : v.and w = w.and v := by
  rw [and_eq vTop wTop vSome wSome,and_eq wTop vTop wSome vSome,BitVec.and_comm]
  by_cases first : v.isConst
  · by_cases second : w.isConst
    · simp [first,second]
    · simp [first,second]
  · by_cases second : w.isConst
    · simp [first,second]
    · simp [first,second]

end

/-- A value taken for a constant, with every word of the other one. -/
private theorem fits_of_contains {v w : Value} (blind : v.Blind) (wTop : w ≠ all) (kind : w.kind = .VAL ∨ w.kind = .ALL)
    (contains : ∀ x : Word, ∀ y ∈ w, ∃ u, v.and w = some u ∧ x &&& y ∈ u) :
    if w.isConst then w.kind = .VAL ∧ w.lower = 0 else v.lower ≠ 0 := by
  obtain ⟨vKind,vTop,vConst⟩ := blind
  rw [and_eq vTop wTop (ne_none_of_kind (.inr vKind)) (ne_none_of_kind kind)] at contains
  by_cases second : w.isConst
  · simp only [vConst,second,and_self,if_true,Option.some.injEq,exists_eq_left'] at contains ⊢
    have same (x y : Word) (member : y ∈ w) : x &&& y = w.lower &&& v.lower :=
      (Progression.mem_const (.inl rfl)).mp (contains x y member)
    rcases kind with kind | kind
    · have member : w.lower ∈ w := (mem_val kind).mpr (Progression.base_mem _ _ _)
      have null : w.lower &&& v.lower = 0 := by simpa using (same 0 _ member).symm
      have full := same umax _ member
      rw [null,umax,BitVec.allOnes_and] at full
      exact ⟨kind,full⟩
    · have null := same 0 0 (mem_all kind)
      have full := same umax umax (mem_all kind)
      rw [← null] at full
      exact absurd full (by decide)
  · simp only [vConst,second,and_false,if_false,if_true,Bool.false_eq_true] at contains ⊢
    intro zero
    simp only [zero,if_true,Option.some.injEq,exists_eq_left'] at contains
    have null (y : Word) (member : y ∈ w) : y = 0 := by
      have here := (Progression.mem_const (.inl rfl)).mp (contains umax y member)
      rwa [umax,BitVec.allOnes_and] at here
    rcases kind with kind | kind
    · simp only [isConst,Bool.or_eq_true,beq_iff_eq,not_or] at second
      have first := null w.lower ((mem_val kind).mpr (Progression.base_mem _ _ _))
      have later := null (w.lower + w.delta) ((mem_val kind).mpr ⟨1,?_,by rw [one_nsmul]⟩)
      · rw [first,zero_add] at later
        exact second.1 later
      · rcases Nat.eq_zero_or_pos w.mtimes.toNat with zero | positive
        · exact absurd (BitVec.eq_of_toNat_eq (by rw [zero]; rfl)) second.2
        · exact positive
    · exact absurd (null 1 (mem_all kind)) (by decide)

theorem and_contains {v w : Value} {x y : Word} (left : AndFits v w) (right : AndFits w v) (xMem : x ∈ v) (yMem : y ∈ w) :
    ∃ u, v.and w = some u ∧ x &&& y ∈ u := by
  have vKind := kind_of_mem xMem
  have wKind := kind_of_mem yMem
  by_cases vTop : v = all
  · exact ⟨v,by rw [Value.and,if_pos vTop],mem_all (by rw [vTop]; rfl)⟩
  by_cases wTop : w = all
  · exact ⟨all,by rw [Value.and,if_neg vTop,if_pos wTop],mem_all rfl⟩
  rw [and_eq vTop wTop (ne_none_of_kind vKind) (ne_none_of_kind wKind)]
  by_cases vConst : v.isConst
  · have xWord := top_of_const vConst vTop xMem
    by_cases wConst : w.isConst
    · rw [if_pos ⟨vConst,wConst⟩]
      have yWord := top_of_const wConst wTop yMem
      refine ⟨_,rfl,?_⟩
      suffices same : x &&& y = w.lower &&& v.lower by rw [same]; exact mem_const_self _
      rcases xWord with ⟨-,rfl⟩ | blind
      · rcases yWord with ⟨-,rfl⟩ | blind
        · exact BitVec.and_comm _ _
        · have fits := right blind vTop vKind
          rw [if_pos vConst] at fits
          simp [fits.2]
      · have fits := left blind wTop wKind
        rw [if_pos wConst] at fits
        obtain ⟨-,rfl⟩ := yWord.resolve_right fun other => by simp [other.1] at fits
        simp [fits.2]
    · rw [if_neg fun both => wConst both.2,if_pos vConst]
      by_cases zero : v.lower = 0
      · rw [if_pos zero]
        rcases xWord with ⟨-,rfl⟩ | blind
        · rw [zero,show (0 : Word) &&& y = 0 from BitVec.zero_and]
          exact ⟨_,rfl,mem_const_self 0⟩
        · have fits := left blind wTop wKind
          rw [if_neg wConst] at fits
          exact absurd zero fits
      · rw [if_neg zero]
        exact andField_contains zero _
  · rw [if_neg fun both => vConst both.1,if_neg vConst]
    by_cases wConst : w.isConst
    · rw [if_pos wConst]
      by_cases zero : w.lower = 0
      · rw [if_pos zero]
        rcases top_of_const wConst wTop yMem with ⟨-,rfl⟩ | blind
        · rw [zero,show x &&& (0 : Word) = 0 from BitVec.and_zero]
          exact ⟨_,rfl,mem_const_self 0⟩
        · have fits := right blind vTop vKind
          rw [if_neg vConst] at fits
          exact absurd zero fits
      · rw [if_neg zero]
        exact andField_contains zero _
    · rw [if_neg wConst]
      exact ⟨_,rfl,mem_all rfl⟩

theorem or_contains {v w : Value} {x y : Word} (xMem : x ∈ v) (yMem : y ∈ w) : x ||| y ∈ v.or w := by
  have vKind := kind_of_mem xMem
  have wKind := kind_of_mem yMem
  unfold or
  split
  case isTrue top =>
    rcases top with top | empty
    · exact mem_all top
    · simp [empty] at wKind
  case isFalse notTop =>
  split
  case isTrue top =>
    rcases top with top | empty
    · exact mem_all top
    · simp [empty] at vKind
  case isFalse notTop' =>
  push Not at notTop notTop'
  have vVal : v.kind = .VAL := vKind.resolve_right notTop.1
  have wVal : w.kind = .VAL := wKind.resolve_right notTop'.1
  split
  case isFalse => exact mem_all rfl
  case isTrue wConst =>
  split
  case isFalse => exact mem_all rfl
  case isTrue vConst =>
    rw [(recorded_const vVal vConst x).mp xMem,(recorded_const wVal wConst y).mp yMem]
    exact (mem_val (v := {v with lower := v.lower ||| w.lower}) vVal).mpr (Progression.base_mem _ _ _)

/-- The conjunction and the disjunction of two values contain those of their words,
    exactly when no operand of kind `ALL` is taken for a constant. -/
theorem and_or_contain_iff (v w : Value) :
    (∀ x ∈ v, ∀ y ∈ w, (∃ u, v.and w = some u ∧ x &&& y ∈ u) ∧ x ||| y ∈ v.or w) ↔ AndFits v w ∧ AndFits w v := by
  constructor
  · intro contains
    constructor
    · intro blind wTop kind
      exact fits_of_contains blind wTop kind fun x y member => (contains x (mem_all blind.1) y member).1
    · intro blind vTop kind
      refine fits_of_contains blind vTop kind fun y x member => ?_
      rw [and_comm blind.2.1 vTop (ne_none_of_kind (.inr blind.1)) (ne_none_of_kind kind),BitVec.and_comm]
      exact (contains x member y (mem_all blind.1)).1
  · rintro ⟨left,right⟩ x xMem y yMem
    exact ⟨and_contains left right xMem yMem,or_contains xMem yMem⟩

/-- The value (ALL, 0, 0, 0) is taken for the constant 0: the conjunction of 5 and 7 is lost. -/
theorem and_loses : ¬ ∀ v w : Value, ∀ x ∈ v, ∀ y ∈ w,
    (∃ u, v.and w = some u ∧ x &&& y ∈ u) ∧ x ||| y ∈ v.or w := by
  intro contains
  have fits := ((and_or_contain_iff ⟨.ALL,0,0,0⟩ (const 7)).mp (contains _ _)).1
  have small := fits ⟨rfl,by decide,rfl⟩ (by decide) (.inl rfl)
  rw [if_pos (by decide)] at small
  exact absurd small.2 (by decide)

end Otawa.Clp.Value
