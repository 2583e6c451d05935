import Otawa.CachePers
import Mathlib.Data.BitVec

/-!
The ages of the abstract cache states, as the arrays of `int` that the analyses
update in place, and the range they are meant to stay in: from 0 to A-1, or to A in
an item of the persistence analysis, and -1. A run is any tree of operations from
the empty and the bottom state; `ages_inRange_iff` says of the three analyses in
which runs all the ages are in the range.
-/
namespace Otawa.Cache

variable {size A : Nat}

/-- `int *age`. -/
abbrev Ages (size : Nat) := Fin size → Int

/-- A sum in a 32-bit `int`. -/
def int32 (x : Int) : Int := x.bmod (2 ^ 32)

theorem int32_of_small {x : Int} (low : -2 ^ 31 ≤ x) (high : x < 2 ^ 31) : int32 x = x := by
  unfold int32
  exact Int.bmod_eq_of_le (by omega) (by omega)

theorem int32_of_large {x : Int} (low : 2 ^ 31 ≤ x) (high : x < 2 ^ 32) : int32 x = x - 2 ^ 32 := by
  unfold int32
  rw [Int.bmod_def,Int.emod_eq_of_lt (by omega) (by omega),if_neg (by omega)]
  omega

namespace MUSTProblem

/-- `inject`: the test reads no age that the loop has changed. -/
def inject (A : Nat) (age : Ages size) (id : Fin size) : Ages size :=
  let aged (i : Fin size) : Int :=
    if age id ≠ -1 then if age i < age id ∧ age i ≠ -1 then age i + 1 else age i else older A (age i)
  Function.update aged id 0

def lub (age dom : Ages size) : Ages size :=
  fun i => if (age i < dom i ∧ age i ≠ -1) ∨ dom i = -1 then dom i else age i

def ageAll (A : Nat) (age : Ages size) : Ages size := fun i => older A (age i)

/-- `addDamage`, the same in the MAY analysis. -/
def addDamage (A : Nat) (age : Ages size) (id : Fin size) (damage : Int) : Ages size :=
  if age id = -1 then age
  else
    let aged := int32 (age id + damage)
    Function.update age id (if aged ≥ A then -1 else aged)

end MUSTProblem

namespace MAYProblem

def turn (id : Fin size) (age : Ages size) (i : Fin size) : Ages size :=
  if age i ≤ age id ∧ age i ≠ -1 then Function.update age i (age i + 1) else age

/-- The first turns of the loop, that read the age of `id` from the same array. -/
def turns (id : Fin size) (age : Ages size) : Nat → Ages size
  | 0 => age
  | n + 1 => if bound : n < size then turn id (turns id age n) ⟨n,bound⟩ else turns id age n

def inject (A : Nat) (age : Ages size) (id : Fin size) : Ages size :=
  Function.update (if age id ≠ -1 then turns id age size else fun i => older A (age i)) id 0

/-- `inject` of the instruction cache: a present block gets the age 0 twice. -/
def injectCat2 (A : Nat) (age : Ages size) (id : Fin size) : Ages size :=
  Function.update (if age id ≠ -1 then Function.update (turns id age size) id 0 else fun i => older A (age i)) id 0

theorem injectCat2_eq (A : Nat) (age : Ages size) (id : Fin size) : injectCat2 A age id = inject A age id := by
  unfold injectCat2 inject
  split
  · exact Function.update_idem _ _ _
  · rfl

def lub (age dom : Ages size) : Ages size :=
  fun i => if (age i > dom i ∧ dom i ≠ -1) ∨ age i = -1 then dom i else age i

def ageAll (A : Nat) (age : Ages size) : Ages size := fun i => older A (age i)

/-- The greatest age that gets older: the loop has already aged the accessed block
    when it reaches the blocks after it. -/
def reach (age : Ages size) (id i : Fin size) : Int := if id < i then age id + 1 else age id

theorem turns_eq {id : Fin size} {age : Ages size} (present : age id ≠ -1) (n : Nat) (i : Fin size) :
    turns id age n i =
      if i.val < n ∧ age i ≤ reach age id i ∧ age i ≠ -1 then age i + 1 else age i := by
  induction n generalizing i with
  | zero => simp [turns]
  | succ n ih =>
    rw [turns]
    by_cases bound : n < size
    · rw [dif_pos bound]
      have current : turns id age n ⟨n,bound⟩ = age ⟨n,bound⟩ := by rw [ih,if_neg (by simp)]
      have accessed : turns id age n id = reach age id ⟨n,bound⟩ := by
        have itself : reach age id id = age id := if_neg (Nat.lt_irrefl id.val)
        rw [ih,itself]
        by_cases passed : id.val < n
        · rw [if_pos ⟨passed,Int.le_refl _,present⟩]
          exact (if_pos passed).symm
        · rw [if_neg fun both => passed both.1]
          exact (if_neg passed).symm
      rw [turn,current,accessed]
      by_cases here : i = ⟨n,bound⟩
      · subst here
        by_cases aged : age ⟨n,bound⟩ ≤ reach age id ⟨n,bound⟩ ∧ age ⟨n,bound⟩ ≠ -1
        · rw [if_pos aged,Function.update_self,if_pos ⟨Nat.lt_succ_self n,aged⟩]
        · rw [if_neg aged,current,if_neg fun all => aged all.2]
      · have others : i.val < n + 1 ↔ i.val < n := by
          have apart : i.val ≠ n := fun same => here (Fin.ext same)
          omega
        have kept : (if age ⟨n,bound⟩ ≤ reach age id ⟨n,bound⟩ ∧ age ⟨n,bound⟩ ≠ -1 then
            Function.update (turns id age n) ⟨n,bound⟩ (age ⟨n,bound⟩ + 1) else turns id age n) i = turns id age n i := by
          split
          · rw [Function.update_of_ne here]
          · rfl
        rw [kept,ih]
        simp only [others]
    · rw [dif_neg bound,ih]
      have inside := i.isLt
      have before : i.val < n := by omega
      have after : i.val < n + 1 := by omega
      simp only [before,after]

theorem inject_self (A : Nat) (age : Ages size) (id : Fin size) : inject A age id id = 0 := by
  rw [inject,Function.update_self]

theorem inject_present (A : Nat) {age : Ages size} {id i : Fin size} (present : age id ≠ -1) (other : i ≠ id) :
    inject A age id i = if age i ≤ reach age id i ∧ age i ≠ -1 then age i + 1 else age i := by
  rw [inject,Function.update_of_ne other,if_pos present,turns_eq present]
  simp only [i.isLt,true_and]

theorem inject_absent (A : Nat) {age : Ages size} {id i : Fin size} (absent : age id = -1) (other : i ≠ id) :
    inject A age id i = older A (age i) := by
  rw [inject,Function.update_of_ne other,if_neg (not_not.mpr absent)]

end MAYProblem

namespace PERSProblem

def inject (A : Nat) (age must : Ages size) (id : Fin size) : Ages size :=
  let aged (i : Fin size) : Int :=
    if must id ≠ -1 then if age i < age id ∧ age i ≠ -1 ∧ age i ≠ A then age i + 1 else age i
    else if age i ≠ -1 ∧ age i ≠ A then age i + 1 else age i
  Function.update aged id 0

def lub (age dom : Ages size) : Ages size :=
  fun i => if age i = -1 ∨ (age i < dom i ∧ dom i ≠ -1) then dom i else age i

def ageAll (A : Nat) (age : Ages size) : Ages size := fun i => if age i ≥ 0 ∧ age i < A then age i + 1 else age i

def addDamage (A : Nat) (age : Ages size) (id : Fin size) (damage : Int) : Ages size :=
  if age id = -1 then age
  else
    let aged := int32 (age id + damage)
    Function.update age id (if aged > A then (A : Int) else aged)

end PERSProblem

/-! ### Runs -/

/-- The operations that change one state. The item of the persistence analysis also
    reads the MUST state of the same point. -/
inductive Op (size : Nat) (Must : Type)
  | inject (must : Must) (id : Fin size)
  | ageAll
  | addDamage (id : Fin size) (damage : Nat) (int : damage < 2 ^ 31)

/-- The operations of one analysis, with its bottom state and its greatest age. -/
structure AgeDomain (size : Nat) (Must : Type) where
  bottom : Ages size
  step : Ages size → Op size Must → Ages size
  lub : Ages size → Ages size → Ages size
  greatest : Int

/-- `MUSTProblem`, whose bottom gives every block the age 0. -/
def must (size A : Nat) : AgeDomain size Unit where
  bottom := fun _ => 0
  step age
    | .inject _ id => MUSTProblem.inject A age id
    | .ageAll => MUSTProblem.ageAll A age
    | .addDamage id damage _ => MUSTProblem.addDamage A age id damage
  lub := MUSTProblem.lub
  greatest := A - 1

/-- `MAYProblem`. -/
def may (size A : Nat) : AgeDomain size Unit where
  bottom := fun _ => -1
  step age
    | .inject _ id => MAYProblem.inject A age id
    | .ageAll => MAYProblem.ageAll A age
    | .addDamage id damage _ => MUSTProblem.addDamage A age id damage
  lub := MAYProblem.lub
  greatest := A - 1

/-- `PERSProblem::Item`. -/
def pers (size A : Nat) : AgeDomain size (Ages size) where
  bottom := fun _ => -1
  step age
    | .inject must id => PERSProblem.inject A age must id
    | .ageAll => PERSProblem.ageAll A age
    | .addDamage id damage _ => PERSProblem.addDamage A age id damage
  lub := PERSProblem.lub
  greatest := A

/-- A state with the operations that made it, from the empty and the bottom state. -/
inductive History (size : Nat) (Must : Type)
  | empty
  | bottom
  | step (before : History size Must) (op : Op size Must)
  | lub (left right : History size Must)

def Known (greatest age : Int) : Prop := age = -1 ∨ 0 ≤ age ∧ age ≤ greatest

namespace AgeDomain
variable {Must : Type} (d : AgeDomain size Must)

def ages : History size Must → Ages size
  | .empty => fun _ => -1
  | .bottom => d.bottom
  | .step before op => d.step (ages before) op
  | .lub left right => d.lub (ages left) (ages right)

def InRange (age : Ages size) : Prop := ∀ i, Known d.greatest (age i)

def Always : History size Must → Prop
  | .empty => d.InRange (d.ages .empty)
  | .bottom => d.InRange (d.ages .bottom)
  | .step before op => Always before ∧ d.InRange (d.ages (.step before op))
  | .lub left right => Always left ∧ Always right ∧ d.InRange (d.ages (.lub left right))

/-- All the steps of a history meet a condition on the state before them. -/
def Meets (fits : Ages size → Op size Must → Prop) : History size Must → Prop
  | .empty => True
  | .bottom => True
  | .step before op => Meets fits before ∧ fits (d.ages before) op
  | .lub left right => Meets fits left ∧ Meets fits right

variable {d}

private theorem inRange_of_always {run : History size Must} (always : d.Always run) : d.InRange (d.ages run) := by
  cases run with
  | empty => exact always
  | bottom => exact always
  | step before op => exact always.2
  | lub left right => exact always.2.2

theorem always_iff_meets {fits : Ages size → Op size Must → Prop} (empty : d.InRange fun _ => -1)
    (bottom : d.InRange d.bottom)
    (lub : ∀ age dom, d.InRange age → d.InRange dom → d.InRange (d.lub age dom))
    (exact : ∀ age op, d.InRange age → (d.InRange (d.step age op) ↔ fits age op)) (run : History size Must) :
    d.Always run ↔ d.Meets fits run := by
  induction run with
  | empty => exact iff_of_true empty trivial
  | bottom => exact iff_of_true bottom trivial
  | step before op ih =>
    constructor
    · rintro ⟨earlier,here⟩
      exact ⟨ih.mp earlier,(exact _ op (inRange_of_always earlier)).mp here⟩
    · rintro ⟨earlier,here⟩
      have always := ih.mpr earlier
      exact ⟨always,(exact _ op (inRange_of_always always)).mpr here⟩
  | lub left right ihLeft ihRight =>
    constructor
    · rintro ⟨earlier,other,-⟩
      exact ⟨ihLeft.mp earlier,ihRight.mp other⟩
    · rintro ⟨earlier,other⟩
      have left := ihLeft.mpr earlier
      have right := ihRight.mpr other
      exact ⟨left,right,lub _ _ (inRange_of_always left) (inRange_of_always right)⟩

end AgeDomain

/-- The sum that `addDamage` makes is an `int`. -/
def NoOverflow {Must : Type} (age : Ages size) : Op size Must → Prop
  | .addDamage id damage _ => age id = -1 ∨ age id + damage < 2 ^ 31
  | _ => True

/-- The loop of `inject` for a present block also ages no block of the greatest age. -/
def NoEscape (A : Nat) (age : Ages size) : Op size Unit → Prop
  | .inject _ id => age id = -1 ∨ ∀ i ≠ id, age i = A - 1 → MAYProblem.reach age id i < A - 1
  | op => NoOverflow age op

/-! ### What one step does to the range -/

private theorem known_update {greatest age : Int} {aged : Ages size} {id : Fin size} :
    (∀ i, Known greatest (Function.update aged id age i)) ↔
      Known greatest age ∧ ∀ i ≠ id, Known greatest (aged i) := by
  constructor
  · intro known
    refine ⟨by simpa using known id,fun i other => ?_⟩
    simpa [Function.update_of_ne other] using known i
  · rintro ⟨here,others⟩ i
    by_cases same : i = id
    · subst same; simpa using here
    · simpa [Function.update_of_ne same] using others i same

private theorem known_older {age : Int} (known : Known (A - 1) age) : Known (A - 1) (older A age) := by
  unfold Known at known ⊢
  have valid : older A age = -1 ∨ 0 ≤ older A age ∧ older A age < A := older_valid (by omega)
  omega

section Steps
variable (ways : 0 < A) (int : A < 2 ^ 31)

include ways in
private theorem known_zero : Known (A - 1) 0 := .inr (by omega)

private theorem damaged {age : Int} (known : Known A age) (small : A < 2 ^ 31) {damage : Nat}
    (less : damage < 2 ^ 31) :
    int32 (age + damage) = age + damage ∧ age + damage < 2 ^ 31 ∨
      int32 (age + damage) < -1 ∧ ¬ age + damage < 2 ^ 31 := by
  unfold Known at known
  by_cases fits : age + damage < 2 ^ 31
  · exact .inl ⟨int32_of_small (by omega) fits,fits⟩
  · refine .inr ⟨?_,fits⟩
    rw [int32_of_large (by omega) (by omega)]
    omega

include int in
private theorem must_addDamage {age : Ages size} (known : ∀ i, Known (A - 1) (age i)) (id : Fin size) {damage : Nat}
    (less : damage < 2 ^ 31) : (∀ i, Known (A - 1) (MUSTProblem.addDamage A age id damage i)) ↔
      age id = -1 ∨ age id + damage < 2 ^ 31 := by
  unfold MUSTProblem.addDamage
  by_cases absent : age id = -1
  · rw [if_pos absent]
    exact iff_of_true known (.inl absent)
  rw [if_neg absent,known_update]
  have here := known id
  simp only [absent,false_or]
  unfold Known at here
  have wide : Known A (age id) := .inr (by omega)
  rcases damaged wide int less with ⟨sum,fits⟩ | ⟨sum,fits⟩
  · refine iff_of_true ⟨?_,fun i _ => known i⟩ fits
    rw [sum]
    unfold Known
    split <;> omega
  · refine iff_of_false ?_ fits
    rintro ⟨aged,-⟩
    rw [if_neg (by omega)] at aged
    unfold Known at aged
    omega

include int in
private theorem pers_addDamage {age : Ages size} (known : ∀ i, Known A (age i)) (id : Fin size) {damage : Nat}
    (less : damage < 2 ^ 31) : (∀ i, Known A (PERSProblem.addDamage A age id damage i)) ↔
      age id = -1 ∨ age id + damage < 2 ^ 31 := by
  unfold PERSProblem.addDamage
  by_cases absent : age id = -1
  · rw [if_pos absent]
    exact iff_of_true known (.inl absent)
  rw [if_neg absent,known_update]
  have here := known id
  simp only [absent,false_or]
  unfold Known at here
  rcases damaged (known id) int less with ⟨sum,fits⟩ | ⟨sum,fits⟩
  · refine iff_of_true ⟨?_,fun i _ => known i⟩ fits
    rw [sum]
    unfold Known
    split <;> omega
  · refine iff_of_false ?_ fits
    rintro ⟨aged,-⟩
    rw [if_neg (by omega)] at aged
    unfold Known at aged
    omega

include ways int in
theorem must_step (age : Ages size) (op : Op size Unit) (known : (must size A).InRange age) :
    (must size A).InRange ((must size A).step age op) ↔ NoOverflow age op := by
  cases op with
  | inject _ id =>
    refine iff_of_true (known_update.mpr ⟨known_zero ways,fun i _ => ?_⟩) trivial
    have here := known i
    have there := known id
    show Known (A - 1) (if age id ≠ -1 then if age i < age id ∧ age i ≠ -1 then age i + 1 else age i else older A (age i))
    split
    · unfold AgeDomain.InRange Known must at *
      dsimp only at *
      split <;> omega
    · exact known_older here
  | ageAll => exact iff_of_true (fun i => known_older (known i)) trivial
  | addDamage id damage less => exact must_addDamage int known id less

include ways int in
theorem may_step (age : Ages size) (op : Op size Unit) (known : (may size A).InRange age) :
    (may size A).InRange ((may size A).step age op) ↔ NoEscape A age op := by
  cases op with
  | inject _ id =>
    show (∀ i, Known (A - 1) (MAYProblem.inject A age id i)) ↔ age id = -1 ∨ _
    by_cases absent : age id = -1
    · refine iff_of_true (fun i => ?_) (.inl absent)
      by_cases same : i = id
      · subst same
        rw [MAYProblem.inject_self]
        exact known_zero ways
      · rw [MAYProblem.inject_absent A absent same]
        exact known_older (known i)
    · simp only [absent,false_or]
      constructor
      · intro ranged i other oldest
        have here := ranged i
        rw [MAYProblem.inject_present A absent other] at here
        unfold Known at here
        split at here <;> omega
      · intro fits i
        by_cases same : i = id
        · subst same
          rw [MAYProblem.inject_self]
          exact known_zero ways
        · rw [MAYProblem.inject_present A absent same]
          have here := known i
          have young := fits i same
          unfold AgeDomain.InRange Known may at *
          dsimp only at *
          split <;> omega
  | ageAll => exact iff_of_true (fun i => known_older (known i)) trivial
  | addDamage id damage less => exact must_addDamage int known id less

include int in
theorem pers_step (age : Ages size) (op : Op size (Ages size)) (known : (pers size A).InRange age) :
    (pers size A).InRange ((pers size A).step age op) ↔ NoOverflow age op := by
  cases op with
  | inject must id =>
    refine iff_of_true (known_update.mpr ⟨.inr (by simp [pers]),fun i _ => ?_⟩) trivial
    have here := known i
    unfold AgeDomain.InRange Known pers at *
    dsimp only at *
    repeat' split
    all_goals omega
  | ageAll =>
    refine iff_of_true (fun i => ?_) trivial
    have here := known i
    show Known A (if age i ≥ 0 ∧ age i < A then age i + 1 else age i)
    unfold AgeDomain.InRange Known pers at *
    dsimp only at *
    split <;> omega
  | addDamage id damage less => exact pers_addDamage int known id less

/-- The ages of the three analyses stay in their range in exactly the runs where no
    damage overflows and, in the MAY analysis, no `inject` ages a block of age A-1
    together with a present block. -/
theorem ages_inRange_iff (size : Nat) (ways : 0 < A) (int : A < 2 ^ 31) :
    (∀ run, (must size A).Always run ↔ (must size A).Meets NoOverflow run) ∧
      (∀ run, (may size A).Always run ↔ (may size A).Meets (NoEscape A) run) ∧
      ∀ run, (pers size A).Always run ↔ (pers size A).Meets NoOverflow run := by
  refine ⟨?_,?_,?_⟩
  · refine AgeDomain.always_iff_meets (fun i => .inl rfl) (fun i => known_zero ways) ?_ (must_step ways int)
    intro age dom left right i
    show Known _ (if (age i < dom i ∧ age i ≠ -1) ∨ dom i = -1 then dom i else age i)
    split
    · exact right i
    · exact left i
  · refine AgeDomain.always_iff_meets (fun i => .inl rfl) (fun i => .inl rfl) ?_ (may_step ways int)
    intro age dom left right i
    show Known _ (if (age i > dom i ∧ dom i ≠ -1) ∨ age i = -1 then dom i else age i)
    split
    · exact right i
    · exact left i
  · refine AgeDomain.always_iff_meets (fun i => .inl rfl) (fun i => .inl rfl) ?_ (pers_step int)
    intro age dom left right i
    show Known _ (if age i = -1 ∨ (age i < dom i ∧ dom i ≠ -1) then dom i else age i)
    split
    · exact right i
    · exact left i

end Steps

/-- Three blocks in two ways: they evict one another, one is used twice and damaged, all are
    aged, and the state is joined with a use from the bottom. -/
theorem ages_inRange_iff_evicting :
    let aging : (Must : Type) → Must → History 3 Must := fun _ must =>
      .lub (.step (.step (.step (.step (.step (.step .empty (.inject must 0)) (.inject must 1)) (.inject must 2)) (.inject must 2))
        (.addDamage 2 1 (by decide))) .ageAll) (.step .bottom (.inject must 1))
    (must 3 2).Always (aging Unit ()) ∧ (may 3 2).Always (aging Unit ()) ∧ (pers 3 2).Always (aging (Ages 3) fun _ => -1) := by
  intro aging
  obtain ⟨must,may,pers⟩ := ages_inRange_iff 3 (show 0 < 2 by decide) (by decide)
  refine ⟨(must _).mpr ?_,(may _).mpr ?_,(pers _).mpr ?_⟩
  · exact ⟨⟨⟨⟨⟨⟨⟨trivial,trivial⟩,trivial⟩,trivial⟩,trivial⟩,by unfold NoOverflow; decide⟩,trivial⟩,trivial,trivial⟩
  · refine ⟨⟨⟨⟨⟨⟨⟨trivial,.inl (by decide)⟩,.inl (by decide)⟩,.inl (by decide)⟩,.inr ?_⟩,?_⟩,trivial⟩,trivial,.inl (by decide)⟩
    -- the second use of block 2 meets block 1 at the greatest age
    · decide
    · unfold NoEscape NoOverflow
      decide
  · exact ⟨⟨⟨⟨⟨⟨⟨trivial,trivial⟩,trivial⟩,trivial⟩,trivial⟩,by unfold NoOverflow; decide⟩,trivial⟩,trivial,trivial⟩

def sameTwice : History 2 Unit :=
  .step (.step (.step .empty (.inject () ⟨1,Nat.one_lt_two⟩)) (.inject () ⟨0,Nat.two_pos⟩)) (.inject () ⟨0,Nat.two_pos⟩)

/-- The second access to block 0 gives block 1 the age 2. -/
theorem sameTwice_escapes :
    ¬ ∀ size A : Nat, 0 < A → A < 2 ^ 31 → (∀ run, (must size A).Always run) ∧
      (∀ run, (may size A).Always run) ∧ ∀ run, (pers size A).Always run := by
  intro ranged
  have range : Known 1 ((may 2 2).ages sameTwice 1) := ((ranged 2 2 (by decide) (by decide)).2.1 sameTwice).2 1
  have escaped : (may 2 2).ages sameTwice 1 = 2 := by decide
  rw [escaped] at range
  unfold Known at range
  omega

end Otawa.Cache
