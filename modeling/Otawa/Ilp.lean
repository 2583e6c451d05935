import Mathlib.Algebra.BigOperators.Group.List.Basic
import Mathlib.Algebra.BigOperators.Ring.List
import Mathlib.Tactic.Ring

/-!
Linear constraints over integer variables, `ilp::Constraint`. A constraint keeps one factor
for each of its variables, and its constant on the right of the comparator.
-/
namespace Otawa.Ilp

/-- `Constraint::comparator_t`. -/
inductive Comparator
  | lt | le | eq | ge | gt
  deriving DecidableEq

/-- What a comparator asks of its two sides. -/
def Comparator.Rel : Comparator → Int → Int → Prop
  | .lt, x, y => x < y
  | .le, x, y => x ≤ y
  | .eq, x, y => x = y
  | .ge, x, y => y ≤ x
  | .gt, x, y => y < x

instance (c : Comparator) (x y : Int) : Decidable (c.Rel x y) := by
  cases c <;> unfold Comparator.Rel <;> infer_instance

/-- `ilp::Constraint`, with its factors in the order of the list `facts`. -/
structure Constraint (V : Type) where
  facts : List (V × Int)
  comparator : Comparator
  constant : Int

section
variable {V : Type}

namespace Constraint

/-- `System::newConstraint`. -/
def new (comparator : Comparator) (constant : Int) : Constraint V := ⟨[],comparator,constant⟩

def value (a : V → Int) (cons : Constraint V) : Int := (cons.facts.map fun fact => fact.2 * a fact.1).sum

def Holds (a : V → Int) (cons : Constraint V) : Prop := cons.comparator.Rel (cons.value a) cons.constant

instance (a : V → Int) (cons : Constraint V) : Decidable (cons.Holds a) :=
  inferInstanceAs (Decidable (cons.comparator.Rel _ _))

def excess (a : V → Int) (cons : Constraint V) : Int := cons.value a-cons.constant

@[simp] theorem comparator_new (cmp : Comparator) (constant : Int) :
    (new cmp constant : Constraint V).comparator = cmp := rfl

@[simp] theorem excess_new (a : V → Int) (cmp : Comparator) (constant : Int) :
    (new cmp constant : Constraint V).excess a = -constant := by simp [new,excess,value]

theorem holds_iff (a : V → Int) (cons : Constraint V) : cons.Holds a ↔ cons.comparator.Rel (cons.excess a) 0 := by
  unfold Holds excess
  cases cons.comparator <;> simp only [Comparator.Rel] <;> omega

theorem excess_foldl {E : Type} (a : V → Int) (step : Constraint V → E → Constraint V) (weight : E → Int)
    (adds : ∀ cons e, (step cons e).excess a = cons.excess a+weight e) (es : List E) :
    ∀ cons, (es.foldl step cons).excess a = cons.excess a+(es.map weight).sum := by
  induction es with
  | nil => intro cons; simp
  | cons e es ih =>
    intro cons
    rw [List.foldl_cons,ih,adds,List.map_cons,List.sum_cons]
    ring

theorem comparator_foldl {E : Type} (step : Constraint V → E → Constraint V)
    (keeps : ∀ cons e, (step cons e).comparator = cons.comparator) (es : List E) :
    ∀ cons, (es.foldl step cons).comparator = cons.comparator := by
  induction es with
  | nil => intro cons; rfl
  | cons e es ih =>
    intro cons
    rw [List.foldl_cons,ih,keeps]

end Constraint

variable [DecidableEq V]

/-- `fact->add(coef)` on the factor of v. -/
def addFactor (coef : Int) (v : V) : List (V × Int) → List (V × Int)
  | [] => []
  | fact :: facts => if fact.1 = v then (fact.1,fact.2+coef) :: facts else fact :: addFactor coef v facts

namespace Constraint

/-- `Constraint::add`; a null variable (`none`) stands for the constant. -/
def add (cons : Constraint V) (coef : Int) : Option V → Constraint V
  | none => { cons with constant := cons.constant-coef }
  | some v =>
    if v ∈ cons.facts.map Prod.fst then { cons with facts := addFactor coef v cons.facts }
    else { cons with facts := (v,coef) :: cons.facts }

def addLeft (cons : Constraint V) (coef : Int) (v : Option V) : Constraint V := cons.add coef v
def addRight (cons : Constraint V) (coef : Int) (v : Option V) : Constraint V := cons.add (-coef) v

end Constraint

theorem sum_addFactor (a : V → Int) (coef : Int) (v : V) (facts : List (V × Int)) (mem : v ∈ facts.map Prod.fst) :
    ((addFactor coef v facts).map fun fact => fact.2 * a fact.1).sum =
      (facts.map fun fact => fact.2 * a fact.1).sum+coef * a v := by
  induction facts with
  | nil => simp at mem
  | cons fact facts ih =>
    rw [addFactor]
    split
    case isTrue same => simp only [List.map_cons,List.sum_cons,same]; ring
    case isFalse other =>
      have later : v ∈ facts.map Prod.fst := by
        rcases List.mem_cons.mp mem with same | later
        · exact absurd same.symm other
        · exact later
      simp only [List.map_cons,List.sum_cons,ih later]
      ring

namespace Constraint

@[simp] theorem comparator_add (cons : Constraint V) (coef : Int) (v : Option V) :
    (cons.add coef v).comparator = cons.comparator := by
  cases v with
  | none => rfl
  | some v => rw [add]; split <;> rfl

theorem excess_add (a : V → Int) (cons : Constraint V) (coef : Int) (v : Option V) :
    (cons.add coef v).excess a = cons.excess a+coef * v.elim 1 a := by
  cases v with
  | none => simp only [add,excess,value,Option.elim_none]; ring
  | some v =>
    simp only [add,excess,Option.elim_some]
    split
    case isTrue mem => simp only [value,sum_addFactor a coef v cons.facts mem]; ring
    case isFalse => simp only [value,List.map_cons,List.sum_cons]; ring

@[simp] theorem comparator_addLeft (cons : Constraint V) (coef : Int) (v : Option V) :
    (cons.addLeft coef v).comparator = cons.comparator := comparator_add cons coef v
@[simp] theorem comparator_addRight (cons : Constraint V) (coef : Int) (v : Option V) :
    (cons.addRight coef v).comparator = cons.comparator := comparator_add cons (-coef) v

@[simp] theorem excess_addLeft (a : V → Int) (cons : Constraint V) (coef : Int) (v : Option V) :
    (cons.addLeft coef v).excess a = cons.excess a+coef * v.elim 1 a := excess_add a cons coef v

@[simp] theorem excess_addRight (a : V → Int) (cons : Constraint V) (coef : Int) (v : Option V) :
    (cons.addRight coef v).excess a = cons.excess a-coef * v.elim 1 a := by
  rw [addRight,excess_add]; ring

end Constraint

theorem sum_count (trace : List V) (vs : List V) (nodup : vs.Nodup) :
    (vs.map fun v => (trace.count v : Int)).sum = trace.countP (· ∈ vs) := by
  induction trace with
  | nil => simp
  | cons w trace ih =>
    have here : (vs.map fun v => ((if w = v then 1 else 0 : Nat) : Int)).sum = if w ∈ vs then 1 else 0 := by
      clear ih
      induction vs with
      | nil => simp
      | cons v vs ih =>
        rw [List.nodup_cons] at nodup
        rw [List.map_cons,List.sum_cons,ih nodup.2]
        by_cases same : w = v
        · subst same; simp [nodup.1]
        · simp [same]
    have split : (vs.map fun v => ((w :: trace).count v : Int)).sum =
        (vs.map fun v => (trace.count v : Int)).sum+(vs.map fun v => ((if w = v then 1 else 0 : Nat) : Int)).sum := by
      rw [← List.sum_map_add]
      congr 1
      apply List.map_congr_left
      intro v _
      rw [List.count_cons]
      simp
    rw [split,ih,here,List.countP_cons]
    simp

end

end Otawa.Ilp
