import Otawa.Ilp
import Mathlib.Data.Fintype.Basic
import Mathlib.Data.Nat.Log

/-!
`System::dump` in CPLEX format. Variables get a name when they are met in the objective or in a
constraint that is written as such; a constraint with one variable of coefficient 1 is written as a
bound. What is written is read back with the meaning of the LP format, and compared with the system
(`dump_right`).
-/
namespace Otawa.Ilp

/-! ### What is written -/

/-- The section titles, numbers and names of the file. A constant is the signed number on the right of a
    comparator, a name is `x` with its number. -/
inductive Token
  | maximize | subjectTo | bounds | integer | finish
  | sign (negative : Bool)
  | number (value : Nat)
  | name (index : Nat)
  | comparator (comparator : Comparator)
  | constant (value : Int)
  deriving DecidableEq

/-- `ilp::System`, with the terms of its objective and its constraints. -/
structure System (V : Type) where
  objTerms : List (V × Int)
  constraints : List (Constraint V)

/-- `lrint` of a coefficient, kept in 32 bits. -/
def lrint (coef : Int) : Int := coef.bmod (2 ^ 32)

/-- What `%g` writes of a whole number: six digits, rounded to the nearest, to the even one in the middle. -/
def shown (constant : Int) : Int :=
  let size := constant.natAbs
  let unit := 10 ^ (Nat.log 10 size - 5)
  let digits := size / unit
  let rest := 2 * (size % unit)
  constant.sign * ((if rest > unit ∨ (rest = unit ∧ digits % 2 = 1) then digits + 1 else digits) * unit : Nat)

section
variable {V : Type} [DecidableEq V]

def termTokens (val : Int) (index : Nat) : List Token :=
  if val = 0 then []
  else if val = 1 then [.sign false,.name index]
  else if val = -1 then [.sign true,.name index]
  else [.sign (val < 0),.number val.natAbs,.name index]

def dumpTerms (rename : List V) : List (V × Int) → List V × List Token
  | [] => (rename,[])
  | (v,coef) :: terms =>
    let rename := if v ∈ rename then rename else rename ++ [v]
    let (rename',out) := dumpTerms rename terms
    (rename',termTokens (lrint coef) (rename.idxOf v) ++ out)

def isBound (cons : Constraint V) : Bool := cons.facts.all (fun term => term.2 = 1) && cons.facts.length = 1

def dumpConstraints (rename : List V) : List (Constraint V) → List V × List Token
  | [] => (rename,[])
  | cons :: rest =>
    if isBound cons then dumpConstraints rename rest
    else
      let (rename,out) := dumpTerms rename cons.facts
      let (rename',out') := dumpConstraints rename rest
      (rename',out ++ .comparator cons.comparator :: .constant (shown cons.constant) :: out')

def dumpBounds (rename : List V) : List (Constraint V) → Option (List Token)
  | [] => some []
  | cons :: rest =>
    if isBound cons then do
      let term ← cons.facts.getLast?
      let index ← rename.idxOf? term.1
      let out ← dumpBounds rename rest
      return .name index :: .comparator cons.comparator :: .constant (shown cons.constant) :: out
    else dumpBounds rename rest

namespace System

/-- `dump`, with the table of the names. -/
def dump (sys : System V) : Option (List V × List Token) := do
  let (rename,objective) := dumpTerms [] sys.objTerms
  let (rename,constraints) := dumpConstraints rename sys.constraints
  let bounds ← dumpBounds rename sys.constraints
  return (rename,.maximize :: (objective ++ .subjectTo :: (constraints ++ .bounds :: (bounds ++ .integer ::
    ((List.range rename.length).map Token.name ++ [.finish])))))

/-- A feasible assignment of the variables, which are not negative. -/
def Feasible (sys : System V) (a : V → Int) : Prop := (∀ v, 0 ≤ a v) ∧ ∀ cons ∈ sys.constraints, cons.Holds a

instance [Fintype V] (sys : System V) (a : V → Int) : Decidable (sys.Feasible a) := inferInstanceAs (Decidable (_ ∧ _))

def objective (sys : System V) (a : V → Int) : Int := (sys.objTerms.map fun term => term.2 * a term.1).sum

end System

end

/-! ### What is read -/

structure Problem where
  objective : List (Int × Nat)
  constraints : List (List (Int × Nat) × Comparator × Int)
  bounds : List (Nat × Comparator × Int)
  integers : List Nat

def signed (negative : Bool) (value : Nat) : Int := if negative then -value else value

def readObjective (terms : List (Int × Nat)) : List Token → Option (List (Int × Nat) × List Token)
  | .sign negative :: .number value :: .name index :: rest => readObjective (terms ++ [(signed negative value,index)]) rest
  | .sign negative :: .name index :: rest => readObjective (terms ++ [(signed negative 1,index)]) rest
  | .subjectTo :: rest => some (terms,rest)
  | _ => none

def readConstraints (terms : List (Int × Nat)) : List Token → Option (List (List (Int × Nat) × Comparator × Int) × List Token)
  | .sign negative :: .number value :: .name index :: rest => readConstraints (terms ++ [(signed negative value,index)]) rest
  | .sign negative :: .name index :: rest => readConstraints (terms ++ [(signed negative 1,index)]) rest
  | .comparator comparator :: .constant value :: rest =>
    (readConstraints [] rest).map fun (constraints,rest) => ((terms,comparator,value) :: constraints,rest)
  | .bounds :: rest => if terms = [] then some ([],rest) else none
  | _ => none

def readBounds : List Token → Option (List (Nat × Comparator × Int) × List Token)
  | .name index :: .comparator comparator :: .constant value :: rest =>
    (readBounds rest).map fun (bounds,rest) => ((index,comparator,value) :: bounds,rest)
  | .integer :: rest => some ([],rest)
  | _ => none

def readIntegers : List Token → Option (List Nat)
  | .name index :: rest => (readIntegers rest).map (index :: ·)
  | [.finish] => some []
  | _ => none

def read : List Token → Option Problem
  | .maximize :: rest => do
    let (objective,rest) ← readObjective [] rest
    let (constraints,rest) ← readConstraints [] rest
    let (bounds,rest) ← readBounds rest
    let integers ← readIntegers rest
    return ⟨objective,constraints,bounds,integers⟩
  | _ => none

/-- A comparator of the file: it never is strict. -/
def Comparator.Reads : Comparator → Int → Int → Prop
  | .lt, x, y | .le, x, y => x ≤ y
  | .eq, x, y => x = y
  | .ge, x, y | .gt, x, y => y ≤ x

instance (c : Comparator) (x y : Int) : Decidable (c.Reads x y) := by
  cases c <;> unfold Comparator.Reads <;> infer_instance

def Comparator.isLower : Comparator → Bool
  | .eq | .ge | .gt => true
  | .lt | .le => false

def Comparator.isUpper : Comparator → Bool
  | .lt | .le | .eq => true
  | .ge | .gt => false

namespace Problem

def valueOf (terms : List (Int × Nat)) (b : Nat → Int) : Int := (terms.map fun term => term.1 * b term.2).sum

def kindOf (p : Problem) (kind : Comparator → Bool) (index : Nat) : List Int :=
  (p.bounds.filter fun bound => bound.1 = index && kind bound.2.1).map fun bound => bound.2.2

/-- The lower bound of a variable: the last one that is given, or 0. -/
def lower (p : Problem) (index : Nat) : Int := (p.kindOf Comparator.isLower index).getLast?.getD 0

/-- The upper bound of a variable, if some is given: the last one. -/
def upper (p : Problem) (index : Nat) : Option Int := (p.kindOf Comparator.isUpper index).getLast?

structure Feasible (p : Problem) (b : Nat → Int) : Prop where
  constraints : ∀ cons ∈ p.constraints, cons.2.1.Reads (valueOf cons.1 b) cons.2.2
  lower : ∀ index ∈ p.integers, p.lower index ≤ b index
  upper : ∀ index ∈ p.integers, ∀ bound ∈ p.upper index, b index ≤ bound

instance (p : Problem) (b : Nat → Int) : Decidable (p.Feasible b) :=
  decidable_of_iff ((∀ cons ∈ p.constraints, cons.2.1.Reads (valueOf cons.1 b) cons.2.2) ∧
    (∀ index ∈ p.integers, p.lower index ≤ b index) ∧ ∀ index ∈ p.integers, ∀ bound ∈ p.upper index, b index ≤ bound)
    ⟨fun ⟨constraints,lower,upper⟩ => ⟨constraints,lower,upper⟩,fun ⟨constraints,lower,upper⟩ => ⟨constraints,lower,upper⟩⟩

end Problem

section
variable {V : Type} [DecidableEq V]

def assigned (names : List V) (a : V → Int) (index : Nat) : Int := (names[index]?.map a).getD 0

/-- The dump writes a problem with the feasible assignments and the objective of the system; a variable that
    is nowhere in the file has any value it can have. -/
def System.Right (sys : System V) : Prop :=
  ∃ names out p, sys.dump = some (names,out) ∧ read out = some p ∧
    (∀ a, sys.Feasible a ↔ (∀ v, v ∉ names → 0 ≤ a v) ∧ p.Feasible (assigned names a)) ∧
    ∀ a, Problem.valueOf p.objective (assigned names a) = sys.objective a

end

def writtenTerms {V : Type} [DecidableEq V] (names : List V) (terms : List (V × Int)) : List (Int × Nat) :=
  terms.filterMap fun term => if lrint term.2 = 0 then none else some (lrint term.2,names.idxOf term.1)

structure ReadsTerms {R : Type} (reader : List (Int × Nat) → List Token → Option R) : Prop where
  number : ∀ acc negative value index rest,
    reader acc (.sign negative :: .number value :: .name index :: rest) = reader (acc ++ [(signed negative value,index)]) rest
  one : ∀ acc negative index rest, reader acc (.sign negative :: .name index :: rest) = reader (acc ++ [(signed negative 1,index)]) rest

theorem readsTerms_readObjective : ReadsTerms readObjective where
  number _ _ _ _ _ := by rw [readObjective]
  one _ _ _ _ := by rw [readObjective]

theorem readsTerms_readConstraints : ReadsTerms readConstraints where
  number _ _ _ _ _ := by rw [readConstraints]
  one _ _ _ _ := by rw [readConstraints]

theorem ReadsTerms.term {R : Type} {reader : List (Int × Nat) → List Token → Option R} (reads : ReadsTerms reader)
    (acc : List (Int × Nat)) (val : Int) (index : Nat) (rest : List Token) :
    reader acc (termTokens val index ++ rest) = reader (acc ++ if val = 0 then [] else [(val,index)]) rest := by
  rw [termTokens]
  by_cases null : val = 0
  · simp [null]
  · by_cases one : val = 1
    · simp [one,reads.one,signed]
    · by_cases minus : val = -1
      · simp [minus,reads.one,signed]
      · have same : signed (val < 0) val.natAbs = val := by
          rw [signed]
          by_cases negative : val < 0 <;> simp only [negative,decide_true,decide_false,if_true,Bool.false_eq_true,if_false] <;> omega
        simp [null,one,minus,reads.number,same]

section
variable {V : Type} [DecidableEq V] (names : List V)

def tokens (terms : List (V × Int)) : List Token := terms.flatMap fun term => termTokens (lrint term.2) (names.idxOf term.1)

theorem ReadsTerms.tokens {R : Type} {reader : List (Int × Nat) → List Token → Option R} (reads : ReadsTerms reader)
    (acc : List (Int × Nat)) (terms : List (V × Int)) (rest : List Token) :
    reader acc (tokens names terms ++ rest) = reader (acc ++ writtenTerms names terms) rest := by
  induction terms generalizing acc with
  | nil => simp [Ilp.tokens,writtenTerms]
  | cons term terms ih =>
    rw [Ilp.tokens,List.flatMap_cons,← Ilp.tokens,List.append_assoc,reads.term,ih,List.append_assoc,writtenTerms,writtenTerms,List.filterMap_cons]
    split <;> simp_all

def writtenConstraints (constraints : List (Constraint V)) : List (List (Int × Nat) × Comparator × Int) :=
  (constraints.filter fun cons => !isBound cons).map fun cons => (writtenTerms names cons.facts,cons.comparator,shown cons.constant)

def constraintTokens (constraints : List (Constraint V)) : List Token :=
  (constraints.filter fun cons => !isBound cons).flatMap fun cons =>
    tokens names cons.facts ++ [.comparator cons.comparator,.constant (shown cons.constant)]

theorem readConstraints_constraintTokens (constraints : List (Constraint V)) (rest : List Token) :
    readConstraints [] (constraintTokens names constraints ++ .bounds :: rest) = some (writtenConstraints names constraints,rest) := by
  rw [constraintTokens,writtenConstraints]
  induction constraints.filter fun cons => !isBound cons with
  | nil => rfl
  | cons cons constraints ih =>
    rw [List.flatMap_cons,List.append_assoc,List.append_assoc,readsTerms_readConstraints.tokens]
    simp only [List.cons_append,List.nil_append,readConstraints,ih]
    rfl

def writtenBounds (constraints : List (Constraint V)) : List (Nat × Comparator × Int) :=
  (constraints.filter isBound).flatMap fun cons => cons.facts.map fun term => (names.idxOf term.1,cons.comparator,shown cons.constant)

def boundTokens (bounds : List (Nat × Comparator × Int)) : List Token :=
  bounds.flatMap fun bound => [.name bound.1,.comparator bound.2.1,.constant bound.2.2]

theorem readBounds_boundTokens (bounds : List (Nat × Comparator × Int)) (rest : List Token) :
    readBounds (boundTokens bounds ++ .integer :: rest) = some (bounds,rest) := by
  induction bounds with
  | nil => rfl
  | cons bound bounds ih =>
    rw [boundTokens,List.flatMap_cons,← boundTokens]
    simp only [List.cons_append,List.nil_append,readBounds,ih]
    rfl

theorem readIntegers_names (indexes : List Nat) : readIntegers (indexes.map Token.name ++ [.finish]) = some indexes := by
  induction indexes with
  | nil => rfl
  | cons index indexes ih => simp [readIntegers,ih]

variable {names}

theorem dumpTerms_spec (rename : List V) (terms : List (V × Int)) :
    rename <+: (dumpTerms rename terms).1 ∧ (rename.Nodup → (dumpTerms rename terms).1.Nodup) ∧
      (∀ v, v ∈ (dumpTerms rename terms).1 ↔ v ∈ rename ∨ v ∈ terms.map Prod.fst) ∧
      ∀ names, (dumpTerms rename terms).1 <+: names → (dumpTerms rename terms).2 = tokens names terms := by
  induction terms generalizing rename with
  | nil => exact ⟨List.prefix_rfl,id,by simp [dumpTerms],fun _ _ => rfl⟩
  | cons term terms ih =>
    obtain ⟨v,coef⟩ := term
    rw [dumpTerms]
    by_cases known : v ∈ rename
    · simp only [if_pos known]
      obtain ⟨grows,nodup,mem,same⟩ := ih rename
      refine ⟨grows,nodup,fun w => ?_,fun names final => ?_⟩
      · rw [mem,List.map_cons,List.mem_cons]
        exact ⟨Or.imp_right .inr,by rintro (mem | rfl | mem); exacts [.inl mem,.inl known,.inr mem]⟩
      · obtain ⟨more,rfl⟩ := grows.trans final
        rw [same _ final,tokens,tokens,List.flatMap_cons,List.idxOf_append_of_mem known]
    · simp only [if_neg known]
      obtain ⟨grows,nodup,mem,same⟩ := ih (rename ++ [v])
      refine ⟨(List.prefix_append _ _).trans grows,fun before => nodup ?_,fun w => ?_,fun names final => ?_⟩
      · refine List.nodup_append.2 ⟨before,by simp,fun w mem w' single equal => known ?_⟩
        obtain rfl : w' = v := by simpa using single
        rwa [← equal]
      · rw [mem]
        simp [or_assoc]
      · obtain ⟨more,rfl⟩ := grows.trans final
        rw [same _ final,tokens,tokens,List.flatMap_cons,List.idxOf_append_of_mem (show v ∈ rename ++ [v] by simp)]

theorem dumpConstraints_spec (rename : List V) (constraints : List (Constraint V)) :
    rename <+: (dumpConstraints rename constraints).1 ∧ (rename.Nodup → (dumpConstraints rename constraints).1.Nodup) ∧
      (∀ v, v ∈ (dumpConstraints rename constraints).1 ↔
        v ∈ rename ∨ ∃ cons ∈ constraints, isBound cons = false ∧ v ∈ cons.facts.map Prod.fst) ∧
      ∀ names, (dumpConstraints rename constraints).1 <+: names → (dumpConstraints rename constraints).2 = constraintTokens names constraints := by
  induction constraints generalizing rename with
  | nil => exact ⟨List.prefix_rfl,id,by simp [dumpConstraints],fun _ _ => rfl⟩
  | cons cons constraints ih =>
    rw [dumpConstraints]
    by_cases bound : isBound cons
    · simp only [if_pos bound]
      obtain ⟨grows,nodup,mem,same⟩ := ih rename
      refine ⟨grows,nodup,fun v => by rw [mem]; simp [bound],fun names final => ?_⟩
      rw [same _ final,constraintTokens,constraintTokens,List.filter_cons_of_neg (by simp [bound])]
    · simp only [if_neg bound]
      obtain ⟨grows,nodup,mem,same⟩ := dumpTerms_spec rename cons.facts
      obtain ⟨grows',nodup',mem',same'⟩ := ih (dumpTerms rename cons.facts).1
      refine ⟨grows.trans grows',nodup' ∘ nodup,fun v => ?_,fun names final => ?_⟩
      · rw [mem',mem]
        simp [bound,or_assoc]
      · rw [same' _ final,same _ (grows'.trans final),constraintTokens,constraintTokens,List.filter_cons_of_pos (by simp [bound]),
          List.flatMap_cons]
        simp

omit [DecidableEq V] in
theorem isBound_iff (cons : Constraint V) : isBound cons = true ↔ ∃ v, cons.facts = [(v,1)] := by
  rw [isBound]
  constructor
  · intro bound
    obtain ⟨ones,single⟩ := (Bool.and_eq_true _ _).mp bound
    obtain ⟨⟨v,coef⟩,facts⟩ := List.length_eq_one_iff.1 (of_decide_eq_true single)
    rw [facts] at ones
    obtain rfl : coef = 1 := by simpa using ones
    exact ⟨v,facts⟩
  · rintro ⟨v,facts⟩
    simp [facts]

private theorem idxOf?_of_mem {v : V} (known : v ∈ names) : names.idxOf? v = some (names.idxOf v) := by
  cases index : names.idxOf? v with
  | none => exact absurd known (List.idxOf?_eq_none_iff.1 index)
  | some i => rw [List.idxOf_eq_getD_idxOf?,index,Option.getD_some]

theorem dumpBounds_some {constraints : List (Constraint V)}
    (named : ∀ cons ∈ constraints, isBound cons = true → ∀ term ∈ cons.facts, term.1 ∈ names) :
    dumpBounds names constraints = some (boundTokens (writtenBounds names constraints)) := by
  induction constraints with
  | nil => rfl
  | cons cons constraints ih =>
    have later := ih fun cons mem => named cons (.tail _ mem)
    rw [dumpBounds]
    by_cases bound : isBound cons
    · obtain ⟨v,facts⟩ := (isBound_iff cons).1 bound
      have known : v ∈ names := named cons (.head _) bound (v,1) (by simp [facts])
      rw [if_pos bound,later,writtenBounds,writtenBounds,List.filter_cons_of_pos bound,List.flatMap_cons,facts]
      simp [boundTokens,idxOf?_of_mem known]
    · rw [if_neg bound,later,writtenBounds,writtenBounds,List.filter_cons_of_neg bound]

theorem dumpBounds_none {constraints : List (Constraint V)} {cons : Constraint V} (mem : cons ∈ constraints) (bound : isBound cons = true)
    {term : V × Int} (fact : term ∈ cons.facts) (unnamed : term.1 ∉ names) : dumpBounds names constraints = none := by
  induction constraints with
  | nil => cases mem
  | cons first constraints ih =>
    rw [dumpBounds]
    rcases List.mem_cons.1 mem with rfl | mem
    · obtain ⟨v,facts⟩ := (isBound_iff cons).1 bound
      obtain rfl : term = (v,1) := by simpa [facts] using fact
      rw [if_pos bound,facts]
      simp [List.idxOf?_eq_none_iff.2 unnamed]
    · rw [ih mem]
      split
      · cases first.facts.getLast? with
        | none => rfl
        | some last => simp
      · rfl

end

section
variable {V : Type} [DecidableEq V] {names : List V} {a : V → Int}

theorem shown_eq {constant : Int} (short : 10 ^ (Nat.log 10 constant.natAbs - 5) ∣ constant.natAbs) : shown constant = constant := by
  have none := Nat.mod_eq_zero_of_dvd short
  have some := Nat.div_mul_cancel short
  have positive : 0 < 10 ^ (Nat.log 10 constant.natAbs - 5) := Nat.pow_pos (by omega)
  rw [shown,none,if_neg (by omega),some,Int.sign_mul_natAbs]

theorem lrint_eq {coef : Int} (least : -2 ^ 31 ≤ coef) (most : coef < 2 ^ 31) : lrint coef = coef := by
  rw [lrint,Int.bmod_def]
  split <;> omega

theorem assigned_idxOf {v : V} (known : v ∈ names) : assigned names a (names.idxOf v) = a v := by
  rw [assigned,List.getElem?_idxOf known]
  rfl

theorem valueOf_writtenTerms {terms : List (V × Int)} (known : ∀ term ∈ terms, term.1 ∈ names)
    (fits : ∀ term ∈ terms, -2 ^ 31 ≤ term.2 ∧ term.2 < 2 ^ 31) :
    Problem.valueOf (writtenTerms names terms) (assigned names a) = (terms.map fun term => term.2 * a term.1).sum := by
  induction terms with
  | nil => rfl
  | cons term terms ih =>
    have later := ih (fun term mem => known term (.tail _ mem)) fun term mem => fits term (.tail _ mem)
    have same := lrint_eq (fits term (.head _)).1 (fits term (.head _)).2
    have value := assigned_idxOf (a := a) (known term (.head _))
    rw [Problem.valueOf,writtenTerms] at later
    rw [Problem.valueOf,writtenTerms,List.filterMap_cons,same,List.map_cons,List.sum_cons,← later]
    by_cases null : term.2 = 0
    · simp [null]
    · simp [null,value]

theorem reads_iff {comparator : Comparator} (notLt : comparator ≠ .lt) (notGt : comparator ≠ .gt) (x y : Int) :
    comparator.Reads x y ↔ comparator.Rel x y := by
  cases comparator with
  | lt => exact absurd rfl notLt
  | gt => exact absurd rfl notGt
  | le | eq | ge => exact Iff.rfl

def System.boundsOf (sys : System V) (kind : Comparator → Bool) (v : V) : List Int :=
  (sys.constraints.filter fun cons => cons.facts = [(v,1)] && kind cons.comparator).map Constraint.constant

theorem kindOf_writtenBounds {constraints : List (Constraint V)} {v : V} (kind : Comparator → Bool)
    (named : ∀ cons ∈ constraints, isBound cons = true → ∀ term ∈ cons.facts, term.1 ∈ names)
    (short : ∀ cons ∈ constraints, shown cons.constant = cons.constant) :
    ((writtenBounds names constraints).filter fun bound => bound.1 = names.idxOf v && kind bound.2.1).map (fun bound => bound.2.2) =
      (constraints.filter fun cons => cons.facts = [(v,1)] && kind cons.comparator).map Constraint.constant := by
  induction constraints with
  | nil => rfl
  | cons cons constraints ih =>
    have later := ih (fun cons mem => named cons (.tail _ mem)) fun cons mem => short cons (.tail _ mem)
    rw [writtenBounds] at later ⊢
    by_cases bound : isBound cons
    · obtain ⟨w,facts⟩ := (isBound_iff cons).1 bound
      have known' : w ∈ names := named cons (.head _) bound (w,1) (by simp [facts])
      have same : names.idxOf w = names.idxOf v ↔ w = v := List.idxOf_inj known'
      rw [List.filter_cons_of_pos bound,List.flatMap_cons,List.filter_append,List.map_append,later,facts,short cons (.head _)]
      by_cases here : w = v
      · by_cases kinds : kind cons.comparator <;> simp [facts,here,kinds]
      · simp [facts,here,same]
    · have other : cons.facts ≠ [(v,1)] := fun facts => bound ((isBound_iff cons).2 ⟨v,facts⟩)
      rw [List.filter_cons_of_neg bound,later,List.filter_cons_of_neg (by simp [other])]

theorem lower_iff {bounds : List Int} {x : Int} (tight : ∀ l, bounds.getLast? = some l → 0 ≤ l ∧ ∀ c ∈ bounds, c ≤ l) :
    bounds.getLast?.getD 0 ≤ x ↔ 0 ≤ x ∧ ∀ c ∈ bounds, c ≤ x := by
  cases last : bounds.getLast? with
  | none =>
    obtain rfl := List.getLast?_eq_none_iff.1 last
    simp
  | some l =>
    obtain ⟨positive,greatest⟩ := tight l last
    refine ⟨fun above => ⟨positive.trans above,fun c mem => (greatest c mem).trans above⟩,fun both => both.2 l ?_⟩
    exact List.mem_of_getLast? last

theorem upper_iff {bounds : List Int} {x : Int} (tight : ∀ u, bounds.getLast? = some u → ∀ c ∈ bounds, u ≤ c) :
    (∀ u, bounds.getLast? = some u → x ≤ u) ↔ ∀ c ∈ bounds, x ≤ c := by
  cases last : bounds.getLast? with
  | none =>
    obtain rfl := List.getLast?_eq_none_iff.1 last
    simp
  | some u =>
    refine ⟨fun below c mem => (below u rfl).trans (tight u last c mem),fun all u' same => ?_⟩
    obtain rfl := Option.some.inj same
    exact all u (List.mem_of_getLast? last)

theorem boundsOf_iff (sys : System V) (loose : ∀ cons ∈ sys.constraints, cons.comparator ≠ .lt ∧ cons.comparator ≠ .gt) (v : V) (a : V → Int) :
    ((∀ c ∈ sys.boundsOf Comparator.isLower v, c ≤ a v) ∧ ∀ c ∈ sys.boundsOf Comparator.isUpper v, a v ≤ c) ↔
      ∀ cons ∈ sys.constraints, cons.facts = [(v,1)] → cons.Holds a := by
  have value : ∀ cons : Constraint V, cons.facts = [(v,1)] → cons.value a = a v := fun cons facts => by
    rw [Constraint.value,facts]
    simp
  constructor
  · rintro ⟨lower,upper⟩ cons mem facts
    have below := fun kind : cons.comparator.isLower = true =>
      lower cons.constant (List.mem_map_of_mem (List.mem_filter.2 ⟨mem,by simp [facts,kind]⟩))
    have above := fun kind : cons.comparator.isUpper = true =>
      upper cons.constant (List.mem_map_of_mem (List.mem_filter.2 ⟨mem,by simp [facts,kind]⟩))
    obtain ⟨notLt,notGt⟩ := loose cons mem
    rw [Constraint.Holds,value cons facts]
    cases comparator : cons.comparator with
    | lt => exact absurd comparator notLt
    | gt => exact absurd comparator notGt
    | le => exact above (by rw [comparator]; rfl)
    | ge => exact below (by rw [comparator]; rfl)
    | eq => exact le_antisymm (above (by rw [comparator]; rfl)) (below (by rw [comparator]; rfl))
  · intro all
    have each : ∀ kind, ∀ c ∈ sys.boundsOf kind v, ∃ cons ∈ sys.constraints, kind cons.comparator = true ∧ cons.constant = c ∧
        cons.comparator.Rel (a v) c := by
      intro kind c mem
      obtain ⟨cons,chosen,rfl⟩ := List.mem_map.1 mem
      obtain ⟨mem,same⟩ := List.mem_filter.1 chosen
      simp only [Bool.and_eq_true,decide_eq_true_eq] at same
      have holds := all cons mem same.1
      rw [Constraint.Holds,value cons same.1] at holds
      exact ⟨cons,mem,same.2,rfl,holds⟩
    refine ⟨fun c mem => ?_,fun c mem => ?_⟩
    · obtain ⟨cons,mem,kind,-,rel⟩ := each _ c mem
      cases comparator : cons.comparator with
      | lt | le => rw [comparator] at kind; cases kind
      | eq => rw [comparator] at rel; exact rel.ge
      | ge => rw [comparator] at rel; exact rel
      | gt => exact absurd comparator (loose cons mem).2
    · obtain ⟨cons,mem,kind,-,rel⟩ := each _ c mem
      cases comparator : cons.comparator with
      | gt | ge => rw [comparator] at kind; cases kind
      | eq => rw [comparator] at rel; exact rel.le
      | le => rw [comparator] at rel; exact rel
      | lt => exact absurd comparator (loose cons mem).1

def System.named (sys : System V) : List V :=
  sys.objTerms.map Prod.fst ++ (sys.constraints.filter fun cons => !isBound cons).flatMap fun cons => cons.facts.map Prod.fst

/-- Coefficients of 32 bits, constants of six digits, comparators that are not strict, and for each variable
    a last lower bound that is not negative and is the greatest one, and a last upper bound that is the
    least one. -/
structure System.Fits (sys : System V) : Prop where
  named : ∀ cons ∈ sys.constraints, isBound cons = true → ∀ term ∈ cons.facts, term.1 ∈ sys.named
  objTerms : ∀ term ∈ sys.objTerms, -2 ^ 31 ≤ term.2 ∧ term.2 < 2 ^ 31
  facts : ∀ cons ∈ sys.constraints, ∀ term ∈ cons.facts, -2 ^ 31 ≤ term.2 ∧ term.2 < 2 ^ 31
  short : ∀ cons ∈ sys.constraints, 10 ^ (Nat.log 10 cons.constant.natAbs - 5) ∣ cons.constant.natAbs
  loose : ∀ cons ∈ sys.constraints, cons.comparator ≠ .lt ∧ cons.comparator ≠ .gt
  lower : ∀ v l, (sys.boundsOf Comparator.isLower v).getLast? = some l → 0 ≤ l ∧ ∀ c ∈ sys.boundsOf Comparator.isLower v, c ≤ l
  upper : ∀ v u, (sys.boundsOf Comparator.isUpper v).getLast? = some u → ∀ c ∈ sys.boundsOf Comparator.isUpper v, u ≤ c

theorem System.dump_eq (sys : System V) : ∃ names, names.Nodup ∧ (∀ v, v ∈ names ↔ v ∈ sys.named) ∧
    sys.dump = (dumpBounds names sys.constraints).map fun bounds => (names,.maximize :: (tokens names sys.objTerms ++
      .subjectTo :: (constraintTokens names sys.constraints ++ .bounds :: (bounds ++ .integer ::
        ((List.range names.length).map Token.name ++ [.finish]))))) := by
  obtain ⟨-,nodup,mem,same⟩ := dumpTerms_spec [] sys.objTerms
  obtain ⟨grows,nodup',mem',same'⟩ := dumpConstraints_spec (dumpTerms [] sys.objTerms).1 sys.constraints
  refine ⟨(dumpConstraints (dumpTerms [] sys.objTerms).1 sys.constraints).1,nodup' (nodup List.nodup_nil),fun v => ?_,?_⟩
  · rw [mem',mem,System.named,List.mem_append,List.mem_flatMap]
    simp [and_assoc]
  · rw [← same _ grows,← same' _ List.prefix_rfl,System.dump]
    simp only [Option.bind_eq_bind]
    cases dumpBounds (dumpConstraints (dumpTerms [] sys.objTerms).1 sys.constraints).1 sys.constraints <;> rfl

def System.written (sys : System V) (names : List V) : Problem :=
  ⟨writtenTerms names sys.objTerms,writtenConstraints names sys.constraints,writtenBounds names sys.constraints,List.range names.length⟩

theorem read_tokens (names : List V) (sys : System V) :
    read (.maximize :: (tokens names sys.objTerms ++ .subjectTo :: (constraintTokens names sys.constraints ++
      .bounds :: (boundTokens (writtenBounds names sys.constraints) ++ .integer :: ((List.range names.length).map Token.name ++ [.finish]))))) =
      some (sys.written names) := by
  rw [read,readsTerms_readObjective.tokens]
  simp [System.written,readObjective,readConstraints_constraintTokens,readBounds_boundTokens,readIntegers_names]

/-- The bounds that are written for a variable. -/
theorem System.Fits.boundsHold_iff {sys : System V} (fits : sys.Fits) {names : List V}
    (named : ∀ cons ∈ sys.constraints, isBound cons = true → ∀ term ∈ cons.facts, term.1 ∈ names) (v : V) (a : V → Int) :
    ((sys.written names).lower (names.idxOf v) ≤ a v ∧ ∀ u, (sys.written names).upper (names.idxOf v) = some u → a v ≤ u) ↔
      0 ≤ a v ∧ ∀ cons ∈ sys.constraints, cons.facts = [(v,1)] → cons.Holds a := by
  have kinds : ∀ kind, (sys.written names).kindOf kind (names.idxOf v) = sys.boundsOf kind v := fun kind =>
    kindOf_writtenBounds kind named fun cons mem => shown_eq (fits.short cons mem)
  rw [Problem.lower,Problem.upper,kinds,kinds,lower_iff (fits.lower v),upper_iff (fits.upper v),← boundsOf_iff sys fits.loose,and_assoc]

theorem System.Fits.reads_iff {sys : System V} (fits : sys.Fits) {names : List V} {cons : Constraint V} (mem : cons ∈ sys.constraints)
    (known : ∀ term ∈ cons.facts, term.1 ∈ names) (a : V → Int) :
    cons.comparator.Reads (Problem.valueOf (writtenTerms names cons.facts) (assigned names a)) (shown cons.constant) ↔ cons.Holds a := by
  obtain ⟨notLt,notGt⟩ := fits.loose cons mem
  rw [Ilp.reads_iff notLt notGt,shown_eq (fits.short cons mem),valueOf_writtenTerms known (fits.facts cons mem)]
  rfl

theorem System.Fits.right {sys : System V} (fits : sys.Fits) : sys.Right := by
  obtain ⟨names,nodup,mem,dumped⟩ := sys.dump_eq
  have named : ∀ cons ∈ sys.constraints, isBound cons = true → ∀ term ∈ cons.facts, term.1 ∈ names :=
    fun cons inside bound term fact => (mem _).2 (fits.named cons inside bound term fact)
  have known : ∀ cons ∈ sys.constraints, isBound cons = false → ∀ term ∈ cons.facts, term.1 ∈ names := by
    intro cons inside bound term fact
    refine (mem _).2 (List.mem_append_right _ (List.mem_flatMap.2 ⟨cons,List.mem_filter.2 ⟨inside,by simp [bound]⟩,?_⟩))
    exact List.mem_map_of_mem fact
  rw [dumpBounds_some named] at dumped
  refine ⟨names,_,_,dumped,read_tokens names sys,fun a => ⟨fun ⟨positive,holds⟩ => ?_,fun ⟨unnamed,feasible⟩ => ?_⟩,fun a => ?_⟩
  · have bounds : ∀ index ∈ (sys.written names).integers, (sys.written names).lower index ≤ assigned names a index ∧
        ∀ u, (sys.written names).upper index = some u → assigned names a index ≤ u := by
      intro index inside
      have inside := List.mem_range.1 inside
      have here := nodup.idxOf_getElem index inside
      have both := (fits.boundsHold_iff named names[index] a).2 ⟨positive _,fun cons mem _ => holds cons mem⟩
      rw [here] at both
      have value := assigned_idxOf (a := a) (List.getElem_mem inside)
      rw [here] at value
      rwa [value]
    refine ⟨fun v _ => positive v,fun line inside => ?_,fun index inside => (bounds index inside).1,
      fun index inside => (bounds index inside).2⟩
    obtain ⟨cons,chosen,rfl⟩ := List.mem_map.1 inside
    obtain ⟨inside,bound⟩ := List.mem_filter.1 chosen
    exact (fits.reads_iff inside (known cons inside (by simpa using bound)) a).2 (holds cons inside)
  · have bounds : ∀ v ∈ names, 0 ≤ a v ∧ ∀ cons ∈ sys.constraints, cons.facts = [(v,1)] → cons.Holds a := by
      intro v inside
      have index : names.idxOf v ∈ (sys.written names).integers := List.mem_range.2 (List.idxOf_lt_length_of_mem inside)
      refine (fits.boundsHold_iff named v a).1 ?_
      rw [← assigned_idxOf (a := a) inside]
      exact ⟨feasible.lower _ index,feasible.upper _ index⟩
    refine ⟨fun v => ?_,fun cons inside => ?_⟩
    · by_cases known : v ∈ names
      · exact (bounds v known).1
      · exact unnamed v known
    · cases bound : isBound cons with
      | true =>
        obtain ⟨v,facts⟩ := (isBound_iff cons).1 bound
        exact (bounds v (named cons inside bound (v,1) (by simp [facts]))).2 cons inside facts
      | false =>
        refine (fits.reads_iff inside (known cons inside bound) a).1 (feasible.constraints (_,_,_) ?_)
        exact List.mem_map_of_mem (List.mem_filter.2 ⟨inside,by simp [bound]⟩)
  · refine valueOf_writtenTerms (fun term inside => (mem _).2 ?_) fits.objTerms
    exact List.mem_append_left _ (List.mem_map_of_mem inside)

/-- Exactly the bounds on variables that have no name make the dump use a null pointer, and a system whose
    bounds, comparators and numbers fit is written with its feasible assignments and its objective. -/
theorem dump_right (sys : System V) :
    (sys.dump = none ↔ ∃ cons ∈ sys.constraints, isBound cons = true ∧ ∃ term ∈ cons.facts, term.1 ∉ sys.named) ∧
      (sys.Fits → sys.Right) := by
  refine ⟨?_,System.Fits.right⟩
  obtain ⟨names,-,mem,dumped⟩ := sys.dump_eq
  rw [dumped,Option.map_eq_none_iff]
  constructor
  · intro failed
    by_contra none
    have all : ∀ cons ∈ sys.constraints, isBound cons = true → ∀ term ∈ cons.facts, term.1 ∈ names :=
      fun cons inside bound term fact => (mem _).2 (by_contra fun unnamed => none ⟨cons,inside,bound,term,fact,unnamed⟩)
    rw [dumpBounds_some all] at failed
    cases failed
  · rintro ⟨cons,inside,bound,term,fact,unnamed⟩
    exact dumpBounds_none inside bound fact fun known => unnamed ((mem _).1 known)

end

/-- Two variables with a bound each, and a constraint on both. -/
theorem dump_right_two :
    let sys : System (Fin 2) := ⟨[(0,3),(1,1)],[⟨[(0,1)],.le,10⟩,⟨[(0,2),(1,-1)],.ge,0⟩,⟨[(1,1)],.ge,2⟩]⟩
    sys.Fits ∧ sys.Right := by
  intro sys
  have fits : sys.Fits := by
    refine ⟨by decide,by decide,by decide,by decide,by decide,fun v l last => ?_,fun v u last => ?_⟩
    · have lower : ∀ v, ∀ l ∈ (sys.boundsOf Comparator.isLower v).getLast?, 0 ≤ l ∧ ∀ c ∈ sys.boundsOf Comparator.isLower v, c ≤ l := by decide
      exact lower v l last
    · have upper : ∀ v, ∀ u ∈ (sys.boundsOf Comparator.isUpper v).getLast?, ∀ c ∈ sys.boundsOf Comparator.isUpper v, u ≤ c := by decide
      exact upper v u last
  exact ⟨fits,(dump_right sys).2 fits⟩

private theorem not_right {sys : System Unit} (p : Problem) (x : Int) (out : List Token) (dumped : sys.dump = some ([()],out))
    (reads : read out = some p) (differs : ¬(sys.Feasible (fun _ => x) ↔ p.Feasible (assigned [()] fun _ => x))) : ¬sys.Right := by
  rintro ⟨names,out',p',dumped',reads',feasible,-⟩
  obtain ⟨rfl,rfl⟩ := Prod.ext_iff.1 (Option.some.inj (dumped.symm.trans dumped'))
  obtain rfl := Option.some.inj (reads.symm.trans reads')
  exact differs ((feasible fun _ => x).trans ⟨And.right,fun feasible => ⟨fun v unnamed => absurd (.head _) unnamed,feasible⟩⟩)

/-- A variable that only has a bound, a bound that replaces a tighter one, a negative lower bound, a strict
    comparator, a constant of seven digits and a coefficient of 33 bits. -/
theorem dump_wrong :
    ¬(⟨[],[⟨[((),1)],.le,5⟩]⟩ : System Unit).Right ∧
    ¬(⟨[((),1)],[⟨[((),1)],.le,3⟩,⟨[((),1)],.le,5⟩]⟩ : System Unit).Right ∧
    ¬(⟨[((),1)],[⟨[((),1)],.ge,-5⟩]⟩ : System Unit).Right ∧
    ¬(⟨[((),1)],[⟨[((),1)],.lt,5⟩]⟩ : System Unit).Right ∧
    ¬(⟨[((),1)],[⟨[((),1)],.le,1234567⟩]⟩ : System Unit).Right ∧
    ¬(⟨[],[⟨[((),2 ^ 32)],.le,5⟩]⟩ : System Unit).Right := by
  refine ⟨?_,not_right _ 4 _ rfl rfl (by decide),not_right _ (-1) _ rfl rfl (by decide),not_right _ 5 _ rfl rfl (by decide),
    not_right _ 1234568 _ rfl rfl (by decide),not_right _ 1 _ rfl rfl (by decide)⟩
  rintro ⟨names,out,p,dumped,-⟩
  cases dumped

end Otawa.Ilp
