import Otawa.ContextualProperty
import Mathlib.Data.List.Dedup
import Mathlib.Algebra.GroupWithZero.Nat

/-!
Contextual loop bounds: maximum and total iterations of a loop by call path, the closest
call first. A lookup stops at the first call with a bound, and else gathers the bounds
below the last call it knows.
-/
namespace Otawa.LoopBound
open Otawa.Contextual (Address)

/-! ### The bounds -/

def undefined : Int := -1

/-- `data_t`, whose address is the key of the node. -/
structure Bounds where
  max : Int
  total : Int

/-- `ContextualLoopBound`: its tree, whose nodes have children of distinct addresses. -/
structure ContextualLoopBound where
  tree : KeyTree Address Bounds
  distinct : tree.Distinct

def none_ : Bounds := ⟨undefined,undefined⟩

def bound : Option Nat → Int
  | some m => m
  | none => undefined

def ContextualLoopBound.create (max total : Option Nat) : ContextualLoopBound :=
  ⟨KeyTree.leaf Address.null ⟨bound max,bound total⟩,KeyTree.distinct_leaf _ _⟩

/-- The new bound of `addMax` and of `addTotal`. -/
def raise (old m : Int) : Int := if old ≠ undefined ∧ old ≠ m then Max.max m old else m

namespace ContextualLoopBound

variable (b : ContextualLoopBound)

/-- `look`, and what the caller does with the data. -/
def look (path : List Address) (f : Bounds → Bounds) : ContextualLoopBound :=
  ⟨b.tree.alter none_ f path,b.distinct.alter path⟩

def addMax (path : List Address) (m : Nat) : ContextualLoopBound := b.look path fun d => { d with max := raise d.max m }

def addTotal (path : List Address) (t : Nat) : ContextualLoopBound := b.look path fun d => { d with total := raise d.total t }

end ContextualLoopBound

mutual
def lookMax : KeyTree Address Bounds → Int
  | .node _ d children => if d.max ≠ undefined then d.max else lookMaxs undefined children

/-- The loop of `lookMax`. -/
def lookMaxs (tmax : Int) : List (KeyTree Address Bounds) → Int
  | [] => tmax
  | child :: rest => lookMaxs (Max.max tmax (lookMax child)) rest
end

mutual
def lookTotal : KeyTree Address Bounds → Int
  | .node _ _ [] => undefined
  | .node _ _ (child :: rest) => lookTotals 0 (child :: rest)

/-- The loop of `lookTotal`, with its break. -/
def lookTotals (ttotal : Int) : List (KeyTree Address Bounds) → Int
  | [] => ttotal
  | child :: rest =>
    let ctotal := lookTotal child
    if ctotal = undefined then undefined else lookTotals (ttotal + ctotal) rest
end

/-- The loop of `findMax`. -/
def findMaxFrom (cur : KeyTree Address Bounds) (cmax : Int) : List Address → Int
  | [] => Max.max cmax (lookMax cur)
  | call :: path =>
    match cur.child call with
    | none => Max.max cmax (lookMax cur)
    | some child =>
      let cmax := if cmax = undefined ∨ child.data.max ≠ undefined ∧ child.data.max < cmax then child.data.max else cmax
      if cmax ≠ undefined then cmax else findMaxFrom child cmax path

/-- The loop of `findTotal`. -/
def findTotalFrom (cur : KeyTree Address Bounds) (ctotal : Int) : List Address → Int
  | [] => Max.max ctotal (lookTotal cur)
  | call :: path =>
    match cur.child call with
    | none => Max.max ctotal (lookTotal cur)
    | some child => if child.data.total ≠ undefined then child.data.total else findTotalFrom child ctotal path

def ContextualLoopBound.findMax (b : ContextualLoopBound) (path : List Address) : Int := findMaxFrom b.tree undefined path

def ContextualLoopBound.findTotal (b : ContextualLoopBound) (path : List Address) : Int := findTotalFrom b.tree undefined path

def boundAt (field : Bounds → Int) (t : KeyTree Address Bounds) (path : List Address) : Int :=
  ((t.dataAt path).map field).getD undefined

@[simp] theorem boundAt_nil (field : Bounds → Int) (t : KeyTree Address Bounds) : boundAt field t [] = field t.data := rfl

theorem boundAt_cons {field : Bounds → Int} {t : KeyTree Address Bounds} {call : Address} {path : List Address} :
    boundAt field t (call :: path) = ((t.child call).map fun c => boundAt field c path).getD undefined := by
  rw [boundAt,KeyTree.dataAt_cons]
  cases t.child call <;> rfl

theorem lookMax_eq (t : KeyTree Address Bounds) :
    lookMax t = if t.data.max ≠ undefined then t.data.max else lookMaxs undefined t.children := by
  cases t
  rw [lookMax]
  rfl

theorem lookMaxs_spec (tmax : Int) (children : List (KeyTree Address Bounds)) :
    tmax ≤ lookMaxs tmax children ∧ (∀ c ∈ children, lookMax c ≤ lookMaxs tmax children) ∧
      (lookMaxs tmax children = tmax ∨ ∃ c ∈ children, lookMaxs tmax children = lookMax c) := by
  induction children generalizing tmax with
  | nil => simp [lookMaxs]
  | cons child rest ih =>
    obtain ⟨start,each,attained⟩ := ih (Max.max tmax (lookMax child))
    rw [lookMaxs]
    refine ⟨by omega,fun c member => ?_,?_⟩
    · rcases List.mem_cons.mp member with rfl | member
      · omega
      · exact each c member
    · rcases attained with same | ⟨c,member,same⟩
      · rcases Int.le_total tmax (lookMax child) with less | less
        · exact .inr ⟨child,List.mem_cons_self ..,by omega⟩
        · exact .inl (by omega)
      · exact .inr ⟨c,List.mem_cons_of_mem _ member,same⟩

def Nearest (t : KeyTree Address Bounds) (path : List Address) : Prop :=
  boundAt Bounds.max t path ≠ undefined ∧ ∀ path', path' <+: path → boundAt Bounds.max t path' ≠ undefined → path' = path

theorem nearest_cons {t c : KeyTree Address Bounds} {call : Address} {path : List Address} (down : t.child call = some c) :
    Nearest t (call :: path) ↔ t.data.max = undefined ∧ Nearest c path := by
  have below (path : List Address) : boundAt Bounds.max t (call :: path) = boundAt Bounds.max c path := by
    rw [boundAt_cons,down]
    rfl
  constructor
  · rintro ⟨some,first⟩
    refine ⟨?_,below path ▸ some,fun path' start found => ?_⟩
    · by_contra found
      exact absurd (first [] (List.nil_prefix ..) found) (List.cons_ne_nil _ _).symm
    · exact (List.cons.inj (first (call :: path') (List.cons_prefix_cons.mpr ⟨rfl,start⟩) (below path' ▸ found))).2
  · rintro ⟨unbounded,some,first⟩
    refine ⟨(below path).symm ▸ some,fun path' start found => ?_⟩
    cases path' with
    | nil => exact absurd unbounded found
    | cons call' path' =>
      obtain ⟨rfl,shorter⟩ := List.cons_prefix_cons.mp start
      rw [below] at found
      rw [first path' shorter found]

theorem le_lookMax {t : KeyTree Address Bounds} {path : List Address} (nearest : Nearest t path) :
    boundAt Bounds.max t path ≤ lookMax t := by
  induction path generalizing t with
  | nil =>
    rw [lookMax_eq,if_pos (by exact nearest.1)]
    exact Int.le_refl _
  | cons call path ih =>
    cases down : t.child call with
    | none => exact absurd (by rw [boundAt_cons,down]; rfl) nearest.1
    | some c =>
      obtain ⟨unbounded,nearest⟩ := (nearest_cons down).mp nearest
      have least := (lookMaxs_spec undefined t.children).2.1 c (KeyTree.child_mem down)
      rw [lookMax_eq,if_neg (not_not.mpr unbounded),boundAt_cons,down]
      exact Int.le_trans (ih nearest) least

theorem lookMax_attained (t : KeyTree Address Bounds) (distinct : t.Distinct) :
    lookMax t = undefined ∨ ∃ path, Nearest t path ∧ lookMax t = boundAt Bounds.max t path := by
  rw [lookMax_eq]
  by_cases own : t.data.max = undefined
  · rw [if_neg (not_not.mpr own)]
    rcases (lookMaxs_spec undefined t.children).2.2 with same | ⟨c,member,same⟩
    · exact .inl same
    · have down := distinct.child_of_mem member
      rcases lookMax_attained c (distinct.child down) with none | ⟨path,nearest,found⟩
      · exact .inl (same.trans none)
      · refine .inr ⟨c.key :: path,(nearest_cons down).mpr ⟨own,nearest⟩,?_⟩
        rw [same,found,boundAt_cons,down]
        rfl
  · rw [if_pos own]
    refine .inr ⟨[],⟨own,fun path' start _ => List.prefix_nil.mp start⟩,rfl⟩
termination_by sizeOf t
decreasing_by
  cases t
  have := List.sizeOf_lt_of_mem member
  simp only [KeyTree.children_node,KeyTree.node.sizeOf_spec] at this ⊢
  omega

mutual
theorem lookTotal_eq : ∀ t, lookTotal t = undefined
  | .node _ _ [] => by rw [lookTotal]
  | .node _ _ (child :: rest) => by rw [lookTotal,lookTotals_eq child rest 0]

theorem lookTotals_eq : ∀ child rest ttotal, lookTotals ttotal (child :: rest) = undefined
  | child, _, _ => by rw [lookTotals,lookTotal_eq child]; rfl
end

/-! ### Lookups -/

/-- What a lookup of a maximum goes to: a bounded path with none before it but the empty
one, that leaves the query only where the query leaves the tree. -/
structure FirstBound (bounded made : List Address → Prop) (query path : List Address) : Prop where
  below : path ≠ []
  isBound : bounded path
  first : ∀ path', path' ≠ [] → path' <+: path → bounded path' → path' = path
  along : path <+: query ∨ ∀ start, start <+: query → made start → start <+: path

/-- The query goes into the tree. -/
def Enters (made : List Address → Prop) (query : List Address) : Prop := ∃ call, [call] <+: query ∧ made [call]

section Tree
variable (t : KeyTree Address Bounds)

def Bounded (path : List Address) : Prop := boundAt Bounds.max t path ≠ undefined

def IsNode (path : List Address) : Prop := (t.sub path).isSome

variable {t}
variable {c : KeyTree Address Bounds} {call : Address}

theorem bounded_cons (down : t.child call = some c) (path : List Address) :
    Bounded t (call :: path) ↔ Bounded c path := by
  rw [Bounded,Bounded,boundAt_cons,down]
  rfl

theorem isNode_cons (down : t.child call = some c) (path : List Address) :
    IsNode t (call :: path) ↔ IsNode c path := by
  rw [IsNode,IsNode,KeyTree.sub_cons,down]
  rfl

theorem FirstBound.starts {query path : List Address}
    (down : t.child call = some c) (goes : FirstBound (Bounded t) (IsNode t) (call :: query) path) : [call] <+: path := by
  rcases goes.along with before | all
  · cases path with
    | nil => exact absurd rfl goes.below
    | cons first path =>
      obtain ⟨rfl,_⟩ := List.cons_prefix_cons.mp before
      exact List.cons_prefix_cons.mpr ⟨rfl,List.nil_prefix ..⟩
  · exact all [call] (List.cons_prefix_cons.mpr ⟨rfl,List.nil_prefix ..⟩) ((isNode_cons down []).mpr rfl)

theorem firstBound_cons {query path : List Address}
    (down : t.child call = some c) (unbounded : c.data.max = undefined) :
    FirstBound (Bounded t) (IsNode t) (call :: query) (call :: path) ↔ FirstBound (Bounded c) (IsNode c) query path := by
  have skipped : ¬ Bounded t [call] := by rw [bounded_cons down]; exact not_not.mpr unbounded
  constructor
  · intro goes
    refine ⟨?_,(bounded_cons down path).mp goes.isBound,fun path' nonempty start found => ?_,?_⟩
    · rintro rfl
      exact skipped goes.isBound
    · exact (List.cons.inj (goes.first (call :: path') (List.cons_ne_nil _ _) (List.cons_prefix_cons.mpr ⟨rfl,start⟩)
        ((bounded_cons down path').mpr found))).2
    · refine goes.along.imp (fun before => (List.cons_prefix_cons.mp before).2) fun all start before node => ?_
      exact (List.cons_prefix_cons.mp (all (call :: start) (List.cons_prefix_cons.mpr ⟨rfl,before⟩)
        ((isNode_cons down start).mpr node))).2
  · intro goes
    refine ⟨List.cons_ne_nil _ _,(bounded_cons down path).mpr goes.isBound,fun path' nonempty start found => ?_,?_⟩
    · cases path' with
      | nil => exact absurd rfl nonempty
      | cons call' path' =>
        obtain ⟨rfl,shorter⟩ := List.cons_prefix_cons.mp start
        rw [bounded_cons down] at found
        have nonempty' : path' ≠ [] := by
          rintro rfl
          exact found unbounded
        rw [goes.first path' nonempty' shorter found]
    · refine goes.along.imp (fun before => List.cons_prefix_cons.mpr ⟨rfl,before⟩) fun all start before node => ?_
      cases start with
      | nil => exact List.nil_prefix ..
      | cons call' start =>
        obtain ⟨rfl,shorter⟩ := List.cons_prefix_cons.mp before
        exact List.cons_prefix_cons.mpr ⟨rfl,all start shorter ((isNode_cons down start).mp node)⟩

theorem firstBound_outside {query path : List Address} (unbounded : t.data.max = undefined)
    (outside : ¬ Enters (IsNode t) query) : FirstBound (Bounded t) (IsNode t) query path ↔ Nearest t path := by
  constructor
  · refine fun goes => ⟨goes.isBound,fun path' start found => goes.first path' ?_ start found⟩
    rintro rfl
    exact found unbounded
  · rintro ⟨some,first⟩
    have below : path ≠ [] := by
      rintro rfl
      exact some unbounded
    refine ⟨below,some,fun path' _ start found => first path' start found,.inr fun start before node => ?_⟩
    cases start with
    | nil => exact List.nil_prefix ..
    | cons call start =>
      refine absurd ⟨call,?_,?_⟩ outside
      · exact (List.cons_prefix_cons.mpr ⟨rfl,List.nil_prefix ..⟩ : [call] <+: call :: start).trans before
      · exact KeyTree.sub_prefix (List.cons_prefix_cons.mpr ⟨rfl,List.nil_prefix ..⟩) node

theorem not_enters_nil : ¬ Enters (IsNode t) [] := by
  rintro ⟨call,start,_⟩
  exact absurd (List.prefix_nil.mp start) (List.cons_ne_nil _ _)

theorem not_enters_cons (none : t.child call = none) (query : List Address) :
    ¬ Enters (IsNode t) (call :: query) := by
  rintro ⟨call',start,node⟩
  obtain ⟨rfl,_⟩ := List.cons_prefix_cons.mp start
  rw [IsNode,KeyTree.sub_cons,none] at node
  exact absurd node (by simp)

private theorem outside_spec (distinct : t.Distinct) {query : List Address} (unbounded : t.data.max = undefined)
    (outside : ¬ Enters (IsNode t) query) (least : ∀ path, undefined ≤ boundAt Bounds.max t path) :
    (∀ path, FirstBound (Bounded t) (IsNode t) query path → boundAt Bounds.max t path ≤ Max.max undefined (lookMax t)) ∧
      (Max.max undefined (lookMax t) = undefined ∨ ∃ path, FirstBound (Bounded t) (IsNode t) query path ∧
        Max.max undefined (lookMax t) = boundAt Bounds.max t path) := by
  refine ⟨fun path goes => ?_,?_⟩
  · have less := le_lookMax ((firstBound_outside unbounded outside).mp goes)
    omega
  · rcases lookMax_attained t distinct with none | ⟨path,nearest,found⟩
    · exact .inl (by omega)
    · have known := least path
      exact .inr ⟨path,(firstBound_outside unbounded outside).mpr nearest,by omega⟩

theorem findMaxFrom_cons {c : KeyTree Address Bounds} {call : Address} (down : t.child call = some c) (query : List Address) :
    findMaxFrom t undefined (call :: query) =
      if c.data.max ≠ undefined then c.data.max else findMaxFrom c undefined query := by
  rw [findMaxFrom,down]
  simp only [true_or,if_true]
  split
  · rfl
  next unbounded => rw [not_not.mp unbounded]

theorem findMaxFrom_spec (distinct : t.Distinct) {query : List Address}
    (goesOn : t.data.max = undefined ∨ Enters (IsNode t) query) (least : ∀ path, undefined ≤ boundAt Bounds.max t path) :
    (∀ path, FirstBound (Bounded t) (IsNode t) query path → boundAt Bounds.max t path ≤ findMaxFrom t undefined query) ∧
      (findMaxFrom t undefined query = undefined ∨
        ∃ path, FirstBound (Bounded t) (IsNode t) query path ∧ findMaxFrom t undefined query = boundAt Bounds.max t path) := by
  induction query generalizing t with
  | nil => exact outside_spec distinct (goesOn.resolve_right not_enters_nil) not_enters_nil least
  | cons call query ih =>
    cases down : t.child call with
    | none =>
      have outside := not_enters_cons down query
      rw [findMaxFrom,down]
      exact outside_spec distinct (goesOn.resolve_right outside) outside least
    | some c =>
      have below (path : List Address) : boundAt Bounds.max t (call :: path) = boundAt Bounds.max c path := by
        rw [boundAt_cons,down]
        rfl
      rw [findMaxFrom_cons down]
      by_cases unbounded : c.data.max = undefined
      · rw [if_neg (not_not.mpr unbounded)]
        obtain ⟨greatest,attained⟩ := ih (distinct.child down) (.inl unbounded) fun path => below path ▸ least (call :: path)
        refine ⟨fun path goes => ?_,attained.imp_right fun ⟨path,goes,found⟩ => ?_⟩
        · obtain ⟨path,rfl⟩ := goes.starts down
          exact below path ▸ greatest path ((firstBound_cons down unbounded).mp goes)
        · exact ⟨call :: path,(firstBound_cons down unbounded).mpr goes,by rw [below,found]⟩
      · -- the child has a bound, which hides what is below
        have isBound : Bounded t [call] := (bounded_cons down []).mpr unbounded
        have own : boundAt Bounds.max t [call] = c.data.max := below []
        rw [if_pos unbounded]
        refine ⟨fun path goes => ?_,.inr ⟨[call],⟨List.cons_ne_nil _ _,isBound,fun path' nonempty start _ => ?_,?_⟩,own.symm⟩⟩
        · have first : [call] = path := goes.first [call] (List.cons_ne_nil _ _) (goes.starts down) isBound
          exact first ▸ Int.le_of_eq own
        · cases path' with
          | nil => exact absurd rfl nonempty
          | cons call' path' =>
            obtain ⟨rfl,shorter⟩ := List.cons_prefix_cons.mp start
            rw [List.prefix_nil.mp shorter]
        · exact .inl (List.cons_prefix_cons.mpr ⟨rfl,List.nil_prefix ..⟩)

/-- A query that does not go into the tree gets the bound of the empty path. -/
theorem findMaxFrom_outside {query : List Address} (outside : ¬ Enters (IsNode t) query) (isBound : t.data.max ≠ undefined)
    (least : undefined ≤ t.data.max) : findMaxFrom t undefined query = t.data.max := by
  have own : lookMax t = t.data.max := by rw [lookMax_eq,if_pos isBound]
  cases query with
  | nil =>
    rw [findMaxFrom,own]
    omega
  | cons call query =>
    cases down : t.child call with
    | none =>
      rw [findMaxFrom,down]
      dsimp only
      omega
    | some c => exact absurd ⟨call,List.cons_prefix_cons.mpr ⟨rfl,List.nil_prefix ..⟩,(isNode_cons down []).mpr rfl⟩ outside

theorem findTotalFrom_spec (t : KeyTree Address Bounds) (query : List Address) :
    (∃ path, path ≠ [] ∧ path <+: query ∧ boundAt Bounds.total t path ≠ undefined ∧
        findTotalFrom t undefined query = boundAt Bounds.total t path) ∨
      (∀ path, path ≠ [] → path <+: query → boundAt Bounds.total t path = undefined) ∧
        findTotalFrom t undefined query = undefined := by
  induction query generalizing t with
  | nil =>
    refine .inr ⟨fun path nonempty start => absurd (List.prefix_nil.mp start) nonempty,?_⟩
    rw [findTotalFrom,lookTotal_eq]
    rfl
  | cons call query ih =>
    have split {path : List Address} (nonempty : path ≠ []) (start : path <+: call :: query) :
        ∃ more, path = call :: more ∧ more <+: query := by
      cases path with
      | nil => exact absurd rfl nonempty
      | cons call' more =>
        obtain ⟨rfl,shorter⟩ := List.cons_prefix_cons.mp start
        exact ⟨more,rfl,shorter⟩
    cases down : t.child call with
    | none =>
      refine .inr ⟨fun path nonempty start => ?_,?_⟩
      · obtain ⟨more,rfl,_⟩ := split nonempty start
        rw [boundAt_cons,down]
        rfl
      · rw [findTotalFrom,down,lookTotal_eq]
        rfl
    | some c =>
      have below (path : List Address) : boundAt Bounds.total t (call :: path) = boundAt Bounds.total c path := by
        rw [boundAt_cons,down]
        rfl
      rw [findTotalFrom,down]
      dsimp only
      by_cases own : c.data.total = undefined
      · rw [if_neg (not_not.mpr own)]
        rcases ih c with ⟨path,_,start,some,found⟩ | ⟨none,found⟩
        · exact .inl ⟨call :: path,List.cons_ne_nil _ _,List.cons_prefix_cons.mpr ⟨rfl,start⟩,below path ▸ some,
            below path ▸ found⟩
        · refine .inr ⟨fun path nonempty start => ?_,found⟩
          obtain ⟨more,rfl,shorter⟩ := split nonempty start
          rw [below]
          cases more with
          | nil => exact own
          | cons call' more => exact none _ (List.cons_ne_nil _ _) shorter
      · rw [if_pos own]
        exact .inl ⟨[call],List.cons_ne_nil _ _,List.cons_prefix_cons.mpr ⟨rfl,List.nil_prefix ..⟩,
          by rw [below]; exact own,(below []).symm⟩

end Tree

/-! ### Runs -/

inductive Field where
  | max
  | total
  deriving DecidableEq

def Bounds.get : Field → Bounds → Int
  | .max => Bounds.max
  | .total => Bounds.total

@[simp] theorem Bounds.get_max : Bounds.get .max = Bounds.max := rfl
@[simp] theorem Bounds.get_total : Bounds.get .total = Bounds.total := rfl

/-- A call of `addMax` or of `addTotal`. -/
inductive Call where
  | add (field : Field) (path : List Address) (m : Nat)

def Call.path : Call → List Address
  | .add _ path _ => path

def ContextualLoopBound.apply (b : ContextualLoopBound) : Call → ContextualLoopBound
  | .add .max path m => b.addMax path m
  | .add .total path t => b.addTotal path t

def build (init : Field → Option Nat) (calls : List Call) : ContextualLoopBound :=
  calls.foldl ContextualLoopBound.apply (ContextualLoopBound.create (init .max) (init .total))

/-- A bound given to the constructor or to a call. -/
def Recorded (init : Field → Option Nat) (calls : List Call) (field : Field) (path : List Address) (m : Nat) : Prop :=
  path = [] ∧ init field = some m ∨ Call.add field path m ∈ calls

/-- A path given to a call goes through this one. -/
def Made (calls : List Call) (path : List Address) : Prop := path = [] ∨ ∃ call ∈ calls, path <+: call.path

def Call.alteration : Call → List Address × (Bounds → Bounds)
  | .add .max path m => (path,fun d => { d with max := raise d.max m })
  | .add .total path t => (path,fun d => { d with total := raise d.total t })

theorem tree_build (init : Field → Option Nat) (calls : List Call) : (build init calls).tree =
    KeyTree.alters none_ (KeyTree.leaf Address.null ⟨bound (init .max),bound (init .total)⟩) (calls.map Call.alteration) := by
  have run (b : ContextualLoopBound) : (calls.foldl ContextualLoopBound.apply b).tree =
      KeyTree.alters none_ b.tree (calls.map Call.alteration) := by
    induction calls generalizing b with
    | nil => rfl
    | cons call calls ih =>
      rw [List.foldl_cons,ih]
      cases call with
      | add field path m => cases field <;> rfl
  exact run _

/-- The greatest bound of those recorded, undefined when there is none. -/
structure Best (d : Int) (recorded : Nat → Prop) : Prop where
  greatest : ∀ m, recorded m → (m : Int) ≤ d
  attained : d = undefined ∨ ∃ m, recorded m ∧ d = m

variable {recorded : Nat → Prop}

theorem Best.least {d : Int} (best : Best d recorded) : undefined ≤ d := by
  unfold undefined
  rcases best.attained with none | ⟨m,_,same⟩
  · exact Int.le_of_eq none.symm
  · omega

theorem Best.some_iff {d : Int} (best : Best d recorded) : d ≠ undefined ↔ ∃ m, recorded m := by
  constructor
  · exact fun some => (best.attained.resolve_left some).imp fun m found => found.1
  · rintro ⟨m,found⟩ none
    have less := best.greatest m found
    rw [none,undefined] at less
    omega

theorem best_bound (m : Option Nat) : Best (bound m) fun m' => m = some m' := by
  cases m with
  | none => exact ⟨fun m found => (Option.some_ne_none m found.symm).elim,.inl rfl⟩
  | some m =>
    refine ⟨fun m' found => ?_,.inr ⟨m,rfl,rfl⟩⟩
    rw [← Option.some.inj found]
    exact Int.le_refl _

theorem Best.raise {d : Int} (best : Best d recorded) (m : Nat) :
    Best (raise d m) fun m' => recorded m' ∨ m' = m := by
  unfold LoopBound.raise
  split
  next both =>
    obtain ⟨m',found,same⟩ := best.attained.resolve_left both.1
    refine ⟨?_,.inr ?_⟩
    · rintro m'' (old | rfl)
      · have less := best.greatest m'' old
        omega
      · omega
    · rcases Nat.le_total m m' with less | less
      · exact ⟨m',.inl found,by omega⟩
      · exact ⟨m,.inr rfl,by omega⟩
  next one =>
    refine ⟨?_,.inr ⟨m,.inr rfl,rfl⟩⟩
    rintro m'' (old | rfl)
    · have some := best.some_iff.mpr ⟨m'',old⟩
      have same : d = m := by
        by_contra other
        exact one ⟨some,other⟩
      exact same ▸ best.greatest m'' old
    · exact Int.le_refl _

theorem path_alteration (call : Call) : call.alteration.1 = call.path := by
  obtain ⟨field,path,m⟩ := call
  cases field <;> rfl

theorem get_alteration (field' field : Field) (path : List Address) (m : Nat) (d : Bounds) :
    ((Call.add field' path m).alteration.2 d).get field = if field' = field then raise (d.get field) m else d.get field := by
  cases field' <;> cases field <;> rfl

theorem best_altered {field : Field} {path : List Address} {d : Bounds}
    (best : Best (d.get field) recorded) (calls : List Call) :
    Best ((KeyTree.altered path d (calls.map Call.alteration)).get field)
      fun m => recorded m ∨ Call.add field path m ∈ calls := by
  induction calls generalizing d recorded with
  | nil => simpa using best
  | cons call calls ih =>
    obtain ⟨field',path',m'⟩ := call
    rw [List.map_cons,KeyTree.altered_cons,path_alteration,Call.path]
    by_cases own : path' = path ∧ field' = field
    · obtain ⟨rfl,rfl⟩ := own
      have raised : Best (((Call.add field' path' m').alteration.2 d).get field') fun m => recorded m ∨ m = m' := by
        rw [get_alteration,if_pos rfl]
        exact best.raise m'
      rw [if_pos rfl]
      simpa [or_assoc] using ih raised
    · have other (m : Nat) : Call.add field path m ≠ Call.add field' path' m' := by
        rintro ⟨⟩
        exact own ⟨rfl,rfl⟩
      have kept : Best ((if path' = path then (Call.add field' path' m').alteration.2 d else d).get field) recorded := by
        split
        next same => rwa [get_alteration,if_neg fun equal => own ⟨same,equal⟩]
        next => exact best
      simpa [other] using ih kept

section Build
variable (init : Field → Option Nat) (calls : List Call)

theorem through_iff {path : List Address} :
    (path = [] ∨ ∃ op ∈ calls.map Call.alteration, path <+: op.1) ↔ Made calls path := by
  simp [Made,path_alteration]

theorem isNode_build (path : List Address) : IsNode (build init calls).tree path ↔ Made calls path := by
  rw [IsNode,← KeyTree.isSome_dataAt,tree_build,KeyTree.dataAt_alters_leaf,← through_iff]
  split <;> simp_all

theorem best_build (field : Field) (path : List Address) :
    Best (boundAt (Bounds.get field) (build init calls).tree path) (Recorded init calls field path) := by
  rw [boundAt,tree_build,KeyTree.dataAt_alters_leaf]
  split
  next =>
    have start : Best ((if path = [] then (⟨bound (init .max),bound (init .total)⟩ : Bounds) else none_).get field)
        fun m => path = [] ∧ init field = some m := by
      by_cases empty : path = []
      · rw [if_pos empty]
        cases field with
        | max => simpa [empty] using best_bound (init .max)
        | total => simpa [empty] using best_bound (init .total)
      · rw [if_neg empty]
        cases field <;> exact ⟨fun m found => absurd found.1 empty,.inl rfl⟩
    exact best_altered start calls
  next outside =>
    have unmade := (through_iff calls).not.mp outside
    refine ⟨fun m found => ?_,.inl rfl⟩
    rcases found with ⟨empty,_⟩ | called
    · exact absurd (.inl empty) unmade
    · exact absurd (.inr ⟨_,called,List.prefix_refl _⟩) unmade

def HasBound (field : Field) (path : List Address) : Prop := ∃ m, Recorded init calls field path m

theorem bounded_build : Bounded (build init calls).tree = HasBound init calls .max :=
  funext fun path => propext (best_build init calls .max path).some_iff

theorem isNode_build_eq : IsNode (build init calls).tree = Made calls := funext fun path => propext (isNode_build init calls path)

/-- A maximum is at least every one recorded for a path compatible with the query that has
no shorter path with a maximum on the query. -/
def MaxRight (query : List Address) : Prop :=
  ∀ path m, Recorded init calls .max path m → path <+: query ∨ query <+: path →
    (∀ path', HasBound init calls .max path' → path'.length < path.length → ¬ path' <+: query) →
    (m : Int) ≤ (build init calls).findMax query

/-- The condition for it: a bound the lookup goes to is as great, when the empty path has a
maximum and the query goes into the tree, and when no path of the query has a maximum. -/
structure MaxClear (query : List Address) : Prop where
  root : Enters (Made calls) query → ∀ m, Recorded init calls .max [] m →
    ∃ path m', FirstBound (HasBound init calls .max) (Made calls) query path ∧ Recorded init calls .max path m' ∧ m ≤ m'
  below : (∀ path, HasBound init calls .max path → ¬ path <+: query) →
    ∀ path m, Recorded init calls .max path m → query <+: path →
      ∃ path' m', FirstBound (HasBound init calls .max) (Made calls) query path' ∧
        Recorded init calls .max path' m' ∧ m ≤ m'

theorem findMax_right_iff (query : List Address) : MaxRight init calls query ↔ MaxClear init calls query := by
  have best := best_build init calls .max
  have distinct := (build init calls).distinct
  have least (path : List Address) : undefined ≤ boundAt Bounds.max (build init calls).tree path := (best path).least
  have spec (goesOn : ¬ HasBound init calls .max [] ∨ Enters (Made calls) query) := by
    have goesOn' : (build init calls).tree.data.max = undefined ∨ Enters (IsNode (build init calls).tree) query := by
      rw [isNode_build_eq]
      exact goesOn.imp_left fun free => by_contra fun some => free ((best []).some_iff.mp some)
    exact findMaxFrom_spec distinct goesOn' least
  rw [bounded_build,isNode_build_eq] at spec
  -- what the lookup finds is recorded, for a path it goes to
  have reached (goesOn : ¬ HasBound init calls .max [] ∨ Enters (Made calls) query) {m : Nat}
      (less : (m : Int) ≤ (build init calls).findMax query) : ∃ path m', FirstBound (HasBound init calls .max) (Made calls)
        query path ∧ Recorded init calls .max path m' ∧ m ≤ m' := by
    rcases (spec goesOn).2 with none | ⟨path,goes,found⟩
    · rw [ContextualLoopBound.findMax,none,undefined] at less
      omega
    · rw [ContextualLoopBound.findMax,found] at less
      obtain ⟨m',recorded,same⟩ := (best path).attained.resolve_left ((best path).some_iff.mpr goes.isBound)
      exact ⟨path,m',goes,recorded,by rw [Bounds.get] at same; omega⟩
  have above (goesOn : ¬ HasBound init calls .max [] ∨ Enters (Made calls) query) {path : List Address} {m : Nat}
      (goes : FirstBound (HasBound init calls .max) (Made calls) query path) (recorded : Recorded init calls .max path m) :
      (m : Int) ≤ (build init calls).findMax query :=
    Int.le_trans ((best path).greatest m recorded) ((spec goesOn).1 path goes)
  constructor
  · intro right
    refine ⟨fun enters m recorded => reached (.inr enters) ?_,fun free path m recorded extends_ => ?_⟩
    · exact right [] m recorded (.inl (List.nil_prefix ..)) fun _ _ shorter => absurd shorter (Nat.not_lt_zero _)
    · refine reached (.inl fun bounded => free [] bounded (List.nil_prefix ..)) ?_
      exact right path m recorded (.inr extends_) fun path' bounded _ => free path' bounded
  · intro clear path m recorded compatible shortest
    by_cases base : HasBound init calls .max []
    · -- no other path than the empty one is asked for
      obtain rfl : path = [] := by
        by_contra longer
        exact shortest [] base (List.length_pos_iff.mpr longer) (List.nil_prefix ..)
      by_cases enters : Enters (Made calls) query
      · obtain ⟨path',m',goes,recorded',less⟩ := clear.root enters m recorded
        exact Int.le_trans (by omega) (above (.inr enters) goes recorded')
      · have isBound : (build init calls).tree.data.max ≠ undefined := (best []).some_iff.mpr base
        have outside : ¬ Enters (IsNode (build init calls).tree) query := by rwa [isNode_build_eq]
        rw [ContextualLoopBound.findMax,findMaxFrom_outside outside isBound (least [])]
        exact (best []).greatest m recorded
    · have nonempty : path ≠ [] := by
        rintro rfl
        exact base ⟨m,recorded⟩
      -- a path of the query is the first one with a bound
      have onQuery (before : path <+: query) : (m : Int) ≤ (build init calls).findMax query := by
        refine above (.inl base) ⟨nonempty,⟨m,recorded⟩,fun path' _ start bounded => ?_,.inl before⟩ recorded
        by_contra other
        have shorter := Nat.lt_of_le_of_ne start.length_le fun same => other (start.eq_of_length same)
        exact shortest path' bounded shorter (start.trans before)
      rcases compatible with before | extends_
      · exact onQuery before
      · by_cases free : ∀ path', HasBound init calls .max path' → ¬ path' <+: query
        · obtain ⟨path',m',goes,recorded',less⟩ := clear.below free path m recorded extends_
          exact Int.le_trans (by omega) (above (.inl base) goes recorded')
        · simp only [not_forall,not_not] at free
          obtain ⟨path',bounded,before⟩ := free
          have long : path.length ≤ path'.length := Nat.le_of_not_lt fun shorter => shortest path' bounded shorter before
          have same : path' = path := (before.trans extends_).eq_of_length_le long
          exact onQuery (same ▸ before)

/-- The recorded paths that extend the query and that no other recorded path extends. -/
def maximal (query : List Address) : List (List Address) :=
  (calls.map Call.path).dedup.filter fun path => query <+: path ∧ ∀ call ∈ calls, path <+: call.path → call.path = path

def totalOf (path : List Address) : Nat :=
  (calls.filterMap fun
    | .add .total path' t => if path' = path then some t else none
    | .add .max _ _ => none).foldl Nat.max 0

/-- A total recorded for a path of the query is found, one of those of its paths; without
one, the total is the sum of those below when they are all known. -/
structure TotalRight (query : List Address) : Prop where
  found : (∃ path, HasBound init calls .total path ∧ path <+: query) →
    ∃ path t, Recorded init calls .total path t ∧ path <+: query ∧ (build init calls).findTotal query = t
  summed : (¬ ∃ path, HasBound init calls .total path ∧ path <+: query) → maximal calls query ≠ [] →
    (∀ path ∈ maximal calls query, HasBound init calls .total path) →
    (build init calls).findTotal query = ((maximal calls query).map (totalOf calls)).sum

/-- The condition for it: a total is recorded for a path of the query that is not empty, or
none is and some total below is not known. -/
def TotalClear (query : List Address) : Prop :=
  (∃ path, path ≠ [] ∧ HasBound init calls .total path ∧ path <+: query) ∨
    (¬ ∃ path, HasBound init calls .total path ∧ path <+: query) ∧
      (maximal calls query = [] ∨ ∃ path ∈ maximal calls query, ¬ HasBound init calls .total path)

theorem findTotal_right_iff (query : List Address) : TotalRight init calls query ↔ TotalClear init calls query := by
  have best := best_build init calls .total
  have counted (t : Nat) : (t : Int) ≠ undefined := by
    unfold undefined
    omega
  rcases findTotalFrom_spec (build init calls).tree query with ⟨path,nonempty,before,some,found⟩ | ⟨none,undefined_⟩
  · -- the first total on the path is recorded
    have bounded : HasBound init calls .total path := (best path).some_iff.mp some
    obtain ⟨t,recorded,same⟩ := (best path).attained.resolve_left some
    refine ⟨fun _ => .inl ⟨path,nonempty,bounded,before⟩,fun _ => ⟨fun _ => ⟨path,t,recorded,before,found.trans same⟩,?_⟩⟩
    exact fun free => absurd ⟨path,bounded,before⟩ free
  · have unbounded {path : List Address} (nonempty : path ≠ []) (before : path <+: query) : ¬ HasBound init calls .total path :=
      fun bounded => (best path).some_iff.mpr bounded (none path nonempty before)
    constructor
    · intro right
      have free : ¬ ∃ path, HasBound init calls .total path ∧ path <+: query := by
        intro known
        obtain ⟨_,t,_,_,found⟩ := right.found known
        exact counted t (found.symm.trans undefined_)
      refine .inr ⟨free,?_⟩
      by_contra all
      simp only [not_or,not_exists,not_and,not_not] at all
      exact counted _ ((right.summed free all.1 all.2).symm.trans undefined_)
    · rintro (⟨path,nonempty,bounded,before⟩ | ⟨free,unknown⟩)
      · exact absurd bounded (unbounded nonempty before)
      · refine ⟨fun known => absurd known free,fun _ some all => ?_⟩
        obtain ⟨path,member,unbounded⟩ := unknown.resolve_left some
        exact absurd (all path member) unbounded

/-- For every run and every query, both lookups are right exactly under their conditions. -/
theorem bounds_right_iff (query : List Address) : MaxRight init calls query ∧ TotalRight init calls query ↔
    MaxClear init calls query ∧ TotalClear init calls query :=
  and_congr (findMax_right_iff init calls query) (findTotal_right_iff init calls query)

end Build

/-- The total of a path is not found from a shorter one: a leaf has no total of its own. -/
theorem leaf_total_lost : ¬ ∀ (calls : List Call) (query : List Address),
    MaxRight (fun _ => none) calls query ∧ TotalRight (fun _ => none) calls query := by
  intro all
  have sum := (all [.add .total [⟨0,4⟩] 5] []).2.summed (by simp [HasBound,Recorded]) (by decide)
    (by simp [maximal,HasBound,Recorded,Call.path])
  exact absurd sum (by decide)

/-- The total is found for the path itself. -/
example : (build (fun _ => none) [.add .total [⟨0,4⟩] 5]).findTotal [⟨0,4⟩] = 5 := by decide

end Otawa.LoopBound
