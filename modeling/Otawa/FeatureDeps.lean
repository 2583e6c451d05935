import Mathlib.Logic.Relation
import Mathlib.Logic.Function.Basic
import Mathlib.Data.List.Nodup
import Mathlib.Data.Option.Basic

/-!
The graph of the provided features of a workspace. Each provided feature has a node linked
with the nodes of the features it was provided from. Invalidation deletes the dependents of
a feature before it, from a copy of their list; the youngest dependent comes first in the
list, so that no node is deleted before its turn.
-/
namespace Otawa.Feature

variable {F : Type} [DecidableEq F]

/-- `FeatureDependency`; nodes point to one another by their place in the heap. -/
structure FeatureDependency (F : Type) where
  feature : F
  parents : List Nat
  children : List Nat

/-- The part of `WorkSpace` about features; a deleted node leaves `none`, and no place is
    taken twice. -/
@[ext] structure WorkSpace (F : Type) where
  featMap : F → Option Nat
  heap : Nat → Option (FeatureDependency F)
  next : Nat

namespace WorkSpace

def empty : WorkSpace F := ⟨fun _ => none,fun _ => none,0⟩

variable (ws : WorkSpace F)

def isProvided (feature : F) : Bool := (ws.featMap feature).isSome

/-- A change of a node, `none` for a deleted one. -/
def modify (dep : Nat) (change : FeatureDependency F → FeatureDependency F) : Option (WorkSpace F) :=
  (ws.heap dep).map fun node => { ws with heap := Function.update ws.heap dep (some (change node)) }

/-- `newFeatDep`, `none` when its assertion fails. -/
def newFeatDep (feature : F) : Option (WorkSpace F) :=
  if ws.featMap feature = none then some {
    featMap := Function.update ws.featMap feature (some ws.next)
    heap := Function.update ws.heap ws.next (some ⟨feature,[],[]⟩)
    next := ws.next + 1 }
  else none

/-- `children.add(dep)`, at the front of the list. -/
def addChild (dep : Nat) (node : FeatureDependency F) : FeatureDependency F := { node with children := dep :: node.children }

def add (dep parent : Nat) : Option (WorkSpace F) := do
  let ws ← ws.modify parent (addChild dep)
  ws.modify dep fun node => { node with parents := parent :: node.parents }

/-- The body of the loop of `provide`, with its assertion. -/
def addRequired (pdep : Nat) (ws : WorkSpace F) (rfeature : F) : Option (WorkSpace F) := do
  let parent ← ws.featMap rfeature
  ws.add pdep parent

/-- `provide`; no list of required features is an empty list. -/
def provide (feature : F) (required : List F) : Option (WorkSpace F) :=
  if ws.isProvided feature then some ws
  else do
    let ws ← ws.newFeatDep feature
    let pdep ← ws.featMap feature
    if feature ∈ required then none else required.foldlM (addRequired pdep) ws

/-- `children.remove(this)`: `SLList::remove` goes on after a match. -/
def removeChild (dep : Nat) (node : FeatureDependency F) : FeatureDependency F :=
  { node with children := node.children.filter (· ≠ dep) }

def unlink (dep : Nat) (ws : WorkSpace F) (parent : Nat) : Option (WorkSpace F) := ws.modify parent (removeChild dep)

/-- `delete dep`: the destructor with its assertion, then the end of the node. -/
def delete (dep : Nat) : Option (WorkSpace F) := do
  let node ← ws.heap dep
  if node.children = [] then
    let ws ← node.parents.foldlM (unlink dep) ws
    some { ws with heap := Function.update ws.heap dep none }
  else none

def delFeatDep (feature : F) : Option (WorkSpace F) := do
  let dep ← ws.featMap feature
  WorkSpace.delete { ws with featMap := Function.update ws.featMap feature none } dep

/-- The body of the second loop of `invalidate`; the dependents were copied before. -/
def invalidateDependent (invalidate : WorkSpace F → F → Option (WorkSpace F)) (ws : WorkSpace F) (dep : Nat) :
    Option (WorkSpace F) := do
  let node ← ws.heap dep
  invalidate ws node.feature

/-- `invalidate` with a bound on its depth. -/
def invalidateLoop : Nat → WorkSpace F → F → Option (WorkSpace F)
  | 0, _, _ => none
  | depth + 1, ws, feature =>
    match ws.featMap feature with
    | none => some ws
    | some fdep => do
      let node ← ws.heap fdep
      let ws ← node.children.foldlM (invalidateDependent (invalidateLoop depth)) ws
      ws.delFeatDep feature

/-- `invalidate`; the calls go from older to younger nodes, so this depth is enough. -/
def invalidate (feature : F) : Option (WorkSpace F) := invalidateLoop (ws.next + 1) ws feature

/-! ### The links -/

/-- What the operations keep: nodes and map agree, links are recorded on both ends, and
    dependents are younger, the youngest first. -/
structure Linked (ws : WorkSpace F) : Prop where
  mapped : ∀ f p, ws.featMap f = some p ↔ ∃ node, ws.heap p = some node ∧ node.feature = f
  bound : ∀ p node, ws.heap p = some node → p < ws.next
  parents : ∀ p node, ws.heap p = some node → ∀ q ∈ node.parents, q < p ∧ ∃ other, ws.heap q = some other ∧ p ∈ other.children
  children : ∀ p node, ws.heap p = some node → ∀ q ∈ node.children, ∃ other, ws.heap q = some other ∧ p ∈ other.parents
  sorted : ∀ p node, ws.heap p = some node → node.children.Pairwise (· > ·)

def Parent (ws : WorkSpace F) (q p : Nat) : Prop := ∃ node, ws.heap q = some node ∧ p ∈ node.parents

def Dependent (ws : WorkSpace F) (q p : Nat) : Prop := Relation.ReflTransGen ws.Parent q p

open Classical in
noncomputable def without (ws : WorkSpace F) (gone : Nat → Prop) : WorkSpace F where
  featMap f := (ws.featMap f).filter fun p => ¬ gone p
  heap p := if gone p then none
    else (ws.heap p).map fun node => { node with children := node.children.filter fun c => ¬ gone c }
  next := ws.next

section Without
variable {ws : WorkSpace F} {gone other : Nat → Prop} {p q : Nat} {node : FeatureDependency F}

omit [DecidableEq F] in
theorem featMap_without {f : F} : (ws.without gone).featMap f = some p ↔ ws.featMap f = some p ∧ ¬ gone p := by
  simp [without,Option.filter_eq_some_iff]

open Classical in
omit [DecidableEq F] in
theorem heap_without : (ws.without gone).heap p = some node ↔ ¬ gone p ∧
    ∃ old, ws.heap p = some old ∧ node = { old with children := old.children.filter fun c => ¬ gone c } := by
  by_cases lost : gone p
  · simp [without,lost]
  · simp [without,lost,eq_comm]

omit [DecidableEq F] in
theorem without_congr (same : ∀ p, gone p ↔ other p) : ws.without gone = ws.without other := by
  rw [show gone = other from funext fun p => propext (same p)]

open Classical in
omit [DecidableEq F] in
theorem without_without : (ws.without gone).without other = ws.without fun p => gone p ∨ other p := by
  have filters (l : List Nat) (both : Nat → Prop) (either : ∀ c, both c ↔ gone c ∨ other c) :
      (l.filter fun c => ¬ gone c).filter (fun c => ¬ other c) = l.filter fun c => ¬ both c := by
    rw [List.filter_filter]
    refine List.filter_congr fun c _ => ?_
    by_cases first : gone c <;> by_cases second : other c <;> simp [either,first,second]
  refine WorkSpace.ext ?_ ?_ rfl
  · funext f
    refine Option.ext fun p => ?_
    rw [featMap_without,featMap_without,featMap_without,and_assoc,not_or]
  · funext p
    refine Option.ext fun node => ?_
    rw [heap_without,heap_without]
    constructor
    · rintro ⟨kept,middle,here,rfl⟩
      obtain ⟨before,old,place,rfl⟩ := heap_without.mp here
      exact ⟨not_or.mpr ⟨before,kept⟩,old,place,by rw [← filters _ _ fun _ => Iff.rfl]⟩
    · rintro ⟨kept,old,place,rfl⟩
      obtain ⟨before,kept⟩ := not_or.mp kept
      exact ⟨kept,_,heap_without.mpr ⟨before,old,place,rfl⟩,by rw [← filters _ _ fun _ => Iff.rfl]⟩

omit [DecidableEq F] in
theorem without_none : ws.without (fun _ => False) = ws := by
  have all {α : Type} (o : Option α) : o.filter (fun _ => true) = o := by cases o <;> rfl
  simp [without,all]

omit [DecidableEq F] in
theorem parent_without : (ws.without gone).Parent q p ↔ ws.Parent q p ∧ ¬ gone q := by
  constructor
  · rintro ⟨node,here,member⟩
    obtain ⟨kept,old,place,rfl⟩ := heap_without.mp here
    exact ⟨⟨old,place,member⟩,kept⟩
  · rintro ⟨⟨node,here,member⟩,kept⟩
    exact ⟨_,heap_without.mpr ⟨kept,node,here,rfl⟩,member⟩

variable (closed : ∀ q p, ws.Parent q p → gone p → gone q)
include closed

omit [DecidableEq F] in
theorem dependent_without (kept : ¬ gone q) : (ws.without gone).Dependent q p ↔ ws.Dependent q p := by
  constructor
  · exact fun path => path.lift id fun _ _ link => (parent_without.mp link).1
  · intro path
    induction path using Relation.ReflTransGen.head_induction_on with
    | refl => exact .refl
    | head link _ ih => exact .head (parent_without.mpr ⟨link,kept⟩) (ih fun lost => kept (closed _ _ link lost))

open Classical in
omit [DecidableEq F] in
theorem linked_without (linked : ws.Linked) : (ws.without gone).Linked where
  mapped f p := by
    rw [featMap_without,linked.mapped]
    constructor
    · rintro ⟨⟨node,here,same⟩,kept⟩
      exact ⟨_,heap_without.mpr ⟨kept,node,here,rfl⟩,same⟩
    · rintro ⟨node,here,same⟩
      obtain ⟨kept,old,place,rfl⟩ := heap_without.mp here
      exact ⟨⟨old,place,same⟩,kept⟩
  bound p node here := by
    obtain ⟨_,old,place,_⟩ := heap_without.mp here
    exact linked.bound p old place
  parents p node here q member := by
    obtain ⟨kept,old,place,rfl⟩ := heap_without.mp here
    obtain ⟨older,parent,found,back⟩ := linked.parents p old place q member
    have stays : ¬ gone q := fun lost => kept (closed p q ⟨old,place,member⟩ lost)
    exact ⟨older,_,heap_without.mpr ⟨stays,parent,found,rfl⟩,List.mem_filter.mpr ⟨back,decide_eq_true kept⟩⟩
  children p node here q member := by
    obtain ⟨kept,old,place,rfl⟩ := heap_without.mp here
    obtain ⟨member,stays⟩ := List.mem_filter.mp member
    obtain ⟨child,found,back⟩ := linked.children p old place q member
    exact ⟨_,heap_without.mpr ⟨of_decide_eq_true stays,child,found,rfl⟩,back⟩
  sorted p node here := by
    obtain ⟨_,old,place,rfl⟩ := heap_without.mp here
    exact (linked.sorted p old place).filter _

end Without

/-! ### Invalidation -/

section Invalidate
variable {ws : WorkSpace F} {f : F} {p q : Nat}

omit [DecidableEq F] in
theorem Linked.parent_lt (linked : ws.Linked) (link : ws.Parent q p) : p < q := by
  obtain ⟨node,here,member⟩ := link
  exact (linked.parents q node here p member).1

omit [DecidableEq F] in
theorem Linked.dependent_le (linked : ws.Linked) (path : ws.Dependent q p) : p ≤ q := by
  induction path using Relation.ReflTransGen.head_induction_on with
  | refl => exact Nat.le_refl p
  | head link _ ih => exact Nat.le_trans ih (Nat.le_of_lt (linked.parent_lt link))

omit [DecidableEq F] in
theorem Linked.dependent_iff (linked : ws.Linked) {node : FeatureDependency F} (here : ws.heap p = some node) :
    ws.Dependent q p ↔ (∃ c ∈ node.children, ws.Dependent q c) ∨ q = p := by
  constructor
  · intro path
    rcases Relation.ReflTransGen.cases_tail path with same | ⟨c,path,child,place,member⟩
    · exact Or.inr same.symm
    · obtain ⟨_,other,found,back⟩ := linked.parents c child place p member
      obtain rfl := Option.some.inj (here.symm.trans found)
      exact Or.inl ⟨c,back,path⟩
  · rintro (⟨c,member,path⟩ | rfl)
    · obtain ⟨child,place,back⟩ := linked.children p node here c member
      exact path.tail ⟨child,place,back⟩
    · exact .refl

omit [DecidableEq F] in
private theorem unlinkAll_eq (dep : Nat) (parents : List Nat) (live : ∀ q ∈ parents, ws.heap q ≠ none) :
    parents.foldlM (unlink dep) ws = some ⟨ws.featMap,
      fun q => if q ∈ parents then (ws.heap q).map (removeChild dep) else ws.heap q,ws.next⟩ := by
  induction parents generalizing ws with
  | nil => simp
  | cons q rest ih =>
    obtain ⟨node,here⟩ := Option.ne_none_iff_exists'.mp (live q (by simp))
    rw [List.foldlM_cons,unlink,modify,here,Option.map_some,Option.bind_eq_bind,Option.bind_some,ih]
    · congr 2
      funext x
      by_cases same : x = q
      · subst same
        by_cases later : x ∈ rest <;> simp [later,here,removeChild,List.filter_filter]
      · simp [same]
    · intro x member
      by_cases same : x = q
      · subst same; simp
      · simpa [Function.update_of_ne same] using live x (by simp [member])

open Classical in
omit [DecidableEq F] in
theorem heap_without_ne (kept : q ≠ p) :
    (ws.without fun q => q = p).heap q = (ws.heap q).map (removeChild p) := by
  have filters (l : List Nat) (gone : Nat → Prop) (one : ∀ c, gone c ↔ c = p) : (l.filter fun c => ¬ gone c) = l.filter (· ≠ p) := by
    refine List.filter_congr fun c _ => ?_
    by_cases same : c = p <;> simp [one,same]
  refine Option.ext fun node => ?_
  rw [heap_without,Option.map_eq_some_iff]
  constructor
  · rintro ⟨_,old,here,rfl⟩
    exact ⟨old,here,by rw [filters _ _ fun _ => Iff.rfl]; rfl⟩
  · rintro ⟨old,here,rfl⟩
    exact ⟨kept,old,here,by rw [filters _ _ fun _ => Iff.rfl]; rfl⟩

theorem delFeatDep_eq (linked : ws.Linked) (mapped : ws.featMap f = some p) {node : FeatureDependency F}
    (here : ws.heap p = some node) (leaf : node.children = []) :
    ws.delFeatDep f = some (ws.without fun q => q = p) := by
  have live : ∀ q ∈ node.parents, ws.heap q ≠ none := fun q member => by
    obtain ⟨_,other,found,_⟩ := linked.parents p node here q member
    simp [found]
  have unlinked := @unlinkAll_eq F { ws with featMap := Function.update ws.featMap f none } p node.parents live
  rw [delFeatDep,mapped,Option.bind_eq_bind,Option.bind_some,WorkSpace.delete]
  simp only [here,Option.bind_eq_bind,Option.bind_some,leaf,↓reduceIte]
  rw [unlinked,Option.bind_some]
  refine congrArg some (WorkSpace.ext ?_ ?_ rfl)
  · funext g
    refine Option.ext fun q => ?_
    show Function.update ws.featMap f none g = some q ↔ _
    rw [featMap_without]
    by_cases same : g = f
    · subst same
      rw [Function.update_self]
      refine iff_of_false (fun none => nomatch none) fun ⟨other,differ⟩ => differ ?_
      exact Option.some.inj (other.symm.trans mapped)
    · rw [Function.update_of_ne same]
      refine (and_iff_left_of_imp fun other => ?_).symm
      rintro rfl
      obtain ⟨first,place1,feature1⟩ := (linked.mapped g q).mp other
      obtain ⟨second,place2,feature2⟩ := (linked.mapped f q).mp mapped
      obtain rfl := Option.some.inj (place1.symm.trans place2)
      exact same (feature1.symm.trans feature2)
  · funext q
    show Function.update (fun q => if q ∈ node.parents then (ws.heap q).map (removeChild p) else ws.heap q) p none q = _
    by_cases same : q = p
    · subst same
      rw [Function.update_self]
      simp [without]
    · rw [Function.update_of_ne same,heap_without_ne same]
      split
      · rfl
      · rename_i stranger
        cases place : ws.heap q with
        | none => rfl
        | some other =>
          -- what is no parent does not have the node among its children
          have absent : p ∉ other.children := fun member => by
            obtain ⟨child,found,back⟩ := linked.children q other place p member
            obtain rfl := Option.some.inj (here.symm.trans found)
            exact stranger back
          have kept : other.children.filter (· ≠ p) = other.children :=
            List.filter_eq_self.mpr fun c member => decide_eq_true (ne_of_mem_of_not_mem member absent)
          rw [Option.map_some,removeChild,kept]

private theorem invalidateAll_eq {depth : Nat} (linked : ws.Linked)
    (invalidated : ∀ (ws : WorkSpace F) f p, ws.Linked → ws.featMap f = some p → ws.next ≤ depth + p →
      invalidateLoop depth ws f = some (ws.without fun q => ws.Dependent q p))
    (children : List Nat) (sorted : children.Pairwise (· > ·)) :
    ∀ gone : Nat → Prop, (∀ q p, ws.Parent q p → gone p → gone q) →
      (∀ c ∈ children, ws.heap c ≠ none ∧ ¬ gone c ∧ ws.next ≤ depth + c) →
      children.foldlM (invalidateDependent (invalidateLoop depth)) (ws.without gone) =
        some (ws.without fun q => gone q ∨ ∃ c ∈ children, ws.Dependent q c) := by
  induction children with
  | nil => simp
  | cons c rest ih =>
    intro gone closed live
    obtain ⟨younger,sorted⟩ := List.pairwise_cons.mp sorted
    obtain ⟨present,kept,bound⟩ := live c (by simp)
    obtain ⟨old,place⟩ := Option.ne_none_iff_exists'.mp present
    have left := heap_without.mpr ⟨kept,old,place,rfl⟩
    have mapped : (ws.without gone).featMap old.feature = some c :=
      featMap_without.mpr ⟨(linked.mapped _ _).mpr ⟨old,place,rfl⟩,kept⟩
    have next := invalidated (ws.without gone) old.feature c (linked_without closed linked) mapped bound
    have first : invalidateDependent (invalidateLoop depth) (ws.without gone) c =
        some ((ws.without gone).without fun q => (ws.without gone).Dependent q c) := by
      rw [invalidateDependent,left]
      exact next
    rw [List.foldlM_cons,first,Option.bind_eq_bind,Option.bind_some,without_without]
    -- what depends on c through nodes that are gone is gone itself
    have reached : ∀ q, (gone q ∨ (ws.without gone).Dependent q c) ↔ gone q ∨ ws.Dependent q c := fun q => by
      by_cases lost : gone q
      · simp [lost]
      · simp [lost,dependent_without closed lost]
    rw [without_congr reached,ih sorted]
    · refine congrArg some (without_congr fun q => ?_)
      simp [or_assoc]
    · rintro q p link (lost | path)
      · exact Or.inl (closed q p link lost)
      · exact Or.inr (path.head link)
    · intro d member
      obtain ⟨present,kept,bound⟩ := live d (by simp [member])
      refine ⟨present,?_,bound⟩
      rintro (lost | path)
      · exact kept lost
      · have := linked.dependent_le path
        have := younger d member
        omega

theorem invalidateLoop_eq (depth : Nat) : ∀ (ws : WorkSpace F) f p, ws.Linked → ws.featMap f = some p →
    ws.next ≤ depth + p → invalidateLoop depth ws f = some (ws.without fun q => ws.Dependent q p) := by
  induction depth with
  | zero =>
    intro ws f p linked mapped bound
    obtain ⟨node,place,_⟩ := (linked.mapped f p).mp mapped
    have := linked.bound p node place
    omega
  | succ depth ih =>
    intro ws f p linked mapped bound
    obtain ⟨node,place,same⟩ := (linked.mapped f p).mp mapped
    have older : ∀ c ∈ node.children, p < c := fun c member => by
      obtain ⟨child,found,back⟩ := linked.children p node place c member
      exact (linked.parents c child found p back).1
    have all := invalidateAll_eq linked ih node.children (linked.sorted p node place) (fun _ => False)
      (fun _ _ _ => id) fun c member => by
        obtain ⟨child,found,_⟩ := linked.children p node place c member
        exact ⟨by simp [found],id,by have := older c member; omega⟩
    rw [without_none] at all
    have closed : ∀ q r, ws.Parent q r → (False ∨ ∃ c ∈ node.children, ws.Dependent r c) →
        False ∨ ∃ c ∈ node.children, ws.Dependent q c := by
      rintro q r link (impossible | ⟨c,member,path⟩)
      · exact impossible.elim
      · exact Or.inr ⟨c,member,path.head link⟩
    have kept : ¬ (False ∨ ∃ c ∈ node.children, ws.Dependent p c) := by
      rintro (impossible | ⟨c,member,path⟩)
      · exact impossible
      · have := linked.dependent_le path
        have := older c member
        omega
    rw [invalidateLoop,mapped]
    simp only [place,Option.bind_eq_bind,Option.bind_some,all]
    rw [delFeatDep_eq (linked_without closed linked) (featMap_without.mpr ⟨mapped,kept⟩)
      (heap_without.mpr ⟨kept,node,place,rfl⟩),without_without]
    · refine congrArg some (without_congr fun q => ?_)
      rw [linked.dependent_iff place,false_or]
    · refine List.filter_eq_nil_iff.mpr fun c member stays => ?_
      simp only [decide_eq_true_eq] at stays
      exact stays (Or.inr ⟨c,member,.refl⟩)

theorem invalidate_eq (linked : ws.Linked) (mapped : ws.featMap f = some p) :
    ws.invalidate f = some (ws.without fun q => ws.Dependent q p) :=
  invalidateLoop_eq (ws.next + 1) ws f p linked mapped (by omega)

omit [DecidableEq F] in
theorem linked_invalidated (linked : ws.Linked) : (ws.without fun q => ws.Dependent q p).Linked :=
  linked_without (fun _ _ link path => path.head link) linked

end Invalidate

section Provide
variable {ws : WorkSpace F} {f : F}

private def attach (ws : WorkSpace F) (f : F) (parents : List Nat) : WorkSpace F where
  featMap := Function.update ws.featMap f (some ws.next)
  heap q := if q = ws.next then some ⟨f,parents.reverse,[]⟩
    else if q ∈ parents then (ws.heap q).map (addChild ws.next) else ws.heap q
  next := ws.next + 1

private theorem heap_attach {parents : List Nat} {q : Nat} {node : FeatureDependency F} :
    (attach ws f parents).heap q = some node ↔ q = ws.next ∧ node = ⟨f,parents.reverse,[]⟩ ∨
      q ≠ ws.next ∧ ∃ old, ws.heap q = some old ∧ node = if q ∈ parents then addChild ws.next old else old := by
  by_cases new : q = ws.next
  · simp [attach,new,eq_comm]
  · by_cases parent : q ∈ parents <;> simp [attach,new,parent,eq_comm]

private theorem addRequired_attach {parents : List Nat} {r : F} {t : Nat} {node : FeatureDependency F} (other : r ≠ f)
    (mapped : ws.featMap r = some t) (here : ws.heap t = some node) (old : t ≠ ws.next) (fresh : t ∉ parents) :
    addRequired ws.next (attach ws f parents) r = some (attach ws f (parents ++ [t])) := by
  have target : (attach ws f parents).featMap r = some t := by
    show Function.update ws.featMap f _ r = _
    rw [Function.update_of_ne other,mapped]
  have place : (attach ws f parents).heap t = some node := by simp [attach,old,fresh,here]
  have self : Function.update (attach ws f parents).heap t (some (addChild ws.next node)) ws.next =
      some ⟨f,parents.reverse,[]⟩ := by
    rw [Function.update_of_ne (Ne.symm old)]
    simp [attach]
  simp only [addRequired,target,add,modify,place,self,Option.bind_eq_bind,Option.bind_some,Option.map_some]
  refine congrArg some (WorkSpace.ext rfl ?_ rfl)
  funext q
  by_cases new : q = ws.next
  · subst new
    simp [attach]
  · by_cases same : q = t
    · subst same
      simp [attach,new,here]
    · simp [attach,new,same]

/-- The loop of `provide`, after some of the required features. -/
private theorem addAll_attach (required : List F) (targets : List Nat) (linked : ws.Linked)
    (mapped : List.Forall₂ (fun r t => ws.featMap r = some t) required targets) (other : f ∉ required) :
    ∀ parents, (parents ++ targets).Nodup →
      required.foldlM (addRequired ws.next) (attach ws f parents) = some (attach ws f (parents ++ targets)) := by
  induction mapped with
  | nil => simp
  | @cons r t required targets mapped _ ih =>
    intro parents nodup
    obtain ⟨node,here,_⟩ := (linked.mapped r t).mp mapped
    rw [List.mem_cons,not_or] at other
    have fresh : t ∉ parents := fun member => (List.nodup_append.mp nodup).2.2 t member t (by simp) rfl
    have step := addRequired_attach (Ne.symm other.1) mapped here (Nat.ne_of_lt (linked.bound t node here)) fresh
    rw [List.foldlM_cons,step,Option.bind_eq_bind,Option.bind_some,ih other.2 (parents ++ [t]) (by simpa using nodup)]
    simp

private theorem newFeatDep_eq (absent : ws.featMap f = none) : ws.newFeatDep f = some (attach ws f []) := by
  rw [newFeatDep,if_pos absent]
  refine congrArg some (WorkSpace.ext rfl ?_ rfl)
  funext q
  by_cases new : q = ws.next
  · subst new
    simp [attach]
  · simp [attach,new]

private theorem provide_eq (linked : ws.Linked) (absent : ws.featMap f = none) {required : List F} {targets : List Nat}
    (mapped : List.Forall₂ (fun r t => ws.featMap r = some t) required targets) (other : f ∉ required) (nodup : targets.Nodup) :
    ws.provide f required = some (attach ws f targets) := by
  have self : (attach ws f []).featMap f = some ws.next := Function.update_self ..
  have all := addAll_attach required targets linked mapped other [] nodup
  rw [List.nil_append] at all
  simp [provide,isProvided,absent,newFeatDep_eq absent,self,other,all]

private theorem linked_attach (linked : ws.Linked) (absent : ws.featMap f = none) {targets : List Nat}
    (present : ∀ t ∈ targets, ws.heap t ≠ none) : (attach ws f targets).Linked := by
  have old {q : Nat} {node : FeatureDependency F} (here : ws.heap q = some node) : q ≠ ws.next :=
    Nat.ne_of_lt (linked.bound q node here)
  refine ⟨fun g p => ?_,fun p node here => ?_,fun p node here q member => ?_,fun p node here q member => ?_,fun p node here => ?_⟩
  · show Function.update ws.featMap f (some ws.next) g = some p ↔ _
    by_cases same : g = f
    · subst same
      rw [Function.update_self,Option.some.injEq]
      constructor
      · rintro rfl
        exact ⟨_,heap_attach.mpr (Or.inl ⟨rfl,rfl⟩),rfl⟩
      · rintro ⟨node,here,feature⟩
        rcases heap_attach.mp here with ⟨new,_⟩ | ⟨_,before,place,rfl⟩
        · exact new.symm
        · have known := (linked.mapped g p).mpr ⟨before,place,by rw [← feature]; split <;> rfl⟩
          rw [absent] at known
          cases known
    · rw [Function.update_of_ne same,linked.mapped]
      constructor
      · rintro ⟨node,here,feature⟩
        exact ⟨_,heap_attach.mpr (Or.inr ⟨old here,node,here,rfl⟩),by rw [← feature]; split <;> rfl⟩
      · rintro ⟨node,here,feature⟩
        rcases heap_attach.mp here with ⟨_,rfl⟩ | ⟨_,before,place,rfl⟩
        · exact absurd feature.symm same
        · exact ⟨before,place,by rw [← feature]; split <;> rfl⟩
  · rcases heap_attach.mp here with ⟨rfl,_⟩ | ⟨_,before,place,_⟩
    · exact Nat.lt_succ_self _
    · exact Nat.lt_succ_of_lt (linked.bound p before place)
  · rcases heap_attach.mp here with ⟨rfl,rfl⟩ | ⟨_,before,place,rfl⟩
    · have target : q ∈ targets := List.mem_reverse.mp member
      obtain ⟨parent,found⟩ := Option.ne_none_iff_exists'.mp (present q target)
      refine ⟨linked.bound q parent found,_,heap_attach.mpr (Or.inr ⟨old found,parent,found,rfl⟩),?_⟩
      rw [if_pos target]
      exact List.mem_cons_self ..
    · have member : q ∈ before.parents := by split at member <;> exact member
      obtain ⟨less,parent,found,back⟩ := linked.parents p before place q member
      refine ⟨less,_,heap_attach.mpr (Or.inr ⟨old found,parent,found,rfl⟩),?_⟩
      split
      · exact List.mem_cons_of_mem _ back
      · exact back
  · rcases heap_attach.mp here with ⟨_,rfl⟩ | ⟨_,before,place,rfl⟩
    · cases member
    · have cases_ : q = ws.next ∧ p ∈ targets ∨ q ∈ before.children := by
        split at member
        · rename_i parent
          exact (List.mem_cons.mp member).imp (fun same => ⟨same,parent⟩) id
        · exact Or.inr member
      rcases cases_ with ⟨rfl,target⟩ | member
      · exact ⟨_,heap_attach.mpr (Or.inl ⟨rfl,rfl⟩),List.mem_reverse.mpr target⟩
      · obtain ⟨child,found,back⟩ := linked.children p before place q member
        refine ⟨_,heap_attach.mpr (Or.inr ⟨old found,child,found,rfl⟩),?_⟩
        split <;> exact back
  · rcases heap_attach.mp here with ⟨_,rfl⟩ | ⟨_,before,place,rfl⟩
    · exact .nil
    · have sorted := linked.sorted p before place
      split
      · refine List.pairwise_cons.mpr ⟨fun c member => ?_,sorted⟩
        obtain ⟨child,found,_⟩ := linked.children p before place c member
        exact linked.bound c child found
      · exact sorted

end Provide

end WorkSpace

/-! ### Dependencies between features -/

/-- The provided features, each with the features it was provided from. -/
abbrev Deps (F : Type) := F → Option (List F)

namespace Deps

/-- The feature g was provided from the feature f. -/
def Needs (d : Deps F) (g f : F) : Prop := ∃ required, d g = some required ∧ f ∈ required

def provide (d : Deps F) (f : F) (required : List F) : Deps F :=
  if (d f).isSome then d else Function.update d f (some required)

open Classical in
/-- Removal of a feature and of all that depends on it, directly or not. -/
noncomputable def invalidate (d : Deps F) (f : F) : Deps F := fun g =>
  if (d f).isSome ∧ Relation.ReflTransGen d.Needs g f then none else d g

end Deps

namespace WorkSpace
variable {ws : WorkSpace F} {f g : F}

/-- The dependencies that the links stand for. -/
def deps (ws : WorkSpace F) : Deps F := fun f => do
  let p ← ws.featMap f
  let node ← ws.heap p
  some (node.parents.filterMap fun q => (ws.heap q).map (·.feature)).reverse

omit [DecidableEq F] in
theorem deps_eq {p : Nat} {node : FeatureDependency F} (mapped : ws.featMap f = some p) (here : ws.heap p = some node) :
    ws.deps f = some (node.parents.filterMap fun q => (ws.heap q).map (·.feature)).reverse := by
  simp [deps,mapped,here]

omit [DecidableEq F] in
theorem deps_absent (absent : ws.featMap f = none) : ws.deps f = none := by simp [deps,absent]

omit [DecidableEq F] in
theorem isSome_deps (linked : ws.Linked) : (ws.deps f).isSome = ws.isProvided f := by
  cases mapped : ws.featMap f with
  | none => simp [deps_absent mapped,isProvided,mapped]
  | some p =>
    obtain ⟨node,here,_⟩ := (linked.mapped f p).mp mapped
    simp [deps_eq mapped here,isProvided,mapped]

omit [DecidableEq F] in
theorem needs_iff (linked : ws.Linked) : ws.deps.Needs g f ↔
    ∃ q p, ws.featMap g = some q ∧ ws.featMap f = some p ∧ ws.Parent q p := by
  constructor
  · rintro ⟨required,provided,member⟩
    cases mapped : ws.featMap g with
    | none => rw [deps_absent mapped] at provided; cases provided
    | some q =>
      obtain ⟨node,here,_⟩ := (linked.mapped g q).mp mapped
      rw [deps_eq mapped here] at provided
      obtain rfl := Option.some.inj provided
      obtain ⟨p,parent,feature⟩ := List.mem_filterMap.mp (List.mem_reverse.mp member)
      obtain ⟨other,found,same⟩ := Option.map_eq_some_iff.mp feature
      exact ⟨q,p,rfl,(linked.mapped f p).mpr ⟨other,found,same⟩,node,here,parent⟩
  · rintro ⟨q,p,mapped,target,node,here,parent⟩
    obtain ⟨other,found,same⟩ := (linked.mapped f p).mp target
    exact ⟨_,deps_eq mapped here,List.mem_reverse.mpr (List.mem_filterMap.mpr ⟨p,parent,by simp [found,same]⟩)⟩

omit [DecidableEq F] in
theorem needs_provided (linked : ws.Linked) (needs : ws.deps.Needs g f) : (ws.deps f).isSome := by
  obtain ⟨q,p,_,target,_⟩ := (needs_iff linked).mp needs
  rw [isSome_deps linked,isProvided,target]
  rfl

omit [DecidableEq F] in
theorem needsAll_iff (linked : ws.Linked) {p q : Nat} (target : ws.featMap f = some p) (mapped : ws.featMap g = some q) :
    Relation.ReflTransGen ws.deps.Needs g f ↔ ws.Dependent q p := by
  constructor
  · intro path
    induction path using Relation.ReflTransGen.head_induction_on generalizing q with
    | refl =>
      obtain rfl := Option.some.inj (target.symm.trans mapped)
      exact .refl
    | head needs _ ih =>
      obtain ⟨q',p',mapped',target',link⟩ := (needs_iff linked).mp needs
      obtain rfl := Option.some.inj (mapped.symm.trans mapped')
      exact .head link (ih target')
  · intro path
    induction path using Relation.ReflTransGen.head_induction_on generalizing g with
    | refl =>
      obtain ⟨node,here,rfl⟩ := (linked.mapped f p).mp target
      obtain ⟨other,there,rfl⟩ := (linked.mapped g p).mp mapped
      obtain rfl := Option.some.inj (here.symm.trans there)
      exact .refl
    | @head q q' link _ ih =>
      obtain ⟨node,here,parent⟩ := link
      obtain ⟨_,other,found,_⟩ := linked.parents q node here q' parent
      have mapped' := (linked.mapped other.feature q').mpr ⟨other,found,rfl⟩
      exact .head ((needs_iff linked).mpr ⟨q,q',mapped,mapped',node,here,parent⟩) (ih mapped')

omit [DecidableEq F] in
theorem deps_invalidated (linked : ws.Linked) {p : Nat} (target : ws.featMap f = some p) :
    (ws.without fun q => ws.Dependent q p).deps = ws.deps.invalidate f := by
  funext g
  have provided : (ws.deps f).isSome := by rw [isSome_deps linked,isProvided,target]; rfl
  unfold Deps.invalidate
  cases mapped : ws.featMap g with
  | none =>
    have lost : (ws.without fun q => ws.Dependent q p).featMap g = none := by simp [without,mapped]
    rw [deps_absent lost,deps_absent mapped,ite_self]
  | some q =>
    rw [needsAll_iff linked target mapped]
    obtain ⟨node,here,_⟩ := (linked.mapped g q).mp mapped
    by_cases lost : ws.Dependent q p
    · have gone : (ws.without fun q => ws.Dependent q p).featMap g = none := by simp [without,mapped,lost]
      rw [deps_absent gone,if_pos ⟨provided,lost⟩]
    · have left : (ws.without fun q => ws.Dependent q p).featMap g = some q := featMap_without.mpr ⟨mapped,lost⟩
      rw [if_neg fun both => lost both.2,deps_eq mapped here,deps_eq left (heap_without.mpr ⟨lost,node,here,rfl⟩)]
      refine congrArg (fun l => some (List.reverse l)) (List.filterMap_congr fun x member => ?_)
      have kept : ¬ ws.Dependent x p := fun path => lost (path.head ⟨node,here,member⟩)
      simp [without,kept,Function.comp_def]

omit [DecidableEq F] in
private theorem filterMap_targets {required : List F} {targets : List Nat} {feature : Nat → Option F}
    (mapped : List.Forall₂ (fun r t => feature t = some r) required targets) : targets.filterMap feature = required := by
  induction mapped with
  | nil => rfl
  | cons same _ ih => rw [List.filterMap_cons,same,ih]

private theorem deps_attach (linked : ws.Linked) (absent : ws.featMap f = none) {required : List F} {targets : List Nat}
    (mapped : List.Forall₂ (fun r t => ws.featMap r = some t) required targets) :
    (attach ws f targets).deps = Function.update ws.deps f (some required) := by
  have feature {q : Nat} {node : FeatureDependency F} (here : ws.heap q = some node) :
      ((attach ws f targets).heap q).map (·.feature) = some node.feature := by
    rw [heap_attach.mpr (Or.inr ⟨Nat.ne_of_lt (linked.bound q node here),node,here,rfl⟩)]
    split <;> rfl
  funext g
  by_cases same : g = f
  · subst same
    have self : (attach ws g targets).featMap g = some ws.next := Function.update_self ..
    rw [Function.update_self,deps_eq self (heap_attach.mpr (Or.inl ⟨rfl,rfl⟩)),← List.filterMap_reverse,List.reverse_reverse]
    refine congrArg some (filterMap_targets (mapped.imp fun r t target => ?_))
    obtain ⟨node,here,rfl⟩ := (linked.mapped r t).mp target
    exact feature here
  · rw [Function.update_of_ne same]
    cases mapped : ws.featMap g with
    | none =>
      have gone : (attach ws f targets).featMap g = none := by
        show Function.update ws.featMap f _ g = none
        rw [Function.update_of_ne same,mapped]
      rw [deps_absent gone,deps_absent mapped]
    | some q =>
      obtain ⟨node,here,_⟩ := (linked.mapped g q).mp mapped
      have kept : (attach ws f targets).featMap g = some q := by
        show Function.update ws.featMap f _ g = some q
        rw [Function.update_of_ne same,mapped]
      rw [deps_eq mapped here,deps_eq kept
        (heap_attach.mpr (Or.inr ⟨Nat.ne_of_lt (linked.bound q node here),node,here,rfl⟩))]
      have parents : (if q ∈ targets then addChild ws.next node else node).parents = node.parents := by split <;> rfl
      rw [parents]
      refine congrArg (fun l => some (List.reverse l)) (List.filterMap_congr fun x member => ?_)
      obtain ⟨_,other,found,_⟩ := linked.parents q node here x member
      rw [feature found,found]
      rfl

omit [DecidableEq F] in
private theorem required_of_target {required : List F} {targets : List Nat} {t : Nat}
    (mapped : List.Forall₂ (fun r t => ws.featMap r = some t) required targets) (member : t ∈ targets) :
    ∃ r ∈ required, ws.featMap r = some t := by
  induction mapped with
  | nil => cases member
  | @cons r t' _ _ target _ ih =>
    rcases List.mem_cons.mp member with rfl | member
    · exact ⟨r,by simp,target⟩
    · obtain ⟨r',member',target'⟩ := ih member
      exact ⟨r',by simp [member'],target'⟩

theorem provide_spec (linked : ws.Linked) (absent : (ws.deps f).isSome = false) {required : List F}
    (present : ∀ r ∈ required, (ws.deps r).isSome) (other : f ∉ required) (once : required.Nodup) :
    ∃ after, ws.provide f required = some after ∧ after.Linked ∧ after.deps = Function.update ws.deps f (some required) := by
  rw [isSome_deps linked,isProvided,Option.isSome_eq_false_iff,Option.isNone_iff_eq_none] at absent
  obtain ⟨targets,mapped⟩ : ∃ targets, List.Forall₂ (fun r t => ws.featMap r = some t) required targets := by
    clear other once
    induction required with
    | nil => exact ⟨[],.nil⟩
    | cons r rest ih =>
      obtain ⟨targets,mapped⟩ := ih fun r member => present r (by simp [member])
      have provided := present r (by simp)
      rw [isSome_deps linked,isProvided] at provided
      obtain ⟨t,target⟩ := Option.isSome_iff_exists.mp provided
      exact ⟨t :: targets,.cons target mapped⟩
  have nodup : targets.Nodup := by
    clear present other
    induction mapped with
    | nil => exact .nil
    | @cons r t required targets target mapped ih =>
      obtain ⟨fresh,once⟩ := List.nodup_cons.mp once
      refine List.nodup_cons.mpr ⟨fun member => fresh ?_,ih once⟩
      obtain ⟨r',member',target'⟩ := required_of_target mapped member
      obtain ⟨node,here,rfl⟩ := (linked.mapped r t).mp target
      obtain ⟨node',here',rfl⟩ := (linked.mapped r' t).mp target'
      obtain rfl := Option.some.inj (here.symm.trans here')
      exact member'
  have live : ∀ t ∈ targets, ws.heap t ≠ none := fun t member => by
    obtain ⟨r,_,target⟩ := required_of_target mapped member
    obtain ⟨node,here,_⟩ := (linked.mapped r t).mp target
    simp [here]
  exact ⟨_,provide_eq linked absent mapped other nodup,linked_attach linked absent live,deps_attach linked absent mapped⟩

end WorkSpace

inductive Command (F : Type) where
  | provide (feature : F) (required : List F)
  | invalidate (feature : F)

def WorkSpace.step (ws : WorkSpace F) : Command F → Option (WorkSpace F)
  | .provide feature required => ws.provide feature required
  | .invalidate feature => ws.invalidate feature

def WorkSpace.run (commands : List (Command F)) : Option (WorkSpace F) := commands.foldlM WorkSpace.step WorkSpace.empty

namespace Deps

noncomputable def step (d : Deps F) : Command F → Deps F
  | .provide feature required => d.provide feature required
  | .invalidate feature => d.invalidate feature

/-- The assertions of `provide`. -/
def Asserted (d : Deps F) : Command F → Prop
  | .provide feature required => (d feature).isSome ∨ (∀ r ∈ required, (d r).isSome) ∧ feature ∉ required
  | .invalidate _ => True

def Follows (d : Deps F) : List (Command F) → Prop
  | [] => True
  | command :: rest => d.Asserted command ∧ (d.step command).Follows rest

end Deps

def Command.Once : Command F → Prop
  | .provide _ required => required.Nodup
  | .invalidate _ => True

theorem step_spec {ws : WorkSpace F} (linked : ws.Linked) {command : Command F} (asserted : ws.deps.Asserted command)
    (once : command.Once) : ∃ after, ws.step command = some after ∧ after.Linked ∧ after.deps = ws.deps.step command := by
  cases command with
  | provide f required =>
    cases provided : (ws.deps f).isSome with
    | true =>
      refine ⟨ws,?_,linked,by simp [Deps.step,Deps.provide,provided]⟩
      rw [WorkSpace.isSome_deps linked] at provided
      simp [WorkSpace.step,WorkSpace.provide,provided]
    | false =>
      obtain ⟨present,other⟩ := asserted.resolve_left (by simp [provided])
      obtain ⟨after,done,linked',deps⟩ := WorkSpace.provide_spec linked provided present other once
      exact ⟨after,done,linked',by simp [Deps.step,Deps.provide,provided,deps]⟩
  | invalidate f =>
    cases mapped : ws.featMap f with
    | none =>
      refine ⟨ws,by simp [WorkSpace.step,WorkSpace.invalidate,WorkSpace.invalidateLoop,mapped],linked,?_⟩
      funext g
      simp [Deps.step,Deps.invalidate,WorkSpace.deps_absent mapped]
    | some p => exact ⟨_,WorkSpace.invalidate_eq linked mapped,WorkSpace.linked_invalidated linked,
        WorkSpace.deps_invalidated linked mapped⟩

theorem run_spec (commands : List (Command F)) : ∀ ws : WorkSpace F, ws.Linked → ws.deps.Follows commands →
    (∀ command ∈ commands, command.Once) →
      ∃ after, commands.foldlM WorkSpace.step ws = some after ∧ after.Linked ∧
        after.deps = commands.foldl Deps.step ws.deps := by
  induction commands with
  | nil => exact fun ws linked _ _ => ⟨ws,rfl,linked,rfl⟩
  | cons command rest ih =>
    intro ws linked follows once
    obtain ⟨next,done,linked',deps⟩ := step_spec linked follows.1 (once command (by simp))
    obtain ⟨after,ran,linked'',final⟩ := ih next linked' (by rw [deps]; exact follows.2)
      fun command member => once command (by simp [member])
    exact ⟨after,by simp [done,ran],linked'',by rw [final,deps]; rfl⟩

omit [DecidableEq F] in
theorem WorkSpace.linked_empty : (WorkSpace.empty : WorkSpace F).Linked := by
  refine ⟨fun f p => ?_,?_,?_,?_,?_⟩
  · exact iff_of_false (fun mapped => nomatch mapped) fun ⟨_,here,_⟩ => nomatch here
  all_goals intro p node here; cases here

/-- Along commands that follow the assertions and require no feature twice, no operation
    fails or uses a deleted node, links are recorded on both ends, what a provided feature
    was provided from is provided, and invalidation removes the feature and what depends on
    it only. -/
theorem run_keeps_dependencies (commands : List (Command F)) (follows : Deps.Follows (fun _ => none) commands)
    (once : ∀ command ∈ commands, command.Once) :
    ∃ ws, WorkSpace.run commands = some ws ∧ ws.Linked ∧ ws.deps = commands.foldl Deps.step (fun _ => none) ∧
      ∀ g f, ws.deps.Needs g f → (ws.deps f).isSome := by
  obtain ⟨ws,ran,linked,deps⟩ := run_spec commands WorkSpace.empty WorkSpace.linked_empty follows once
  exact ⟨ws,ran,linked,deps,fun g f needs => WorkSpace.needs_provided linked needs⟩

/-- Several paths of dependency to the same feature. -/
theorem run_keeps_dependencies_diamond : ∃ ws : WorkSpace Nat, WorkSpace.run
    [.provide 0 [],.provide 1 [0],.provide 2 [0],.provide 3 [0,1,2],.invalidate 0] = some ws ∧ ws.Linked := by
  obtain ⟨ws,ran,linked,_⟩ := run_keeps_dependencies
    [.provide 0 [],.provide 1 [0],.provide 2 [0],.provide 3 [0,1,2],.invalidate 0]
    (by simp [Deps.Follows,Deps.Asserted,Deps.step,Deps.provide,Function.update])
    (by simp [Command.Once])
  exact ⟨ws,ran,linked⟩

/-- A feature required twice: its dependent is invalidated twice, the second time after its
    node was deleted. -/
theorem required_twice_fails : ¬ ∀ (commands : List (Command Bool)), Deps.Follows (fun _ => none) commands →
    ∃ ws, WorkSpace.run commands = some ws := by
  intro always
  obtain ⟨ws,ran⟩ := always [.provide false [],.provide true [false,false],.invalidate false]
    (by simp [Deps.Follows,Deps.Asserted,Deps.step,Deps.provide])
  have failed : (WorkSpace.run [.provide false [],.provide true [false,false],.invalidate false]).isSome = false := by decide
  rw [ran] at failed
  cases failed

end Otawa.Feature
