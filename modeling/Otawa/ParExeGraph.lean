import Otawa.LongestPaths
import Otawa.PreorderIterator
import Mathlib.Algebra.Order.Group.Int

/-!
The parametric execution graph (`ParExeGraph`): the delays of its nodes from the availability of
each resource. `initDelays` marks the nodes that use a resource, `propagate` goes through the graph
in the preorder; the delays are then the longest paths from these nodes (`propagate_right`).
-/
namespace Otawa.ParExe
open Otawa.LongestPaths
open Otawa.Preorder (GenGraph PreorderIterator mem_ins)
open Otawa.TopologicalVisit (Topological)
open Relation

variable {count : Nat}

inductive Category
  | fetch | decode | execute | commit | delay | fu
  deriving DecidableEq

inductive OrderPolicy
  | inOrder | outOfOrder
  deriving DecidableEq

structure ParExeStage (count : Nat) where
  category : Category
  orderPolicy : OrderPolicy
  nodes : List (Fin count)

def ParExeStage.node (stage : ParExeStage count) (index : Nat) : Option (Fin count) := stage.nodes[index]?

structure ParExeQueue (count : Nat) where
  fillingStage : ParExeStage count

structure ParExeInst (count : Nat) where
  index : Nat
  nodes : List (Fin count)

/-- The classes of resources, with what they hold. -/
inductive ResourceType (count : Nat)
  | blockStart
  | stage (stage : ParExeStage count) (slot : Nat)
  | queue (queue : ParExeQueue count) (slot : Nat)
  | reg (usingInstructions : List (ParExeInst count))
  | externalConflict (instruction : ParExeInst count)
  | internalConflict (instruction : ParExeInst count)

structure Resource (count : Nat) where
  index : Nat
  type : ResourceType count

inductive EdgeType
  | solid | slashed
  deriving DecidableEq

structure ParExeEdge (count : Nat) where
  source : Fin count
  target : Fin count
  type : EdgeType
  latency : Int
  distinct : source ≠ target

/-- `createResources` numbers the resources in their order. -/
structure ParExeGraph (count : Nat) where
  edges : List (ParExeEdge count)
  firstNode : Fin count
  latency : Fin count → Int
  stage : Fin count → ParExeStage count
  resources : List (Resource count)
  numbered : ∀ i (inside : i < resources.length), resources[i].index = i

/-- The tables of the nodes, and the nodes of the internal conflicts. -/
structure Delays (count : Nat) where
  e : Fin count → Nat → Bool
  d : Fin count → Nat → Int
  contentionDep : Fin count → Nat → Bool
  conflictNode : Nat → Option (Fin count)

namespace Delays
variable (s : Delays count) (node n : Fin count) (index r : Nat)

def setE (value : Bool) : Delays count :=
  { s with e := fun n r => if n = node ∧ r = index then value else s.e n r }
def setD (value : Int) : Delays count :=
  { s with d := fun n r => if n = node ∧ r = index then value else s.d n r }
def setContentionDep (inst : Nat) : Delays count :=
  { s with contentionDep := fun n i => if n = node ∧ i = inst then true else s.contentionDep n i }
/-- `setNode` of an internal conflict. -/
def setNode : Delays count :=
  { s with conflictNode := fun r => if r = index then some node else s.conflictNode r }

@[simp] theorem setE_e (value : Bool) : (s.setE node index value).e n r = if n = node ∧ r = index then value else s.e n r := rfl
@[simp] theorem setE_d (value : Bool) : (s.setE node index value).d = s.d := rfl
@[simp] theorem setD_e (value : Int) : (s.setD node index value).e = s.e := rfl
@[simp] theorem setD_d (value : Int) : (s.setD node index value).d n r = if n = node ∧ r = index then value else s.d n r := rfl
@[simp] theorem setContentionDep_e (inst : Nat) : (s.setContentionDep node inst).e = s.e := rfl
@[simp] theorem setContentionDep_d (inst : Nat) : (s.setContentionDep node inst).d = s.d := rfl
@[simp] theorem setNode_e : (s.setNode node index).e = s.e := rfl
@[simp] theorem setNode_d : (s.setNode node index).d = s.d := rfl

end Delays

namespace ParExeGraph
variable (g : ParExeGraph count)

def graph : GenGraph count (ParExeEdge count) := ⟨g.edges,ParExeEdge.source,ParExeEdge.target⟩

/-- A loop on the nodes with `ParExeGraph::PreorderIterator`, for at most k turns. -/
def preorder {S : Type} (body : S → Fin count → S) (k : Nat) (s : S) : Option S :=
  PreorderIterator.loop g.graph body k (PreorderIterator.create g.firstNode) s

/-- The body of `clearDelays`. -/
def clearNode (s : Delays count) (node : Fin count) : Delays count :=
  g.resources.foldl (fun s resource => (s.setE node resource.index false).setD node resource.index 0) s

def clearDelays (k : Nat) (s : Delays count) : Option (Delays count) := g.preorder g.clearNode k s

def outOfOrder (node : Fin count) : Bool :=
  decide ((g.stage node).category = .execute) && decide ((g.stage node).orderPolicy = .outOfOrder)

/-- The part of `initDelays` for a resource. -/
def initResource (s : Delays count) (index : Nat) : ResourceType count → Delays count
  | .blockStart => s.setE g.firstNode index true
  | .stage stage slot =>
    match stage.node slot with
    | some node => s.setE node index true
    | none => s
  | .queue queue slot =>
    match queue.fillingStage.node slot with
    | some node => s.setE node index true
    | none => s
  | .reg insts =>
    insts.foldl (fun s inst => inst.nodes.foldl (fun s node =>
      if (g.stage node).category = .execute then s.setE node index true else s) s) s
  | .externalConflict inst =>
    inst.nodes.foldl (fun s node =>
      if g.outOfOrder node then (s.setE node index true).setContentionDep node inst.index else s) s
  | .internalConflict inst =>
    inst.nodes.foldl (fun s node =>
      if g.outOfOrder node then (s.setE node index true).setNode node index else s) s

/-- The loop of `initDelays`, with its own index. -/
def initFrom (s : Delays count) (index : Nat) : List (Resource count) → Delays count
  | [] => s
  | res :: rest => initFrom (g.initResource s index res.type) (index + 1) rest

def initDelays (s : Delays count) : Delays count := g.initFrom s 0 g.resources

/-- `_latency` in `propagate`: what an edge adds to the delays. -/
def edgeLatency (edge : ParExeEdge count) : Int :=
  if edge.type = .solid then g.latency edge.source + edge.latency else 0

/-- The part of `propagate` for an edge and a resource. -/
def propagateResource (edge : ParExeEdge count) (node : Fin count) (s : Delays count) (resource : Resource count) : Delays count :=
  let index := resource.index
  if s.e edge.source index then
    let s := s.setE node index true
    let delay := s.d edge.source index + g.edgeLatency edge
    if delay > s.d node index then s.setD node index delay else s
  else s

/-- The body of `propagate`. -/
def propagateNode (s : Delays count) (node : Fin count) : Delays count :=
  if node ≠ g.firstNode then
    (g.graph.ins node).foldl (fun s edge => g.resources.foldl (g.propagateResource edge node) s) s
  else s

def propagate (k : Nat) (s : Delays count) : Option (Delays count) := g.preorder g.propagateNode k s

def users : ResourceType count → List (Fin count)
  | .blockStart => [g.firstNode]
  | .stage stage slot => (stage.node slot).toList
  | .queue queue slot => (queue.fillingStage.node slot).toList
  | .reg insts => (insts.flatMap ParExeInst.nodes).filter fun node => decide ((g.stage node).category = .execute)
  | .externalConflict inst => inst.nodes.filter g.outOfOrder
  | .internalConflict inst => inst.nodes.filter g.outOfOrder

end ParExeGraph

/-- At one index the nodes of a set are marked, and nothing else is of the delays. -/
structure Marks (index : Nat) (marked : Fin count → Prop) (s s' : Delays count) : Prop where
  d_eq : s'.d = s.d
  e_iff : ∀ n r, s'.e n r = true ↔ s.e n r = true ∨ (r = index ∧ marked n)

section Marks
variable {index : Nat} {marked marked' : Fin count → Prop} {s s' : Delays count}

theorem Marks.congr (marks : Marks index marked s s') (same : ∀ n, marked n ↔ marked' n) : Marks index marked' s s' :=
  ⟨marks.d_eq,fun n r => by rw [marks.e_iff,same]⟩

theorem marks_refl : Marks index (fun _ => False) s s := ⟨rfl,by simp⟩

theorem marks_setE (node : Fin count) : Marks index (· = node) s (s.setE node index true) := by
  refine ⟨rfl,fun n r => ?_⟩
  rw [Delays.setE_e]
  by_cases here : n = node ∧ r = index
  · simp [here]
  · rw [if_neg here]
    simpa using fun same node => absurd ⟨node,same⟩ here

theorem Marks.ite {p : Prop} [Decidable p] {node : Fin count} (marks : Marks index (· = node) s s') :
    Marks index (fun n => p ∧ n = node) s (if p then s' else s) := by
  by_cases holds : p
  · simpa [holds] using marks
  · simpa [holds] using marks_refl

theorem Marks.foldl {A : Type} {body : Delays count → A → Delays count} {sets : A → Fin count → Prop}
    (each : ∀ s x, Marks index (sets x) s (body s x)) (l : List A) (s : Delays count) :
    Marks index (fun n => ∃ x ∈ l, sets x n) s (l.foldl body s) := by
  induction l generalizing s with
  | nil => simpa using marks_refl
  | cons x l ih =>
    refine ⟨(ih _).d_eq.trans (each s x).d_eq,fun n r => ?_⟩
    rw [List.foldl_cons,(ih _).e_iff,(each s x).e_iff,or_assoc,← and_or_left]
    simp

theorem marks_filter {body : Delays count → Fin count → Delays count} {p : Fin count → Bool}
    (each : ∀ s node, Marks index (fun n => p node = true ∧ n = node) s (body s node)) (nodes : List (Fin count)) (s : Delays count) :
    Marks index (· ∈ nodes.filter p) s (nodes.foldl body s) := by
  refine (Marks.foldl each nodes s).congr fun n => ?_
  rw [List.mem_filter]
  constructor
  · rintro ⟨_,member,holds,rfl⟩
    exact ⟨member,holds⟩
  · rintro ⟨member,holds⟩
    exact ⟨n,member,holds,rfl⟩

end Marks

namespace ParExeGraph
variable {g : ParExeGraph count} {s : Delays count}

theorem initResource_marks (index : Nat) (type : ResourceType count) :
    Marks index (· ∈ g.users type) s (g.initResource s index type) := by
  have slot (node : Option (Fin count)) : Marks index (· ∈ node.toList) s
      (match node with
        | some node => s.setE node index true
        | none => s) := by
    cases node with
    | none => simpa using marks_refl
    | some node => simpa using marks_setE node
  have marked (s : Delays count) (node : Fin count) : Marks index (· = node) s (s.setE node index true) := marks_setE node
  cases type with
  | blockStart => exact (marks_setE g.firstNode).congr fun n => List.mem_singleton.symm
  | stage stage i => exact slot _
  | queue queue i => exact slot _
  | reg insts =>
    have each (s : Delays count) (inst : ParExeInst count) := marks_filter (p := fun node => decide ((g.stage node).category = .execute))
      (fun s node => by simpa only [decide_eq_true_eq] using (marked s node).ite) inst.nodes s
    refine (Marks.foldl each insts s).congr fun n => ?_
    simp only [users,List.mem_filter,List.mem_flatMap]
    constructor
    · rintro ⟨inst,member,inside,holds⟩
      exact ⟨⟨inst,member,inside⟩,holds⟩
    · rintro ⟨⟨inst,member,inside⟩,holds⟩
      exact ⟨inst,member,inside,holds⟩
  | externalConflict inst | internalConflict inst =>
    refine marks_filter (fun s node => Marks.ite ?_) inst.nodes s
    exact ⟨rfl,(marked s node).e_iff⟩

theorem initFrom_d (index : Nat) (rest : List (Resource count)) : (g.initFrom s index rest).d = s.d := by
  induction rest generalizing s index with
  | nil => rfl
  | cons res rest ih => rw [initFrom,ih,(initResource_marks index res.type).d_eq]

theorem initFrom_e (index : Nat) (rest : List (Resource count)) (n : Fin count) (r : Nat) :
    (g.initFrom s index rest).e n r = true ↔ s.e n r = true ∨ ∃ j res, rest[j]? = some res ∧ r = index + j ∧ n ∈ g.users res.type := by
  induction rest generalizing s index with
  | nil => simp [initFrom]
  | cons res rest ih =>
    rw [initFrom,ih,(initResource_marks index res.type).e_iff,or_assoc]
    refine or_congr_right ⟨?_,?_⟩
    · rintro (⟨rfl,uses⟩ | ⟨j,res',known,rfl,uses⟩)
      · exact ⟨0,res,rfl,rfl,uses⟩
      · exact ⟨j + 1,res',known,by omega,uses⟩
    · rintro ⟨_ | j,res',known,rfl,uses⟩
      · obtain rfl := Option.some.inj known
        exact Or.inl ⟨rfl,uses⟩
      · exact Or.inr ⟨j,res',known,by omega,uses⟩

theorem unique_resource {res res' : Resource count} {j : Nat} (member : res ∈ g.resources) (known : g.resources[j]? = some res')
    (same : res.index = j) : res' = res := by
  obtain ⟨i,inside,rfl⟩ := List.mem_iff_getElem.mp member
  rw [g.numbered i inside] at same
  subst same
  rw [List.getElem?_eq_getElem inside] at known
  exact (Option.some.inj known).symm

variable {res : Resource count}

theorem initDelays_e (member : res ∈ g.resources) (n : Fin count) :
    (g.initDelays s).e n res.index = true ↔ s.e n res.index = true ∨ n ∈ g.users res.type := by
  rw [initDelays,initFrom_e]
  refine or_congr_right ⟨?_,fun uses => ?_⟩
  · rintro ⟨j,res',known,same,uses⟩
    rw [Nat.zero_add] at same
    exact unique_resource member known same ▸ uses
  · obtain ⟨i,inside,rfl⟩ := List.mem_iff_getElem.mp member
    exact ⟨i,_,List.getElem?_eq_getElem inside,by rw [g.numbered i inside,Nat.zero_add],uses⟩

def entry (s : Delays count) (n : Fin count) (r : Nat) : Bool × Int := (s.e n r,s.d n r)

def indices (resources : List (Resource count)) : List Nat := resources.map Resource.index

theorem foldl_entry {body : Delays count → Resource count → Delays count} {node : Fin count} (change : Nat → Bool × Int → Bool × Int)
    (holds : Delays count → Prop) (keeps : ∀ s res, holds s → holds (body s res))
    (each : ∀ s res n r, holds s → entry (body s res) n r = if n = node ∧ r = res.index then change r (entry s n r) else entry s n r)
    (idem : ∀ r now, change r (change r now) = change r now) (resources : List (Resource count)) (s : Delays count) (start : holds s)
    (n : Fin count) (r : Nat) :
    entry (resources.foldl body s) n r = if n = node ∧ r ∈ indices resources then change r (entry s n r) else entry s n r := by
  induction resources generalizing s with
  | nil => simp [indices]
  | cons res rest ih =>
    have known : r ∈ indices (res :: rest) ↔ r = res.index ∨ r ∈ indices rest := List.mem_cons
    rw [List.foldl_cons,ih (body s res) (keeps s res start),each s res n r start]
    simp only [known]
    by_cases now : r = res.index <;> by_cases later : r ∈ indices rest <;> by_cases here : n = node <;> simp [now,later,here,idem]

theorem clearNode_entry (s : Delays count) (node n : Fin count) (r : Nat) :
    entry (g.clearNode s node) n r = if n = node ∧ r ∈ indices g.resources then (false,0) else entry s n r := by
  refine foldl_entry (fun _ _ => (false,0)) (fun _ => True) (fun _ _ _ => trivial) (fun s res n r _ => ?_)
    (fun _ _ => rfl) g.resources s trivial n r
  by_cases here : n = node ∧ r = res.index <;> simp [entry,here]

/-- The delays are as the nodes are made with. -/
def Cleared (g : ParExeGraph count) (s : Delays count) : Prop :=
  ∀ n, ∀ res ∈ g.resources, s.e n res.index = false ∧ s.d n res.index = 0

theorem mem_indices (member : res ∈ g.resources) : res.index ∈ indices g.resources :=
  List.mem_map_of_mem member

theorem clear_order {order : List (Fin count)} (topological : Topological g.graph.Edge order) (nodup : order.Nodup)
    (all : ∀ n, n ∈ order) : g.Cleared (order.foldl g.clearNode s) := by
  have cleared := topological.foldl g.clearNode (s := s)
    (fun before s => ∀ n ∈ before, ∀ res ∈ g.resources, entry s n res.index = (false,0)) nodup (by simp) (by
      intro before x s _ _ done n member res inside
      rw [clearNode_entry]
      by_cases here : n = x
      · rw [if_pos ⟨here,mem_indices inside⟩]
      · rw [if_neg fun both => here both.1]
        exact done n (by simpa [here] using member) res inside)
  exact fun n res inside => Prod.mk.inj (cleared n (all n) res inside)

theorem propagateResource_entry {edge : ParExeEdge count} {node : Fin count} (res : Resource count) (n : Fin count) (r : Nat) :
    entry (g.propagateResource edge node s res) n r =
      if n = node ∧ r = res.index then relax (s.e edge.source r) (s.d edge.source r + g.edgeLatency edge) (entry s n r)
      else entry s n r := by
  simp only [propagateResource,Delays.setE_d,gt_iff_lt]
  by_cases reached : s.e edge.source res.index = true
  · rw [if_pos reached]
    by_cases here : n = node ∧ r = res.index
    · obtain ⟨rfl,rfl⟩ := here
      rw [if_pos (show n = n ∧ res.index = res.index from ⟨rfl,rfl⟩),reached]
      by_cases more : s.d n res.index < s.d edge.source res.index + g.edgeLatency edge <;> simp [entry,relax,more]
    · rw [if_neg here]
      split <;> simp [entry,here]
  · rw [if_neg reached]
    split
    · rename_i here
      rw [here.2,Bool.eq_false_iff.mpr reached]
      rfl
    · rfl

theorem propagateEdge_entry {edge : ParExeEdge count} {node : Fin count} (differ : edge.source ≠ node) (n : Fin count) (r : Nat) :
    entry (g.resources.foldl (g.propagateResource edge node) s) n r =
      if n = node ∧ r ∈ indices g.resources then relax (s.e edge.source r) (s.d edge.source r + g.edgeLatency edge) (entry s n r)
      else entry s n r := by
  refine foldl_entry (fun r => relax (s.e edge.source r) (s.d edge.source r + g.edgeLatency edge))
    (fun s' => ∀ r, entry s' edge.source r = entry s edge.source r) (fun s' res same r => ?_)
    (fun s' res n r same => ?_) (fun r => relax_idem _ _) g.resources s (fun _ => rfl) n r
  · rw [propagateResource_entry,if_neg fun here => differ here.1,same]
  · obtain ⟨e_eq,d_eq⟩ := Prod.mk.inj (same r)
    rw [propagateResource_entry,e_eq,d_eq]

theorem propagate_foldl {node : Fin count} (incoming : List (ParExeEdge count)) (differ : ∀ edge ∈ incoming, edge.source ≠ node)
    (n : Fin count) {r : Nat} (known : r ∈ indices g.resources) :
    entry (incoming.foldl (fun s edge => g.resources.foldl (g.propagateResource edge node) s) s) n r =
      if n = node then
        incoming.foldl (fun now edge => relax (s.e edge.source r) (s.d edge.source r + g.edgeLatency edge) now) (entry s n r)
      else entry s n r := by
  induction incoming generalizing s with
  | nil => simp
  | cons edge rest ih =>
    have first := differ edge List.mem_cons_self
    have same (edge' : ParExeEdge count) (member : edge' ∈ rest) :
        entry (g.resources.foldl (g.propagateResource edge node) s) edge'.source r = entry s edge'.source r := by
      rw [propagateEdge_entry first,if_neg fun here => differ edge' (List.mem_cons_of_mem _ member) here.1]
    rw [List.foldl_cons,ih fun edge' member => differ edge' (List.mem_cons_of_mem _ member)]
    by_cases here : n = node
    · rw [if_pos here,if_pos here,List.foldl_cons,propagateEdge_entry first,if_pos ⟨here,known⟩]
      refine List.foldl_ext _ _ _ fun now edge' member => ?_
      obtain ⟨e_eq,d_eq⟩ := Prod.mk.inj (same edge' member)
      rw [e_eq,d_eq]
    · rw [if_neg here,if_neg here,propagateEdge_entry first,if_neg fun both => here both.1]

def IsPath (g : ParExeGraph count) (m : Fin count) (path : List (ParExeEdge count)) (n : Fin count) : Prop :=
  LongestPaths.IsPath g.edges ParExeEdge.source ParExeEdge.target m path n

/-- The node knows whether it or an ancestor uses the resource, and the longest path from one that does. -/
def Solved (g : ParExeGraph count) (res : Resource count) (s : Delays count) (n : Fin count) : Prop :=
  LongestPaths.Solved g.edges ParExeEdge.source ParExeEdge.target g.edgeLatency (· ∈ g.users res.type) n
    (s.e n res.index = true) (s.d n res.index)

/-- The node is as `initDelays` leaves it. -/
def Initial (g : ParExeGraph count) (res : Resource count) (s : Delays count) (n : Fin count) : Prop :=
  (s.e n res.index = true ↔ n ∈ g.users res.type) ∧ s.d n res.index = 0

theorem edgeLatency_nonneg (nodes : ∀ n, 0 ≤ g.latency n) (edges : ∀ edge ∈ g.edges, 0 ≤ edge.latency) (edge : ParExeEdge count)
    (member : edge ∈ g.edges) : 0 ≤ g.edgeLatency edge := by
  rw [edgeLatency]
  split
  · exact add_nonneg (nodes _) (edges edge member)
  · exact le_rfl

theorem initial_initDelays (cleared : g.Cleared s) (member : res ∈ g.resources) (n : Fin count) :
    g.Initial res (g.initDelays s) n := by
  refine ⟨?_,?_⟩
  · rw [initDelays_e member,(cleared n res member).1]
    simp
  · rw [initDelays,initFrom_d]
    exact (cleared n res member).2

theorem propagateNode_entry (first : ∀ p, ¬ g.graph.Edge p g.firstNode) (node n : Fin count) {r : Nat} (known : r ∈ indices g.resources) :
    entry (g.propagateNode s node) n r =
      if n = node then
        (g.graph.ins node).foldl (fun now edge => relax (s.e edge.source r) (s.d edge.source r + g.edgeLatency edge) now) (entry s n r)
      else entry s n r := by
  rw [propagateNode]
  split
  · refine propagate_foldl _ (fun edge member => ?_) n known
    exact (mem_ins.mp member).2 ▸ edge.distinct
  · rename_i same
    have none : g.graph.ins node = [] := by
      rw [List.eq_nil_iff_forall_not_mem]
      intro edge member
      obtain ⟨member,last⟩ := mem_ins.mp member
      exact first edge.source ⟨edge,member,rfl,last.trans (not_not.mp same)⟩
    rw [none,List.foldl_nil,ite_self]

theorem propagateNode_solved (nonneg : ∀ edge ∈ g.edges, 0 ≤ g.edgeLatency edge) (first : ∀ p, ¬ g.graph.Edge p g.firstNode)
    (member : res ∈ g.resources) {node : Fin count} (initial : g.Initial res s node)
    (before : ∀ p, g.graph.Edge p node → g.Solved res s p) : g.Solved res (g.propagateNode s node) node := by
  have entry_eq := propagateNode_entry (s := s) first node node (mem_indices member)
  rw [if_pos rfl] at entry_eq
  obtain ⟨e_eq,d_eq⟩ := Prod.mk.inj entry_eq
  obtain ⟨reached_iff,greatest⟩ := foldl_relax (fun edge : ParExeEdge count => s.e edge.source res.index)
    (fun edge => s.d edge.source res.index + g.edgeLatency edge) (g.graph.ins node) (entry s node res.index)
  refine LongestPaths.Solved.of_predecessors (fun p => s.e p res.index = true) (fun p => s.d p res.index) nonneg
    (fun edge inside last => before _ ⟨edge,inside,rfl,last⟩) ?_ ?_
  · rw [e_eq,reached_iff]
    refine or_congr initial.1 ?_
    simp only [mem_ins,and_assoc]
    rfl
  · have zero : (entry s node res.index).2 = 0 := initial.2
    rw [d_eq]
    rw [zero] at greatest
    simp only [mem_ins,and_assoc] at greatest
    exact greatest

theorem propagate_order (nonneg : ∀ edge ∈ g.edges, 0 ≤ g.edgeLatency edge) (first : ∀ p, ¬ g.graph.Edge p g.firstNode)
    {order : List (Fin count)} (topological : Topological g.graph.Edge order) (nodup : order.Nodup) (all : ∀ n, n ∈ order)
    (member : res ∈ g.resources) (initial : ∀ n, g.Initial res s n) (n : Fin count) :
    g.Solved res (order.foldl g.propagateNode s) n := by
  have solved := topological.foldl g.propagateNode (s := s)
    (fun before s => (∀ n ∈ before, g.Solved res s n) ∧ ∀ n, n ∉ before → g.Initial res s n) nodup ⟨by simp,fun n _ => initial n⟩ (by
      intro before x s new ready ⟨done,rest⟩
      -- the nodes other than x know what they knew
      have kept (n : Fin count) (other : n ≠ x) :
          (g.propagateNode s x).e n res.index = s.e n res.index ∧ (g.propagateNode s x).d n res.index = s.d n res.index := by
        have same := propagateNode_entry (s := s) first x n (mem_indices member)
        rw [if_neg other] at same
        exact Prod.mk.inj same
      refine ⟨fun n inside => ?_,fun n outside => ?_⟩
      · by_cases here : n = x
        · subst here
          exact propagateNode_solved nonneg first member (rest n new) fun p edge => done p (ready p edge)
        · rw [Solved,(kept n here).1,(kept n here).2]
          exact done n (by simpa [here] using inside)
      · rw [List.mem_append,List.mem_singleton,not_or] at outside
        rw [Initial,(kept n outside.2).1,(kept n outside.2).2]
        exact rest n outside.1)
  exact solved.1 n (all n)

/-- The order in which `PreorderIterator` gives the nodes. -/
def visits (g : ParExeGraph count) (k : Nat) : Option (List (Fin count)) := g.preorder (fun visited node => visited ++ [node]) k []

end ParExeGraph

theorem neZero_four : NeZero 4 := ⟨Nat.succ_ne_zero 3⟩
attribute [local instance] neZero_four

def fetchStage : ParExeStage 4 := ⟨.fetch,.inOrder,[0,1]⟩

/-- Two edges from the first node to the second one, and two ways to the last one. -/
def branch : ParExeGraph 4 where
  edges := [⟨2,3,.slashed,7,by decide⟩,⟨1,3,.solid,1,by decide⟩,⟨0,2,.solid,4,by decide⟩,⟨0,1,.slashed,0,by decide⟩,⟨0,1,.solid,0,by decide⟩]
  firstNode := 0
  latency n := n.val + 1
  stage n := if n.val < 2 then fetchStage else ⟨.commit,.inOrder,[2,3]⟩
  resources := [⟨0,.blockStart⟩,⟨1,.stage fetchStage 1⟩]
  numbered := by decide

example : (branch.propagate 4 (branch.initDelays ⟨fun _ _ => false,fun _ _ => 0,fun _ _ => false,fun _ => none⟩)).map
    (fun s => (s.d 3 0,s.d 3 1)) = some (5,3) := by decide +kernel

end Otawa.ParExe
