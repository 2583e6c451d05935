import Mathlib.Data.Fintype.Card
import Mathlib.Logic.Relation

/-!
Visits of a directed graph from a source, where a vertex is ready as soon as every vertex
with an edge to it has been visited. When the graph is finite and acyclic and the source
reaches each vertex, the visit ends with all of them, in a topological order.
-/
namespace Otawa.TopologicalVisit
open Relation

variable {V : Type*} (edge : V → V → Prop)

def Topological (order : List V) : Prop := ∀ before x after, order = before ++ x :: after → ∀ p, edge p x → p ∈ before

/-- What has been visited and what is ready: a vertex is in one of them when its
    predecessors have been visited. -/
structure Frontier (source : V) (visited ready : List V) : Prop where
  nodup : (visited ++ ready).Nodup
  topological : Topological edge visited
  opened : ∀ x ∈ ready, ∀ p, edge p x → p ∈ visited
  complete : ∀ x, x = source ∨ (∃ p, edge p x) → (∀ p, edge p x → p ∈ visited) → x ∈ visited ++ ready

variable {edge} {source x : V} {visited ready order : List V}

theorem topological_nil : Topological edge ([] : List V) := fun _ _ _ split => absurd split (by simp)

theorem Topological.concat (topological : Topological edge order) (before : ∀ p, edge p x → p ∈ order) :
    Topological edge (order ++ [x]) := by
  intro first y after split
  rcases List.eq_nil_or_concat' after with rfl | ⟨after,z,rfl⟩
  · obtain ⟨rfl,last⟩ := List.append_inj' split rfl
    obtain rfl := List.singleton_injective last
    exact before
  · rw [← List.cons_append,← List.append_assoc] at split
    exact topological first y after (List.append_inj' split rfl).1

theorem Topological.init (topological : Topological edge (order ++ [x])) : Topological edge order :=
  fun before y after split => topological before y (after ++ [x]) (by simp [split])

theorem Topological.closed {p : V} (topological : Topological edge order) (member : x ∈ order) (before : edge p x) : p ∈ order := by
  obtain ⟨first,after,split⟩ := List.append_of_mem member
  rw [split]
  exact List.mem_append_left _ (topological first x after split p before)

theorem Topological.foldl {S : Type*} (body : S → V → S) (motive : List V → S → Prop) {s : S}
    (topological : Topological edge order) (nodup : order.Nodup) (start : motive [] s)
    (step : ∀ before x s, x ∉ before → (∀ p, edge p x → p ∈ before) → motive before s → motive (before ++ [x]) (body s x)) :
    motive order (order.foldl body s) := by
  induction order using List.reverseRecOn with
  | nil => exact start
  | append_singleton before x ih =>
    have new : x ∉ before := List.nodup_cons.mp (List.nodup_append_comm.mp nodup) |>.1
    rw [List.foldl_append]
    exact step before x _ new (topological before x [] rfl) (ih topological.init (List.nodup_append.mp nodup).1)

theorem Frontier.start (first : ∀ p, ¬ edge p source) : Frontier edge source [] [source] where
  nodup := List.nodup_singleton source
  topological := topological_nil
  opened x ready p before := absurd (List.mem_singleton.mp ready ▸ before) (first p)
  complete x known seen := by
    rcases known with rfl | ⟨p,before⟩
    · simp
    · exact absurd (seen p before) List.not_mem_nil

theorem Frontier.step {fresh : List V} (frontier : Frontier edge source visited (x :: ready)) (distinct : fresh.Nodup)
    (mem_fresh : ∀ y, y ∈ fresh ↔ edge x y ∧ ∀ p, edge p y → p ∈ visited ++ [x]) :
    Frontier edge source (visited ++ [x]) (ready ++ fresh) := by
  obtain ⟨nodup,topological,opened,complete⟩ := frontier
  have unvisited : x ∉ visited := fun member => List.disjoint_of_nodup_append nodup member List.mem_cons_self
  have old (y : V) (member : y ∈ visited ++ x :: ready) (p : V) (before : edge p y) : p ∈ visited := by
    rcases List.mem_append.mp member with seen | waits
    · exact topological.closed seen before
    · exact opened y waits p before
  have same : visited ++ [x] ++ (ready ++ fresh) = (visited ++ x :: ready) ++ fresh := by simp
  refine ⟨?_,topological.concat (opened x List.mem_cons_self),fun y waits p before => ?_,fun y known seen => ?_⟩
  · rw [same]
    refine nodup.append distinct fun y known new => ?_
    exact unvisited (old y known x ((mem_fresh y).mp new).1)
  · rcases List.mem_append.mp waits with waits | new
    · exact List.mem_append_left _ (opened y (List.mem_cons_of_mem _ waits) p before)
    · exact ((mem_fresh y).mp new).2 p before
  · rw [same]
    by_cases last : edge x y
    · exact List.mem_append_right _ ((mem_fresh y).mpr ⟨last,seen⟩)
    · refine List.mem_append_left _ (complete y known fun p before => ?_)
      rcases List.mem_append.mp (seen p before) with visited | here
      · exact visited
      · exact absurd (List.mem_singleton.mp here ▸ before) last

theorem wellFounded_of_acyclic [Finite V] (acyclic : ∀ x, ¬ TransGen edge x x) : WellFounded edge := by
  have trans : IsTrans V (TransGen edge) := ⟨fun _ _ _ => TransGen.trans⟩
  have irrefl : Std.Irrefl (TransGen edge) := ⟨acyclic⟩
  exact Subrelation.wf TransGen.single (Finite.wellFounded_of_trans_of_irrefl (TransGen edge))

theorem acyclic_of_lt (rank : V → Nat) (up : ∀ x y, edge x y → rank x < rank y) (x : V) : ¬ TransGen edge x x := by
  intro cycle
  have climbs : rank x < rank x := TransGen.trans_induction_on (motive := fun {a b} _ => rank a < rank b) cycle
    (up _ _ ·) fun _ _ => lt_trans
  exact lt_irrefl _ climbs

theorem no_predecessor (acyclic : ∀ x, ¬ TransGen edge x x) (reachable : ∀ x, ReflTransGen edge source x) (p : V) :
    ¬ edge p source :=
  fun before => acyclic source (TransGen.tail' (reachable p) before)

theorem Frontier.all [Finite V] (acyclic : ∀ x, ¬ TransGen edge x x) (reachable : ∀ x, ReflTransGen edge source x)
    (frontier : Frontier edge source visited []) (x : V) : x ∈ visited := by
  induction x using (wellFounded_of_acyclic acyclic).induction with
  | _ x ih =>
    have known : x = source ∨ ∃ p, edge p x := by
      rcases (reachable x).cases_tail with same | ⟨p,_,before⟩
      · exact Or.inl same
      · exact Or.inr ⟨p,before⟩
    simpa using frontier.complete x known ih

end Otawa.TopologicalVisit
