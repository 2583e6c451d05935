import Otawa.BitVector
import Otawa.TopologicalVisit
import Otawa.VectorQueue

/-!
The preorder iterator on graphs (`graph::PreorderIterator`). A node is queued when the
last of its predecessors is visited. On an acyclic graph that is reachable from the entry
it visits each node once, in a topological order (`loop_create`).
-/
namespace Otawa.Preorder
open Otawa.Queue (VectorQueue)
open Otawa.TopologicalVisit
open Relation

variable {count : Nat} {E S : Type}

/-- `GenGraph`: the edges, the last one added first, so that those of a node are in the
    order of its list. -/
structure GenGraph (count : Nat) (E : Type) where
  edges : List E
  source : E → Fin count
  target : E → Fin count

namespace GenGraph
variable (g : GenGraph count E)

def outs (node : Fin count) : List E := g.edges.filter fun edge => g.source edge = node
def ins (node : Fin count) : List E := g.edges.filter fun edge => g.target edge = node

def Edge (p n : Fin count) : Prop := ∃ edge ∈ g.edges, g.source edge = p ∧ g.target edge = n

end GenGraph

structure PreorderIterator (count : Nat) where
  visited : BitVector count
  queued : BitVector count
  queue : VectorQueue (Fin count)

namespace PreorderIterator

def create (entry : Fin count) : PreorderIterator count where
  visited := BitVector.make count false
  queued := (BitVector.make count false).set entry
  queue := (VectorQueue.create 4).put entry

variable (g : GenGraph count E) (it : PreorderIterator count)

def ended : Bool := it.queue.isEmpty

def item : Option (Fin count) := it.queue.head

def check : List E → Bool
  | [] => true
  | pred :: preds => if it.visited.bit (g.source pred) then check preds else false

/-- The loop of `next` on the successors, with its assertion. -/
def queueTargets (it : PreorderIterator count) : List E → Option (PreorderIterator count)
  | [] => some it
  | succ :: succs =>
    if it.queued.bit (g.target succ) then queueTargets it succs
    else if it.visited.bit (g.target succ) then none
    else if it.check g (g.ins (g.target succ)) then
      queueTargets { it with queue := it.queue.put (g.target succ), queued := it.queued.set (g.target succ) } succs
    else queueTargets it succs

def next : Option (PreorderIterator count) :=
  it.queue.get.bind fun (node,queue) =>
    (queueTargets g { it with queue := queue, visited := it.visited.set node } (g.outs node)).map fun it =>
      { it with queued := it.queued.clear node }

/-- A loop `for(PreorderIterator node(…); node; node++)` with its body, for at most k turns. -/
def loop (body : S → Fin count → S) : Nat → PreorderIterator count → S → Option S
  | 0, it, s => if it.ended then some s else none
  | k + 1, it, s =>
    if it.ended then some s
    else it.item.bind fun node => (it.next g).bind fun it => loop body k it (body s node)

end PreorderIterator

variable {g : GenGraph count E} {it : PreorderIterator count} {visited queued ready : List (Fin count)}

structure Represents (it : PreorderIterator count) (visited queued ready : List (Fin count)) : Prop where
  visitedBits : it.visited.Holds (fun n => decide (n ∈ visited)) false
  queuedBits : it.queued.Holds (fun n => decide (n ∈ queued)) false
  items : Queue.Holds it.queue ready

theorem mem_outs {node : Fin count} {edge : E} : edge ∈ g.outs node ↔ edge ∈ g.edges ∧ g.source edge = node := by
  simp [GenGraph.outs]

theorem mem_ins {node : Fin count} {edge : E} : edge ∈ g.ins node ↔ edge ∈ g.edges ∧ g.target edge = node := by
  simp [GenGraph.ins]

private theorem update_mem (l : List (Fin count)) (node : Fin count) :
    Function.update (fun n => decide (n ∈ l)) node true = fun n => decide (n ∈ l ++ [node]) := by
  funext n
  by_cases same : n = node <;> simp [same]

private theorem update_not_mem {l : List (Fin count)} {node : Fin count} (absent : node ∉ l) :
    Function.update (fun n => decide (n ∈ node :: l)) node false = fun n => decide (n ∈ l) := by
  funext n
  by_cases same : n = node <;> simp [same,absent]

private theorem holds_none : (BitVector.make count false).Holds (fun n => decide (n ∈ ([] : List (Fin count)))) false := by
  simpa using BitVector.holds_make false

theorem represents_create (entry : Fin count) : Represents (PreorderIterator.create entry) [] [entry] [entry] where
  visitedBits := holds_none
  queuedBits := by
    have bits := holds_none.set entry
    rwa [update_mem] at bits
  items := (Queue.holds_create 4).put entry

namespace Represents

theorem ended (rep : Represents it visited queued ready) : it.ended = ready.isEmpty := rep.items.isEmpty

theorem bit_visited (rep : Represents it visited queued ready) (node : Fin count) : it.visited.bit node = decide (node ∈ visited) :=
  rep.visitedBits.bit node

theorem bit_queued (rep : Represents it visited queued ready) (node : Fin count) : it.queued.bit node = decide (node ∈ queued) :=
  rep.queuedBits.bit node

theorem check (rep : Represents it visited queued ready) (preds : List E) :
    it.check g preds = true ↔ ∀ pred ∈ preds, g.source pred ∈ visited := by
  induction preds with
  | nil => simp [PreorderIterator.check]
  | cons pred preds ih => simp [PreorderIterator.check,rep.bit_visited,ih]

theorem check_ins (rep : Represents it visited queued ready) (node : Fin count) :
    it.check g (g.ins node) = true ↔ ∀ p, g.Edge p node → p ∈ visited := by
  rw [rep.check]
  constructor
  · rintro all p ⟨edge,member,rfl,last⟩
    exact all edge (mem_ins.mpr ⟨member,last⟩)
  · intro all pred member
    obtain ⟨member,last⟩ := mem_ins.mp member
    exact all _ ⟨pred,member,rfl,last⟩

theorem put (rep : Represents it visited queued ready) (node : Fin count) :
    Represents { it with queue := it.queue.put node, queued := it.queued.set node } visited (queued ++ [node]) (ready ++ [node]) where
  visitedBits := rep.visitedBits
  queuedBits := by
    have bits := rep.queuedBits.set node
    rwa [update_mem] at bits
  items := rep.items.put node

theorem queueTargets (rep : Represents it visited queued ready) (succs : List E)
    (unvisited : ∀ succ ∈ succs, g.target succ ∉ visited) :
    ∃ fresh it', it.queueTargets g succs = some it' ∧ Represents it' visited (queued ++ fresh) (ready ++ fresh) ∧ fresh.Nodup ∧
      ∀ y, y ∈ fresh ↔ y ∉ queued ∧ (∃ succ ∈ succs, g.target succ = y) ∧ ∀ p, g.Edge p y → p ∈ visited := by
  induction succs generalizing it queued ready with
  | nil => exact ⟨[],it,rfl,by simpa using rep,List.nodup_nil,by simp⟩
  | cons succ succs ih =>
    have later (succ') (member : succ' ∈ succs) : g.target succ' ∉ visited := unvisited succ' (List.mem_cons_of_mem _ member)
    have absent : g.target succ ∉ visited := unvisited succ List.mem_cons_self
    -- a successor that does not become ready adds nothing to the fresh ones
    have skip (idle : g.target succ ∉ queued → ¬ ∀ p, g.Edge p (g.target succ) → p ∈ visited) :
        ∃ fresh it', it.queueTargets g succs = some it' ∧ Represents it' visited (queued ++ fresh) (ready ++ fresh) ∧ fresh.Nodup ∧
          ∀ y, y ∈ fresh ↔ y ∉ queued ∧ (∃ succ' ∈ succ :: succs, g.target succ' = y) ∧ ∀ p, g.Edge p y → p ∈ visited := by
      obtain ⟨fresh,it',ran,rep',nodup,mem_fresh⟩ := ih rep later
      refine ⟨fresh,it',ran,rep',nodup,fun y => ?_⟩
      rw [mem_fresh]
      simp only [List.mem_cons,exists_eq_or_imp]
      constructor
      · rintro ⟨out,next,seen⟩
        exact ⟨out,Or.inr next,seen⟩
      · rintro ⟨out,rfl | next,seen⟩
        · exact absurd seen (idle out)
        · exact ⟨out,next,seen⟩
    rw [PreorderIterator.queueTargets,rep.bit_queued,rep.bit_visited]
    by_cases waits : g.target succ ∈ queued
    · rw [if_pos (decide_eq_true waits)]
      exact skip fun out => absurd waits out
    · rw [if_neg (by simpa using waits),if_neg (by simpa using absent)]
      by_cases all : ∀ p, g.Edge p (g.target succ) → p ∈ visited
      · rw [if_pos ((rep.check_ins _).mpr all)]
        obtain ⟨fresh,it',ran,rep',nodup,mem_fresh⟩ := ih (rep.put (g.target succ)) later
        refine ⟨g.target succ :: fresh,it',ran,by simpa using rep',List.nodup_cons.mpr ⟨fun member => ?_,nodup⟩,fun y => ?_⟩
        · simpa using ((mem_fresh _).mp member).1
        · rw [List.mem_cons,mem_fresh,List.mem_append,List.mem_singleton]
          simp only [List.mem_cons,exists_eq_or_imp]
          constructor
          · rintro (rfl | ⟨out,next,seen⟩)
            · exact ⟨waits,Or.inl rfl,all⟩
            · exact ⟨fun member => out (Or.inl member),Or.inr next,seen⟩
          · rintro ⟨out,rfl | next,seen⟩
            · exact Or.inl rfl
            · by_cases same : y = g.target succ
              · exact Or.inl same
              · exact Or.inr ⟨not_or.mpr ⟨out,same⟩,next,seen⟩
      · rw [if_neg (mt (rep.check_ins _).mp all)]
        exact skip fun _ => all

end Represents

theorem edge_iff {node y : Fin count} : g.Edge node y ↔ ∃ succ ∈ g.outs node, g.target succ = y := by
  simp only [GenGraph.Edge,mem_outs,and_assoc]

theorem next_frontier {entry node : Fin count} (acyclic : ∀ n, ¬ TransGen g.Edge n n)
    (rep : Represents it visited (node :: ready) (node :: ready)) (frontier : Frontier g.Edge entry visited (node :: ready)) :
    ∃ it' fresh, it.next g = some it' ∧ Represents it' (visited ++ [node]) (ready ++ fresh) (ready ++ fresh) ∧
      Frontier g.Edge entry (visited ++ [node]) (ready ++ fresh) := by
  have new : node ∉ visited := fun member => List.disjoint_of_nodup_append frontier.nodup member List.mem_cons_self
  have once : node ∉ ready := (List.nodup_cons.mp (List.nodup_append.mp frontier.nodup).2.1).1
  have ahead (y : Fin count) (next : g.Edge node y) : y ∉ visited ++ [node] ∧ y ∉ node :: ready := by
    have differ : y ≠ node := by
      rintro rfl
      exact acyclic y (.single next)
    have unseen : y ∉ visited := fun member => new (frontier.topological.closed member next)
    have idle : y ∉ ready := fun member => new (frontier.opened y (List.mem_cons_of_mem _ member) node next)
    simp [differ,unseen,idle]
  obtain ⟨queue,got,items⟩ := rep.items.get
  have bits := rep.visitedBits.set node
  rw [update_mem] at bits
  have taken : Represents { it with queue := queue, visited := it.visited.set node } (visited ++ [node]) (node :: ready) ready :=
    ⟨bits,rep.queuedBits,items⟩
  obtain ⟨fresh,it',ran,rep',distinct,mem_fresh⟩ := taken.queueTargets (g := g) (g.outs node)
    fun succ member => (ahead _ (edge_iff.mpr ⟨succ,member,rfl⟩)).1
  have cleared : node ∉ ready ++ fresh := by
    rw [List.mem_append,mem_fresh]
    simp [once]
  have marks := rep'.queuedBits.clear node
  rw [List.cons_append,update_not_mem cleared] at marks
  refine ⟨{ it' with queued := it'.queued.clear node },fresh,?_,⟨rep'.visitedBits,marks,rep'.items⟩,?_⟩
  · rw [PreorderIterator.next,got,Option.bind_some]
    exact congrArg (Option.map _) ran
  · refine frontier.step distinct fun y => ?_
    rw [mem_fresh,← edge_iff]
    constructor
    · rintro ⟨_,next,seen⟩
      exact ⟨next,seen⟩
    · rintro ⟨next,seen⟩
      exact ⟨(ahead y next).2,next,seen⟩

private theorem loop_ended {it : PreorderIterator count} (ended : it.ended = true) (body : S → Fin count → S) (k : Nat) (s : S) :
    PreorderIterator.loop g body k it s = some s := by
  cases k <;> simp [PreorderIterator.loop,ended]

theorem loop_frontier {entry : Fin count} (acyclic : ∀ n, ¬ TransGen g.Edge n n) {left : Nat}
    (rep : Represents it visited ready ready) (frontier : Frontier g.Edge entry visited ready) (turns : count ≤ visited.length + left) :
    ∃ rest, Frontier g.Edge entry (visited ++ rest) [] ∧ ∀ k, count ≤ visited.length + k →
      ∀ (S : Type) (body : S → Fin count → S) s, PreorderIterator.loop g body k it s = some (rest.foldl body s) := by
  have fits : visited.length + ready.length ≤ count := by
    simpa using frontier.nodup.length_le_card
  induction left generalizing it visited ready with
  | zero =>
    obtain rfl : ready = [] := List.length_eq_zero_iff.mp (by omega)
    exact ⟨[],by simpa using frontier,fun k _ S body s => loop_ended rep.ended body k s⟩
  | succ left ih =>
    cases ready with
    | nil => exact ⟨[],by simpa using frontier,fun k _ S body s => loop_ended rep.ended body k s⟩
    | cons node ready =>
      obtain ⟨it',fresh,ran,rep',frontier'⟩ := next_frontier acyclic rep frontier
      have fits' : (visited ++ [node]).length + (ready ++ fresh).length ≤ count := by
        simpa [Nat.add_assoc,Nat.add_comm 1] using frontier'.nodup.length_le_card
      obtain ⟨rest,finished,runs⟩ := ih rep' frontier' (by rw [List.length_append,List.length_singleton]; omega) fits'
      refine ⟨node :: rest,by simpa using finished,fun k enough S body s => ?_⟩
      rw [List.length_cons] at fits
      obtain ⟨k,rfl⟩ : ∃ k', k = k' + 1 := ⟨k - 1,by omega⟩
      have head : it.item = some node := rep.items.head
      rw [PreorderIterator.loop,rep.ended,head,ran]
      exact runs k (by rw [List.length_append,List.length_singleton]; omega) S body (body s node)

theorem loop_create (entry : Fin count) (acyclic : ∀ n, ¬ TransGen g.Edge n n) (reachable : ∀ n, ReflTransGen g.Edge entry n) :
    ∃ order : List (Fin count), order.Nodup ∧ (∀ n, n ∈ order) ∧ Topological g.Edge order ∧
      ∀ k, count ≤ k → ∀ (S : Type) (body : S → Fin count → S) s,
        PreorderIterator.loop g body k (PreorderIterator.create entry) s = some (order.foldl body s) := by
  obtain ⟨order,finished,runs⟩ := loop_frontier acyclic (represents_create entry)
    (Frontier.start (no_predecessor acyclic reachable)) (Nat.le_add_left count 0)
  rw [List.nil_append] at finished
  refine ⟨order,(List.nodup_append.mp finished.nodup).1,finished.all acyclic reachable,finished.topological,fun k enough => ?_⟩
  exact runs k (by simpa using enough)

end Otawa.Preorder
