import Otawa.Dominance

/-!
Postdominance of a control flow graph (`PostDominance`): the data flow engine goes over the
successors, from the exit. The answers are those of the paths to the exit; the assertion
fails exactly for two blocks from which the exit cannot be reached.
-/
namespace Otawa.Cfg
open Otawa.Dfa (IterativeDFA)

variable {n m : Nat}

/-- `PostDominanceProblem`: `DominanceProblem` over the successors, from the exit. -/
def postDominanceProblem (g : CFG n m) (exit : Fin n) : IterativeDFA n (Finset (Fin n)) :=
  { dominanceProblem g with
    kill := fun bb => if bb = exit then Finset.univ else ∅
    iter := g.successors
    forward := g.predecessors }

/-- `PostDominance::processCFG`: `REVERSE_POSTDOM` of the blocks; the engine stops within these turns. -/
def processPostDominance (g : CFG n m) (exit : Fin n) : Option (Fin n → Finset (Fin n)) :=
  ((postDominanceProblem g exit).compute (n + n * (n * n))).map fun engine => engine.outs

/-- `PostDominance::postDominates`, with the assertion of `Dominance::dominates` on the other sets. -/
def postDominates (reversePostdom : Fin n → Finset (Fin n)) (bb1 bb2 : Fin n) : Option Bool :=
  dominates reversePostdom bb1 bb2

/-- A path of non-call edges from a block to the exit, with its blocks. -/
inductive ToExit (g : CFG n m) (exit : Fin n) : List (Fin n) → Fin n → Prop
  | exit : ToExit g exit [exit] exit
  | step {visited : List (Fin n)} {a b : Fin n} : g.Flow a b → ToExit g exit visited b → ToExit g exit (a :: visited) a

/-- The graph with its edges the other way round. -/
def CFG.reversed (g : CFG n m) (exit : Fin n) : CFG n m := ⟨exit,g.target,g.source,g.kind⟩

variable {g : CFG n m} {exit : Fin n}

theorem reversed_problem : postDominanceProblem g exit = dominanceProblem (g.reversed exit) := by
  have successors : g.successors = (g.reversed exit).predecessors := by
    funext b
    simp only [CFG.successors,CFG.predecessors,CFG.outs,CFG.ins,CFG.reversed,List.filter_reverse,List.filter_filter]
    refine congrArg (fun edges => edges.reverse.map g.target) (List.filter_congr fun e _ => ?_)
    by_cases call : g.kind e = .call <;> simp [call]
  have predecessors : g.predecessors = (g.reversed exit).successors := by
    funext b
    simp only [CFG.successors,CFG.predecessors,CFG.outs,CFG.ins,CFG.reversed,List.filter_reverse,List.filter_filter]
    refine congrArg (fun edges => edges.reverse.map g.source) (List.filter_congr fun e _ => ?_)
    by_cases call : g.kind e = .call <;> simp [call]
    rfl
  unfold postDominanceProblem dominanceProblem
  rw [successors,predecessors]
  rfl

theorem reversed_flow {a b : Fin n} : (g.reversed exit).Flow a b ↔ g.Flow b a :=
  exists_congr fun _ => and_congr_right fun _ => and_comm

theorem reversed_path {visited : List (Fin n)} {b : Fin n} :
    FlowGraph.Path (g.reversed exit).Flow exit visited b ↔ ToExit g exit visited b := by
  constructor
  · intro path
    induction path with
    | root => exact .exit
    | step _ next ih => exact .step (reversed_flow.mp next) ih
  · intro path
    induction path with
    | exit => exact .root
    | step next _ ih => exact ih.step (reversed_flow.mpr next)

/-- A block postdominates another one when it is on all its paths to the exit; the answer is
    missing for two blocks without such a path. -/
theorem postDominance_by_paths : ∃ reversePostdom, processPostDominance g exit = some reversePostdom ∧ ∀ a b,
    (postDominates reversePostdom a b = none ↔ a ≠ b ∧ (¬ ∃ visited, ToExit g exit visited a) ∧ ¬ ∃ visited, ToExit g exit visited b) ∧
    ∀ answer, postDominates reversePostdom a b = some answer →
      (answer = true ↔ ∀ visited, ToExit g exit visited b → a ∈ visited) := by
  obtain ⟨s,computed,exact_⟩ := reverseDom_spec (g := g.reversed exit)
  have paths (a b : Fin n) : a ∈ s.outs b ↔ ∀ visited, ToExit g exit visited b → a ∈ visited :=
    (exact_ a b).trans (forall_congr' fun _ => imp_congr_left reversed_path)
  have alone {a b : Fin n} (reaches : ∃ visited, ToExit g exit visited b) (first : a ∈ s.outs b) (second : b ∈ s.outs a) :
      a = b :=
    FlowGraph.Dominates.antisymm (reaches.imp fun _ => reversed_path.mpr) ((exact_ a b).mp first) ((exact_ b a).mp second)
  refine ⟨s.outs,by rw [processPostDominance,reversed_problem,computed]; rfl,fun a b => ⟨?_,fun answer answered => ?_⟩⟩
  · rw [postDominates,dominates]
    constructor
    · intro failed
      split at failed
      · cases failed
      · rename_i both
        push Not at both
        obtain ⟨differ,second,first⟩ := both
        exact ⟨differ,fun reaches => differ (alone reaches second first).symm,fun reaches => differ (alone reaches first second)⟩
    · rintro ⟨differ,first,second⟩
      rw [if_neg]
      push Not
      exact ⟨differ,(paths b a).mpr fun _ path => absurd ⟨_,path⟩ first,(paths a b).mpr fun _ path => absurd ⟨_,path⟩ second⟩
  · rw [postDominates,dominates] at answered
    split at answered
    · obtain rfl := Option.some.inj answered
      rw [decide_eq_true_iff,paths]
    · cases answered

end Otawa.Cfg
