import Otawa.Cfg
import Otawa.IterativeDFA
import Mathlib.Data.Finset.Card
import Mathlib.Data.Fin.VecNotation

/-!
Dominance of a control flow graph (`Dominance`): for each block the set of its dominators,
computed by the data flow engine, then the marks on back edges and loop headers.
-/
namespace Otawa.Cfg
open Otawa.Dfa (IterativeDFA)

variable {n m : Nat}

/-- `DominanceProblem`, over the predecessors. -/
def dominanceProblem (g : CFG n m) : IterativeDFA n (Finset (Fin n)) where
  empty := Finset.univ
  gen bb := {bb}
  kill bb := if bb = g.entry then Finset.univ else ∅
  equals set1 set2 := decide (set1 = set2)
  reset := Finset.univ
  merge set1 set2 := set1 ∩ set2
  add dset tset := dset ∪ tset
  diff dset tset := dset \ tset
  iter := g.predecessors
  forward := g.successors

/-- `Dominance::dominates`, with its assertion. -/
def dominates (reverseDom : Fin n → Finset (Fin n)) (bb1 bb2 : Fin n) : Option Bool :=
  if bb1 = bb2 ∨ bb2 ∉ reverseDom bb1 ∨ bb1 ∉ reverseDom bb2 then some (decide (bb1 ∈ reverseDom bb2)) else none

structure Marks (n m : Nat) where
  loopHeader : Fin n → Bool
  backEdge : Fin m → Bool

def Marks.none : Marks n m := ⟨fun _ => false,fun _ => false⟩

def Marks.set (marks : Marks n m) (h : Fin n) (edge : Fin m) : Marks n m :=
  ⟨Function.update marks.loopHeader h true,Function.update marks.backEdge edge true⟩

variable (g : CFG n m)

/-- The body of the loops of `markLoopHeaders`. -/
def markEdge (reverseDom : Fin n → Finset (Fin n)) (bb : Fin n) (marks : Marks n m) (edge : Fin m) : Option (Marks n m) :=
  if g.kind edge ≠ .call then
    (dominates reverseDom (g.target edge) bb).map fun back =>
      if back then marks.set (g.target edge) edge else marks
  else some marks

def markLoopHeaders (reverseDom : Fin n → Finset (Fin n)) : Option (Marks n m) :=
  g.blocks.foldlM (fun marks bb => (g.outs bb).foldlM (markEdge g reverseDom bb) marks) Marks.none

structure DominanceInfo (n m : Nat) extends Marks n m where
  reverseDom : Fin n → Finset (Fin n)

/-- `Dominance::processCFG`; the engine stops within these turns. -/
def processDominance : Option (DominanceInfo n m) := do
  let engine ← (dominanceProblem g).compute (n + n * (n * n))
  let marks ← markLoopHeaders g engine.outs
  some ⟨marks,engine.outs⟩

variable {g}

private theorem mem_fold {outs : Fin n → Finset (Fin n)} {a : Fin n} {preds : List (Fin n)} {set : Finset (Fin n)} :
    a ∈ preds.foldl (fun set p => set ∩ outs p) set ↔ a ∈ set ∧ ∀ p ∈ preds, a ∈ outs p := by
  induction preds generalizing set with
  | nil => simp
  | cons p rest ih => simp [ih,and_assoc]

theorem mem_output {outs : Fin n → Finset (Fin n)} {a b : Fin n} :
    a ∈ (dominanceProblem g).output outs b ↔ a = b ∨ b ≠ g.entry ∧ ∀ p, g.Flow p b → a ∈ outs p := by
  have input : a ∈ (dominanceProblem g).input outs b ↔ ∀ p, g.Flow p b → a ∈ outs p := by
    unfold IterativeDFA.input
    simp only [dominanceProblem,mem_fold,Finset.mem_univ,true_and,g.mem_predecessors]
  have kill : a ∈ (dominanceProblem g).kill b ↔ b = g.entry := by
    simp only [dominanceProblem]
    split <;> simp [*]
  show a ∈ (_ \ _) ∪ {b} ↔ _
  rw [Finset.mem_union,Finset.mem_sdiff,Finset.mem_singleton,input,kill,or_comm,and_comm]

theorem dominance_lawful : Dfa.Lawful (dominanceProblem g) where
  equals _ _ := decide_eq_true_iff
  converse _ _ := by simp only [dominanceProblem,g.mem_predecessors,g.mem_successors]

private theorem descent : Worklist.Descent (Dfa.equations (dominance_lawful (g := g))) (fun x y => x ⊆ y) Finset.card where
  refl _ := Finset.Subset.refl _
  trans := Finset.Subset.trans
  mono b below a member := by
    rw [Dfa.equations,mem_output] at member ⊢
    exact member.imp_right fun ⟨inner,all⟩ => ⟨inner,fun p flow => below p (all p flow)⟩
  rank_lt below differ := Finset.card_lt_card (Finset.ssubset_iff_subset_ne.mpr ⟨below,differ⟩)

theorem reverseDom_spec : ∃ s, (dominanceProblem g).compute (n + n * (n * n)) = some s ∧
    ∀ a b, a ∈ s.outs b ↔ g.Dominates a b := by
  classical
  obtain ⟨s,computed,fixed,greatest⟩ := Dfa.compute_spec (dominance_lawful (g := g)) descent
    (fun x => Finset.subset_univ x) (k := n + n * (n * n)) (by simp [dominanceProblem])
  refine ⟨s,computed,fun a b => ⟨fun member visited path => ?_,fun dom => ?_⟩⟩
  · induction path with
    | root =>
      rw [← fixed,mem_output] at member
      rcases member with rfl | ⟨inner,_⟩
      · simp
      · exact absurd rfl inner
    | @step _ p b path flow ih =>
      rw [← fixed,mem_output] at member
      rcases member with rfl | ⟨_,all⟩
      · simp
      · exact List.mem_cons_of_mem _ (ih (all p flow))
  · refine greatest (fun b => Finset.univ.filter fun a => g.Dominates a b) (fun b => ?_) b (by simpa using dom)
    ext a
    rw [mem_output]
    simp only [Finset.mem_filter,Finset.mem_univ,true_and]
    exact FlowGraph.dominates_iff.symm

theorem dominates_spec {reverseDom : Fin n → Finset (Fin n)} (exact_ : ∀ a b, a ∈ reverseDom b ↔ g.Dominates a b)
    {b : Fin n} (reachable : g.Reachable b) (a : Fin n) :
    ∃ answer, dominates reverseDom a b = some answer ∧ (answer = true ↔ g.Dominates a b) := by
  refine ⟨decide (a ∈ reverseDom b),if_pos ?_,by rw [decide_eq_true_iff,exact_]⟩
  by_contra both
  simp only [not_or,not_not,exact_] at both
  exact both.1 (FlowGraph.Dominates.antisymm reachable both.2.2 both.2.1)

def CFG.IsBack (g : CFG n m) (e : Fin m) : Prop := g.kind e ≠ .call ∧ g.Dominates (g.target e) (g.source e)

structure Marked (g : CFG n m) (seen : Fin m → Prop) (marks : Marks n m) : Prop where
  back : ∀ e, marks.backEdge e = true ↔ seen e ∧ g.IsBack e
  header : ∀ h, marks.loopHeader h = true ↔ ∃ e, seen e ∧ g.IsBack e ∧ g.target e = h

def CFG.Connected (g : CFG n m) : Prop := ∀ e, g.kind e ≠ .call → g.Reachable (g.source e)

variable {reverseDom : Fin n → Finset (Fin n)} {seen : Fin m → Prop} {marks : Marks n m}

theorem marked_edge (exact_ : ∀ a b, a ∈ reverseDom b ↔ g.Dominates a b) (connected : g.Connected)
    (marked : Marked g seen marks) (e : Fin m) :
    ∃ marks', markEdge g reverseDom (g.source e) marks e = some marks' ∧ Marked g (fun d => seen d ∨ d = e) marks' := by
  -- without a mark for e, what was marked is what has to be
  have unmarked (front : ¬ g.IsBack e) : Marked g (fun d => seen d ∨ d = e) marks := by
    refine ⟨fun d => (marked.back d).trans ?_,fun h => (marked.header h).trans ?_⟩
    · refine ⟨fun ⟨old,back⟩ => ⟨Or.inl old,back⟩,?_⟩
      rintro ⟨old | rfl,back⟩
      · exact ⟨old,back⟩
      · exact absurd back front
    · refine ⟨fun ⟨d,old,back,target⟩ => ⟨d,Or.inl old,back,target⟩,?_⟩
      rintro ⟨d,old | rfl,back,target⟩
      · exact ⟨d,old,back,target⟩
      · exact absurd back front
  by_cases flow : g.kind e ≠ .call
  · obtain ⟨answer,answered,correct⟩ := dominates_spec exact_ (connected e flow) (g.target e)
    refine ⟨if answer then marks.set (g.target e) e else marks,by rw [markEdge,if_pos flow,answered]; rfl,?_⟩
    by_cases dom : g.Dominates (g.target e) (g.source e)
    · rw [if_pos (correct.mpr dom)]
      refine ⟨fun d => ?_,fun h => ?_⟩
      · by_cases same : d = e
        · subst same
          simp [Marks.set,CFG.IsBack,flow,dom]
        · simp [Marks.set,same,marked.back d]
      · by_cases same : h = g.target e
        · subst same
          simp only [Marks.set,Function.update_self,true_iff]
          exact ⟨e,Or.inr rfl,⟨flow,dom⟩,rfl⟩
        · simp only [Marks.set,Function.update_of_ne same,marked.header h]
          constructor
          · rintro ⟨d,old,back,target⟩; exact ⟨d,Or.inl old,back,target⟩
          · rintro ⟨d,old | rfl,back,target⟩
            · exact ⟨d,old,back,target⟩
            · exact absurd target.symm same
    · rw [if_neg fun set => dom (correct.mp set)]
      exact unmarked fun back => dom back.2
  · exact ⟨marks,if_neg flow,unmarked fun back => flow back.1⟩

theorem marked_outs (exact_ : ∀ a b, a ∈ reverseDom b ↔ g.Dominates a b) (connected : g.Connected) {bb : Fin n}
    {edges : List (Fin m)} (outs : ∀ e ∈ edges, g.source e = bb) (marked : Marked g seen marks) :
    ∃ marks', edges.foldlM (markEdge g reverseDom bb) marks = some marks' ∧
      Marked g (fun d => seen d ∨ d ∈ edges) marks' := by
  induction edges generalizing seen marks with
  | nil => exact ⟨marks,rfl,by simpa using marked⟩
  | cons e rest ih =>
    obtain ⟨first,done,marked'⟩ := marked_edge exact_ connected marked e
    rw [outs e (by simp)] at done
    obtain ⟨last,folded,marked''⟩ := ih (fun d member => outs d (by simp [member])) marked'
    exact ⟨last,by rw [List.foldlM_cons,done]; exact folded,by simpa [or_assoc] using marked''⟩

theorem marked_blocks (exact_ : ∀ a b, a ∈ reverseDom b ↔ g.Dominates a b) (connected : g.Connected)
    (blocks : List (Fin n)) (marked : Marked g seen marks) :
    ∃ marks', blocks.foldlM (fun marks bb => (g.outs bb).foldlM (markEdge g reverseDom bb) marks) marks = some marks' ∧
      Marked g (fun d => seen d ∨ g.source d ∈ blocks) marks' := by
  induction blocks generalizing seen marks with
  | nil => exact ⟨marks,rfl,by simpa using marked⟩
  | cons bb rest ih =>
    obtain ⟨first,done,marked'⟩ := marked_outs exact_ connected (fun e member => g.mem_outs.mp member) marked
    obtain ⟨last,folded,marked''⟩ := ih marked'
    exact ⟨last,by rw [List.foldlM_cons,done]; exact folded,by simpa [or_assoc,eq_comm] using marked''⟩

/-- What `processCFG` leaves when all sources of non-call edges can be reached. -/
structure DominanceInfo.Exact (g : CFG n m) (info : DominanceInfo n m) : Prop where
  dominators : ∀ a b, a ∈ info.reverseDom b ↔ g.Dominates a b
  back : ∀ e, info.backEdge e = true ↔ g.IsBack e
  header : ∀ h, info.loopHeader h = true ↔ ∃ e, g.IsBack e ∧ g.target e = h

theorem processDominance_exact (connected : g.Connected) :
    ∃ info, processDominance g = some info ∧ info.Exact g := by
  obtain ⟨s,computed,dominators⟩ := reverseDom_spec (g := g)
  have start : Marked g (fun _ => False) Marks.none := ⟨fun e => by simp [Marks.none],fun h => by simp [Marks.none]⟩
  obtain ⟨marks,folded,marked⟩ := marked_blocks dominators connected g.blocks start
  refine ⟨⟨marks,s.outs⟩,?_,dominators,fun e => ?_,fun h => ?_⟩
  · rw [processDominance,computed]
    show (markLoopHeaders g s.outs).bind _ = _
    rw [markLoopHeaders,folded]; rfl
  · simpa using marked.back e
  · simpa using marked.header h

/-- In a graph whose blocks can all be reached, `dominates` is dominance by paths, and
    the marks are on the back edges and on their targets. -/
theorem dominance_by_paths (connected : ∀ b, g.Reachable b) :
    ∃ info, processDominance g = some info ∧
      (∀ a b, ∃ answer, dominates info.reverseDom a b = some answer ∧ (answer = true ↔ g.Dominates a b)) ∧
      (∀ e, info.backEdge e = true ↔ g.kind e ≠ .call ∧ g.Dominates (g.target e) (g.source e)) ∧
      ∀ h, info.loopHeader h = true ↔ ∃ e, g.kind e ≠ .call ∧ g.target e = h ∧ g.Dominates h (g.source e) := by
  obtain ⟨info,processed,exact_⟩ := processDominance_exact fun e _ => connected (g.source e)
  refine ⟨info,processed,fun a b => dominates_spec exact_.dominators (connected b) a,exact_.back,fun h => ?_⟩
  rw [exact_.header]
  constructor
  · rintro ⟨e,⟨flow,dom⟩,rfl⟩; exact ⟨e,flow,rfl,dom⟩
  · rintro ⟨e,flow,rfl,dom⟩; exact ⟨e,⟨flow,dom⟩,rfl⟩

attribute [local instance] neZero_four

/-- The entry, a block, a block with an edge to itself, the exit. -/
def selfLoop : CFG 4 4 := ⟨0,![0,1,2,2],![1,2,2,3],![.virtual,.notTaken,.taken,.notTaken]⟩

theorem dominance_by_paths_selfLoop :
    ∃ info, processDominance selfLoop = some info ∧ info.backEdge 2 = true ∧ info.loopHeader 2 = true := by
  have first : selfLoop.Reachable 1 := FlowGraph.reachable_root.step ⟨0,by decide,rfl,rfl⟩
  have second : selfLoop.Reachable 2 := first.step ⟨1,by decide,rfl,rfl⟩
  have last : selfLoop.Reachable 3 := second.step ⟨3,by decide,rfl,rfl⟩
  obtain ⟨info,processed,_,back,header⟩ := dominance_by_paths (g := selfLoop) (by
    intro b
    match b with
    | 0 => exact FlowGraph.reachable_root
    | 1 => exact first
    | 2 => exact second
    | 3 => exact last)
  exact ⟨info,processed,(back 2).mpr ⟨by decide,FlowGraph.dominates_refl 2⟩,
    (header 2).mpr ⟨2,by decide,rfl,FlowGraph.dominates_refl 2⟩⟩

end Otawa.Cfg
