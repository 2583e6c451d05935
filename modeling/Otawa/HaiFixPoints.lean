import Otawa.HaiSound
import Mathlib.Logic.Relation
import Mathlib.Data.Fintype.Order
import Mathlib.Order.CompletePartialOrder

/-!
The two policies on whole graphs: what `DefaultFixPoint` and `FirstUnrollingFixPoint`
record is above all paths when no edge leaves two loops, and the second one declares a
loop fixed when its last iteration brings nothing new. An edge that leaves two loops is
released with the inner one, and states are lost.
-/
namespace Otawa.Hai
open Otawa.Cfg

universe u
variable {n m : Nat} {S D : Type u} {g : CFG n m} {dom : DominanceInfo n m} {info : LoopInfo n m}

/-! ### The runs of the unrolling policy -/

section Unrolling
variable [SemilatticeSup D] [OrderBot D] {fp : FixPoint S D} {p : Problem n D} {entdom : D}
variable {st st' : State n m S D} {b : Fin n} {rest : List (Fin n)}

/-- One turn of the loop of `solve`. -/
def Turn (g : CFG n m) (dom : DominanceInfo n m) (info : LoopInfo n m) (fp : FixPoint S D) (p : Problem n D) (entdom : D)
    (st st' : State n m S D) : Prop :=
  ∃ current rest, st.workList = current :: rest ∧ processBlock g dom info st fp p entdom current rest = some st'

variable (g dom info st b) in
theorem addSuccessors_same (out : D) : ∃ mark workList,
    addSuccessors g dom info st out b = { st with mark := mark, workList := workList } := by
  unfold addSuccessors
  generalize (g.outs b).filter (fun e => g.kind e ≠ .call) = edges
  induction edges generalizing st with
  | nil => exact ⟨_,_,rfl⟩
  | cons e edges ih =>
    rw [List.foldl_cons]
    obtain ⟨mark,workList,same⟩ := @ih (addSuccessor g dom info out st e)
    refine ⟨mark,workList,same.trans ?_⟩
    unfold addSuccessor tryAddToWorkList
    split <;> rfl

omit [SemilatticeSup D] [OrderBot D] in
theorem releaseExit_same {edges : List (Fin m)} {added : List (Fin n)} {result : State n m S D × List (Fin n)}
    (run : edges.foldlM (releaseExit g dom info p b) (st,added) = some result) :
    ∃ mark workList, result.1 = { st with mark := mark, workList := workList } := by
  induction edges generalizing st added with
  | nil =>
    obtain rfl := Option.some.inj run
    exact ⟨_,_,rfl⟩
  | cons e edges ih =>
    rw [List.foldlM_cons] at run
    obtain ⟨⟨st1,added1⟩,turn,run⟩ := Option.bind_eq_some_iff.mp run
    obtain ⟨mark,workList,same⟩ := ih run
    refine ⟨mark,workList,same.trans ?_⟩
    simp only [releaseExit,tryAddToWorkList] at turn
    obtain ⟨s,-,made⟩ := Option.map_eq_some_iff.mp turn
    obtain ⟨rfl,-⟩ := Prod.mk.inj made
    split
    · split <;> rfl
    · rfl

theorem processBlock_cases (run : processBlock g dom info st fp p entdom b rest = some st') :
    (∃ input, (st.mainEntry = true ∨ dom.loopHeader b = false) ∧ st'.mainEntry = false ∧
      st'.interpreted = Function.update st.interpreted b (input :: st.interpreted b) ∧
      st'.fixPointState = st.fixPointState ∧ st'.reached = st.reached) ∨
    ∃ fpstate fixpoint input fpstate', st.mainEntry = false ∧ dom.loopHeader b = true ∧ st'.mainEntry = false ∧
      (if st.firstIter b then some fp.newState else st.fixPointState b) = some fpstate ∧
      fp.fixPoint fpstate (entryEdgeUnion g dom st p b) (backEdgeUnion g dom st b) (st.firstIter b) =
        some (fixpoint,input,fpstate') ∧
      (fixpoint = false ∧ st'.interpreted = Function.update st.interpreted b (input :: st.interpreted b) ∧
          st'.fixPointState = Function.update st.fixPointState b (some fpstate') ∧ st'.reached = st.reached ∨
        fixpoint = true ∧ st'.interpreted = st.interpreted ∧
          st'.fixPointState = Function.update st.fixPointState b none ∧
          st'.reached = Function.update st.reached b (st.reached b + 1)) := by
  obtain ⟨⟨st1,input,fixpoint⟩,processed,output⟩ := Option.bind_eq_some_iff.mp run
  have plain (goes : (dom.loopHeader b && fixpoint) = false) : ∃ mark workList, st' = { st1 with
      mark := mark, workList := workList, interpreted := Function.update st1.interpreted b (input :: st1.interpreted b) } := by
    simp only [outputProcessing,goes,Bool.false_eq_true,if_false] at output
    obtain ⟨mark,workList,same⟩ := addSuccessors_same g dom info { st1 with
      interpreted := Function.update st1.interpreted b (input :: st1.interpreted b) } b (p.update input b)
    exact ⟨mark,workList,(Option.some.inj output).symm.trans same⟩
  simp only [inputProcessing] at processed
  split at processed
  next main =>
    obtain ⟨rfl,both⟩ := Prod.mk.inj (Option.some.inj processed)
    obtain ⟨rfl,rfl⟩ := Prod.mk.inj both
    obtain ⟨mark,workList,rfl⟩ := plain (Bool.and_false _)
    exact Or.inl ⟨_,Or.inl main,rfl,rfl,rfl,rfl⟩
  next main =>
    have main : st.mainEntry = false := by simpa using main
    split at processed
    · cases processed
    split at processed
    next header =>
      unfold processHeader at processed
      replace processed := (apply_ite (fun o => Option.bind o _) _ _ _).trans processed
      obtain ⟨fpstate,state,processed⟩ := Option.bind_eq_some_iff.mp processed
      obtain ⟨⟨fixpoint',input',fpstate'⟩,policy,processed⟩ := Option.bind_eq_some_iff.mp processed
      dsimp only at processed
      split at processed
      · cases processed
      refine Or.inr ⟨fpstate,fixpoint',input',fpstate',main,header,?_⟩
      cases fixpoint' with
      | true =>
        obtain ⟨rfl,both⟩ := Prod.mk.inj (Option.some.inj processed)
        obtain ⟨rfl,rfl⟩ := Prod.mk.inj both
        simp only [outputProcessing,header,Bool.and_true,if_true] at output
        obtain ⟨result,released,rfl⟩ := Option.map_eq_some_iff.mp output
        obtain ⟨mark,workList,same⟩ := releaseExit_same released
        rw [same]
        exact ⟨main,state,policy,Or.inr ⟨rfl,rfl,rfl,rfl⟩⟩
      | false =>
        obtain ⟨rfl,both⟩ := Prod.mk.inj (Option.some.inj processed)
        obtain ⟨rfl,rfl⟩ := Prod.mk.inj both
        obtain ⟨mark,workList,rfl⟩ := plain (Bool.and_false _)
        exact ⟨main,state,policy,Or.inl ⟨rfl,rfl,rfl,rfl⟩⟩
    next plain' =>
      have simple : dom.loopHeader b = false := by simpa using plain'
      obtain ⟨union,-,made⟩ := Option.map_eq_some_iff.mp processed
      obtain ⟨rfl,both⟩ := Prod.mk.inj (made)
      obtain ⟨rfl,rfl⟩ := Prod.mk.inj both
      obtain ⟨mark,workList,rfl⟩ := plain (Bool.and_false _)
      exact Or.inl ⟨_,Or.inr simple,main,rfl,rfl,rfl⟩

end Unrolling

section Stable
variable [SemilatticeSup D] [OrderBot D] [DecidableEq D] {p : Problem n D} {entdom : D}
variable {st st' : State n m (UnrollingState D) D} {b h : Fin n} {rest : List (Fin n)}

/-- What `firstUnrollingFixPoint` keeps of the records of a header: the last input state,
    and the one of the second iteration, the join of the first back edges. -/
structure Iterating (dom : DominanceInfo n m) (st : State n m (UnrollingState D) D) (h : Fin n) (s : UnrollingState D) : Prop where
  header : dom.loopHeader h = true
  begun : 1 ≤ s.numIter
  last : (st.interpreted h)[0]? = some s.headerState
  firstBack : 2 ≤ s.numIter → (st.interpreted h)[s.numIter - 2]? = some s.firstIterState

/-- The join of the back edges and of those of the first iteration is the last input state
    of the header. -/
def Stable (g : CFG n m) (dom : DominanceInfo n m) (st : State n m (UnrollingState D) D) (h : Fin n) : Prop :=
  ∃ s back, st.fixPointState h = some s ∧ 2 ≤ s.numIter ∧ Iterating dom st h s ∧ backEdgeUnion g dom st h = some back ∧
    back ⊔ s.firstIterState = s.headerState

theorem iterating_turn (before : (st.mainEntry = true → ∀ h, st.fixPointState h = none) ∧
      ∀ h s, st.fixPointState h = some s → Iterating dom st h s)
    (run : processBlock g dom info st firstUnrollingFixPoint p entdom b rest = some st') :
    st'.mainEntry = false ∧ ∀ h s, st'.fixPointState h = some s → Iterating dom st' h s := by
  obtain ⟨main,iterating⟩ := before
  have kept {h : Fin n} {s : UnrollingState D} (state : st.fixPointState h = some s)
      (same : st'.interpreted h = st.interpreted h) : Iterating dom st' h s := by
    obtain ⟨header,begun,last,firstBack⟩ := iterating h s state
    exact ⟨header,begun,same ▸ last,same ▸ firstBack⟩
  rcases processBlock_cases run with ⟨input,plain,main',records,states,-⟩ |
      ⟨fpstate,fixpoint,input,fpstate',-,header,main',known,policy,⟨rfl,records,states,-⟩ | ⟨rfl,records,states,-⟩⟩
  · refine ⟨main',fun h s state => ?_⟩
    rw [states] at state
    refine kept state ?_
    rw [records,Function.update_of_ne]
    rintro rfl
    rcases plain with first | simple
    · rw [main first] at state
      cases state
    · rw [(iterating _ s state).header] at simple
      cases simple
  · refine ⟨main',fun h s state => ?_⟩
    rw [states] at state
    by_cases here : h = b
    · rw [here,Function.update_self] at state
      obtain rfl := Option.some.inj state
      have old : 1 ≤ fpstate.numIter → Iterating dom st b fpstate := by
        intro begun
        split at known
        · obtain rfl := Option.some.inj known
          cases begun
        · exact iterating b fpstate known
      subst here
      have now : st'.interpreted h = input :: st.interpreted h := by rw [records,Function.update_self]
      obtain ⟨headerState,firstIterState,_ | _ | k⟩ := fpstate
      · obtain ⟨entries,-,made⟩ := Option.map_eq_some_iff.mp policy
        obtain ⟨-,made⟩ := Prod.mk.inj made
        obtain ⟨rfl,rfl⟩ := Prod.mk.inj made
        exact ⟨header,Nat.le_refl 1,by rw [now]; rfl,fun more => absurd more (Nat.not_succ_le_self 1)⟩
      · obtain ⟨back,-,made⟩ := Option.map_eq_some_iff.mp policy
        obtain ⟨-,made⟩ := Prod.mk.inj made
        obtain ⟨rfl,rfl⟩ := Prod.mk.inj made
        exact ⟨header,Nat.le_succ 1,by rw [now]; rfl,fun _ => by rw [now]; rfl⟩
      · obtain ⟨back,-,made⟩ := Option.map_eq_some_iff.mp policy
        obtain ⟨-,made⟩ := Prod.mk.inj made
        obtain ⟨rfl,rfl⟩ := Prod.mk.inj made
        refine ⟨header,Nat.le_add_left 1 _,by rw [now]; rfl,fun _ => ?_⟩
        rw [now]
        exact (old (Nat.le_add_left 1 _)).firstBack (Nat.le_add_left 2 k)
    · rw [Function.update_of_ne here] at state
      exact kept state (by rw [records,Function.update_of_ne here])
  · refine ⟨main',fun h s state => ?_⟩
    rw [states] at state
    by_cases here : h = b
    · rw [here,Function.update_self] at state
      cases state
    · rw [Function.update_of_ne here] at state
      exact kept state (by rw [records])

/-- A loop is declared fixed when its back edges bring nothing new. -/
theorem stable_of_reached (run : Relation.ReflTransGen (Turn g dom info firstUnrollingFixPoint p entdom) (State.start g) st)
    (turn : Turn g dom info firstUnrollingFixPoint p entdom st st') (declared : st'.reached h ≠ st.reached h) :
    Stable g dom st h := by
  have kept : (st.mainEntry = true → ∀ h, st.fixPointState h = none) ∧
      ∀ h s, st.fixPointState h = some s → Iterating dom st h s := by
    clear turn declared
    induction run with
    | refl => exact ⟨fun _ _ => rfl,fun h s state => by cases state⟩
    | tail _ turn ih =>
      obtain ⟨current,rest,-,turn⟩ := turn
      obtain ⟨main,iterating⟩ := iterating_turn ih turn
      exact ⟨fun main' => Bool.noConfusion (main.symm.trans main'),iterating⟩
  obtain ⟨b,rest,-,turn⟩ := turn
  rcases processBlock_cases turn with ⟨-,-,-,-,-,same⟩ |
      ⟨fpstate,fixpoint,input,fpstate',-,-,-,known,policy,⟨-,-,-,same⟩ | ⟨rfl,-,-,same⟩⟩
  · exact absurd (congrFun same h) declared
  · exact absurd (congrFun same h) declared
  · have here : h = b := by
      by_contra differ
      rw [same,Function.update_of_ne differ] at declared
      exact declared rfl
    subst here
    obtain ⟨headerState,firstIterState,_ | _ | k⟩ := fpstate
    · obtain ⟨_,-,made⟩ := Option.map_eq_some_iff.mp policy
      cases (Prod.mk.inj made).1
    · obtain ⟨_,-,made⟩ := Option.map_eq_some_iff.mp policy
      cases (Prod.mk.inj made).1
    · obtain ⟨back,union,made⟩ := Option.map_eq_some_iff.mp policy
      split at known
      · cases known
      · exact ⟨_,back,known,Nat.le_add_left 2 k,kept.2 _ _ known,union,of_decide_eq_true (Prod.mk.inj made).1⟩

end Stable

/-! ### Whole graphs -/

/-- The functions of a block are monotone, and contexts only add to a state. -/
structure Problem.Lawful [SemilatticeSup D] (p : Problem n D) : Prop where
  update : ∀ c d d', d ≤ d' → p.update d c ≤ p.update d' c
  enterContext : ∀ d c, d ≤ p.enterContext d c
  leaveContext : ∀ d c, d ≤ p.leaveContext d c

/-- When `solve` stops, what is recorded for a block is above the states of all paths to it. -/
def CoversPaths [SemilatticeSup D] [OrderBot D] (g : CFG n m) (dom : DominanceInfo n m) (info : LoopInfo n m)
    (fp : FixPoint S D) (p : Problem n D) (entdom : D) : Prop :=
  ∀ fuel st, solve g dom info fp p entdom fuel = some st → ∀ b d, PathState g p entdom b d → d ≤ st.result b

/-- In every run a loop is stable when it is declared fixed. -/
def DeclaresStable [SemilatticeSup D] [OrderBot D] [DecidableEq D] (g : CFG n m) (dom : DominanceInfo n m)
    (info : LoopInfo n m) (p : Problem n D) (entdom : D) : Prop :=
  ∀ st st', Relation.ReflTransGen (Turn g dom info firstUnrollingFixPoint p entdom) (State.start g) st →
    Turn g dom info firstUnrollingFixPoint p entdom st st' → ∀ h, st'.reached h ≠ st.reached h → Stable g dom st h

section Graphs
variable (scanned : g.Scanned) (reachable : ∀ b, g.Reachable b) (flow : ∀ e, g.kind e ≠ .call) (one : g.OneLeft)
variable (dominance : processDominance g = some dom) (loops : processLoopInfo g dom = some info)
include scanned reachable flow one dominance loops

theorem nested_of_processed : Nested g dom info := by
  obtain ⟨dom',processed,exact_⟩ := processDominance_exact scanned.connected
  obtain rfl := Option.some.inj (processed.symm.trans dominance)
  obtain ⟨info',built,picked⟩ := processLoopInfo_picked exact_ scanned
  obtain rfl := Option.some.inj (built.symm.trans loops)
  exact ⟨scanned,exact_,picked,one,flow,reachable⟩

variable (reducible : FlowGraph.Reducible g.Flow g.entry) [SemilatticeSup D] [OrderBot D] [DecidableEq D]
variable {p : Problem n D} (lawful : p.Lawful) (entdom : D)
include reducible lawful

/-- The records of `DefaultFixPoint` cover all paths when no edge leaves two loops. -/
theorem default_covers_paths : CoversPaths g dom info defaultFixPoint p entdom := fun _ _ run _ _ path =>
  solve_covers (nested_of_processed scanned reachable flow one dominance loops) reducible defaultFixPoint_lawful
    lawful.enterContext lawful.leaveContext lawful.update run path

/-- So do those of `FirstUnrollingFixPoint`, whose loops are stable when they are declared fixed. -/
theorem unrolling_covers_paths :
    CoversPaths g dom info firstUnrollingFixPoint p entdom ∧ DeclaresStable g dom info p entdom := by
  refine ⟨fun _ _ run _ _ path => ?_,fun _ _ run turn _ declared => stable_of_reached run turn declared⟩
  exact solve_covers (nested_of_processed scanned reachable flow one dominance loops) reducible firstUnrollingFixPoint_lawful
    lawful.enterContext lawful.leaveContext lawful.update run path

section Policy
variable {fp : FixPoint S D} {headerState : S → D} {started : S → Prop} {st : State n m S D}
omit scanned reachable flow one dominance loops reducible

omit [DecidableEq D] in
theorem turns_keep (nest : Nested g dom info) (policy : fp.Lawful headerState started)
    (run : Relation.ReflTransGen (Turn g dom info fp p entdom) (State.start g) st) :
    ∃ done, Inv g dom info st done ∧ Sound g dom p headerState started entdom st := by
  induction run with
  | refl => exact ⟨_,Inv.start nest,Sound.start⟩
  | tail _ turn ih =>
    obtain ⟨done,inv,sound⟩ := ih
    obtain ⟨b,rest,work,turned⟩ := turn
    obtain ⟨done',next,processed,inv',sound'⟩ := inv.turn nest work sound policy lawful.enterContext lawful.leaveContext
    obtain rfl := Option.some.inj (processed.symm.trans turned)
    exact ⟨done',inv',sound'⟩

omit [DecidableEq D] in
theorem isSome_turn (nest : Nested g dom info) (policy : fp.Lawful headerState started)
    (run : Relation.ReflTransGen (Turn g dom info fp p entdom) (State.start g) st) {b : Fin n} {rest : List (Fin n)}
    (work : st.workList = b :: rest) : (processBlock g dom info st fp p entdom b rest).isSome := by
  obtain ⟨done,inv,sound⟩ := turns_keep lawful entdom nest policy run
  obtain ⟨_,_,processed,-⟩ := inv.turn nest work sound policy lawful.enterContext lawful.leaveContext
  exact Option.isSome_of_eq_some processed

omit [DecidableEq D] in
theorem solve_clears (nest : Nested g dom info) (policy : fp.Lawful headerState started)
    (reducible : FlowGraph.Reducible g.Flow g.entry) {fuel : Nat} (run : solve g dom info fp p entdom fuel = some st) :
    (∀ e, st.mark e = none) ∧ ∀ h, st.firstIter h = true := by
  obtain ⟨empty,⟨done,inv⟩,-⟩ :=
    solveFrom_keeps nest policy lawful.enterContext lawful.leaveContext (Inv.start nest) Sound.start run
  exact ⟨inv.none_marked nest reducible empty,fun h => Bool.eq_true_of_not_eq_false (inv.none_open nest reducible empty h)⟩

end Policy

omit reducible in
/-- In no run of either policy an assertion fails or an edge without mark is read. -/
theorem turns_go_on :
    (∀ st, Relation.ReflTransGen (Turn g dom info defaultFixPoint p entdom) (State.start g) st →
      ∀ b rest, st.workList = b :: rest → (processBlock g dom info st defaultFixPoint p entdom b rest).isSome) ∧
    ∀ st, Relation.ReflTransGen (Turn g dom info firstUnrollingFixPoint p entdom) (State.start g) st →
      ∀ b rest, st.workList = b :: rest → (processBlock g dom info st firstUnrollingFixPoint p entdom b rest).isSome := by
  have nest := nested_of_processed scanned reachable flow one dominance loops
  exact ⟨fun _ run _ _ => isSome_turn lawful entdom nest defaultFixPoint_lawful run,
    fun _ run _ _ => isSome_turn lawful entdom nest firstUnrollingFixPoint_lawful run⟩

/-- When `solve` stops no edge has a mark and no loop is left open, under both policies. -/
theorem unmarked_at_end :
    (∀ fuel st, solve g dom info defaultFixPoint p entdom fuel = some st →
      (∀ e, st.mark e = none) ∧ ∀ h, st.firstIter h = true) ∧
    ∀ fuel st, solve g dom info firstUnrollingFixPoint p entdom fuel = some st →
      (∀ e, st.mark e = none) ∧ ∀ h, st.firstIter h = true := by
  have nest := nested_of_processed scanned reachable flow one dominance loops
  exact ⟨fun _ _ => solve_clears lawful entdom nest defaultFixPoint_lawful reducible,
    fun _ _ => solve_clears lawful entdom nest firstUnrollingFixPoint_lawful reducible⟩

end Graphs

attribute [local instance] Cfg.neZero_three Cfg.neZero_four

def selfLoop : CFG 3 3 := ⟨0,![0,1,1],![1,1,2],fun _ => .taken⟩

def counter : Problem 3 (Fin 3) where
  update d _ := ![1,2,2] d
  enterContext d _ := d
  leaveContext d _ := d

private theorem counter_lawful : counter.Lawful := ⟨by decide,by decide,by decide⟩

theorem flow_selfLoop {a b : Fin 3} (flow : selfLoop.Flow a b) : a = 0 ∧ b = 1 ∨ a = 1 ∧ b = 1 ∨ a = 1 ∧ b = 2 := by
  obtain ⟨e,_,rfl,rfl⟩ := flow
  revert e
  decide

theorem reachable_selfLoop (b : Fin 3) : selfLoop.Reachable b := by
  have first : selfLoop.Reachable 1 := FlowGraph.reachable_root.step ⟨0,by decide,rfl,rfl⟩
  match b with
  | 0 => exact FlowGraph.reachable_root
  | 1 => exact first
  | 2 => exact first.step ⟨2,by decide,rfl,rfl⟩

theorem scanned_selfLoop : selfLoop.Scanned := ⟨by decide,fun e _ => reachable_selfLoop (selfLoop.source e)⟩

theorem header_selfLoop {h : Fin 3} (header : selfLoop.IsHeader h) : h = 1 := by
  obtain ⟨a,flow,dominates⟩ := header
  rcases flow_selfLoop flow with ⟨-,rfl⟩ | ⟨-,rfl⟩ | ⟨rfl,rfl⟩
  · rfl
  · rfl
  · have path : FlowGraph.Path selfLoop.Flow selfLoop.entry _ 1 := .step .root ⟨0,by decide,rfl,rfl⟩
    exact absurd (dominates _ path) (by decide)

theorem oneLeft_selfLoop : selfLoop.OneLeft := fun _ _ _ left left' =>
  (header_selfLoop left.2.1.1).trans (header_selfLoop left'.2.1.1).symm

theorem reducible_selfLoop : FlowGraph.Reducible selfLoop.Flow selfLoop.entry := by
  intro v cycle
  have increasing {a b : Fin 3} (path : Relation.TransGen
      (fun a b => selfLoop.Flow a b ∧ ¬ FlowGraph.Dominates selfLoop.Flow selfLoop.entry b a) a b) : a < b := by
    have step {a b : Fin 3} (flow : selfLoop.Flow a b) (front : ¬ selfLoop.Dominates b a) : a < b := by
      rcases flow_selfLoop flow with ⟨rfl,rfl⟩ | ⟨rfl,rfl⟩ | ⟨rfl,rfl⟩
      · decide
      · exact absurd (FlowGraph.dominates_refl _) front
      · decide
    induction path with
    | single edge => exact step edge.1 edge.2
    | tail _ edge ih => exact Fin.lt_trans ih (step edge.1 edge.2)
  exact absurd (increasing cycle) (Fin.lt_irrefl v)

/-- The result for a block when `solve` stops within some turns. -/
def resultOf [SemilatticeSup D] [OrderBot D] (g : CFG n m) (fp : FixPoint S D) (p : Problem n D) (entdom : D) (fuel : Nat)
    (b : Fin n) : Option D :=
  (processDominance g).bind fun dom => (processLoopInfo g dom).bind fun info =>
    (solve g dom info fp p entdom fuel).map fun st => st.result b

theorem resultOf_eq_some [SemilatticeSup D] [OrderBot D] {fp : FixPoint S D} {p : Problem n D} {entdom d : D} {fuel : Nat}
    {b : Fin n} (computed : resultOf g fp p entdom fuel b = some d) : ∃ dom info st, processDominance g = some dom ∧
      processLoopInfo g dom = some info ∧ solve g dom info fp p entdom fuel = some st ∧ st.result b = d := by
  obtain ⟨dom,dominance,computed⟩ := Option.bind_eq_some_iff.mp computed
  obtain ⟨info,loops,computed⟩ := Option.bind_eq_some_iff.mp computed
  obtain ⟨st,run,computed⟩ := Option.map_eq_some_iff.mp computed
  exact ⟨dom,info,st,dominance,loops,run,computed⟩

theorem default_covers_paths_selfLoop : resultOf selfLoop defaultFixPoint counter 0 10 2 = some 2 ∧
    ∃ dom info, processDominance selfLoop = some dom ∧ processLoopInfo selfLoop dom = some info ∧
      CoversPaths selfLoop dom info defaultFixPoint counter 0 := by
  have computed : resultOf selfLoop defaultFixPoint counter 0 10 2 = some 2 := by decide +kernel
  obtain ⟨dom,info,-,dominance,loops,-⟩ := resultOf_eq_some computed
  exact ⟨computed,dom,info,dominance,loops,default_covers_paths scanned_selfLoop reachable_selfLoop (by decide)
    oneLeft_selfLoop dominance loops reducible_selfLoop counter_lawful 0⟩

theorem unrolling_covers_paths_selfLoop : resultOf selfLoop firstUnrollingFixPoint counter 0 10 2 = some 2 ∧
    ∃ dom info, processDominance selfLoop = some dom ∧ processLoopInfo selfLoop dom = some info ∧
      CoversPaths selfLoop dom info firstUnrollingFixPoint counter 0 ∧ DeclaresStable selfLoop dom info counter 0 := by
  have computed : resultOf selfLoop firstUnrollingFixPoint counter 0 10 2 = some 2 := by decide +kernel
  obtain ⟨dom,info,-,dominance,loops,-⟩ := resultOf_eq_some computed
  exact ⟨computed,dom,info,dominance,loops,unrolling_covers_paths scanned_selfLoop reachable_selfLoop (by decide)
    oneLeft_selfLoop dominance loops reducible_selfLoop counter_lawful 0⟩

/-- After the entry and a first iteration of the loop, its header is computed again. -/
theorem turns_go_on_selfLoop : ∃ dom info st, processDominance selfLoop = some dom ∧ processLoopInfo selfLoop dom = some info ∧
    Relation.ReflTransGen (Turn selfLoop dom info defaultFixPoint counter 0) (State.start selfLoop) st ∧ st.firstIter 1 = false ∧
      st.workList = [1] ∧ (processBlock selfLoop dom info st defaultFixPoint counter 0 1 []).isSome := by
  have computed : ((processDominance selfLoop).bind fun dom => (processLoopInfo selfLoop dom).bind fun info =>
      (processBlock selfLoop dom info (State.start selfLoop) defaultFixPoint counter 0 0 []).bind fun entered =>
        (processBlock selfLoop dom info entered defaultFixPoint counter 0 1 []).map fun st =>
          (entered.workList,st.workList,st.firstIter 1)) = some ([1],[1],false) := by decide +kernel
  obtain ⟨dom,dominance,computed⟩ := Option.bind_eq_some_iff.mp computed
  obtain ⟨info,loops,computed⟩ := Option.bind_eq_some_iff.mp computed
  obtain ⟨entered,first,computed⟩ := Option.bind_eq_some_iff.mp computed
  obtain ⟨st,second,seen⟩ := Option.map_eq_some_iff.mp computed
  simp only [Prod.mk.injEq] at seen
  obtain ⟨work,work',iterated⟩ := seen
  have run : Relation.ReflTransGen (Turn selfLoop dom info defaultFixPoint counter 0) (State.start selfLoop) st :=
    (Relation.ReflTransGen.single ⟨0,[],rfl,first⟩).tail ⟨1,[],work,second⟩
  exact ⟨dom,info,st,dominance,loops,run,iterated,work',(turns_go_on scanned_selfLoop reachable_selfLoop (by decide)
    oneLeft_selfLoop dominance loops counter_lawful 0).1 st run 1 [] work'⟩

theorem unmarked_at_end_selfLoop : ∃ dom info st, solve selfLoop dom info defaultFixPoint counter 0 10 = some st ∧
    (∀ e, st.mark e = none) ∧ ∀ h, st.firstIter h = true := by
  have computed : resultOf selfLoop defaultFixPoint counter 0 10 2 = some 2 := by decide +kernel
  obtain ⟨dom,info,st,dominance,loops,run,-⟩ := resultOf_eq_some computed
  exact ⟨dom,info,st,run,(unmarked_at_end scanned_selfLoop reachable_selfLoop (by decide) oneLeft_selfLoop dominance loops
    reducible_selfLoop counter_lawful 0).1 10 st run⟩

/-- A loop (3) around a block with an edge to itself (2), and an edge from that block out
    of both, to a block (1) that has another input edge. -/
def overlap : CFG 4 6 := ⟨0,![3,2,2,0,0,2],![2,1,3,1,3,2],fun _ => .taken⟩

def overlapProblem : Problem 4 (Fin 3) where
  update d b := (![![0,0,2],![0,0,2],![1,1,2],![1,2,2]] : Fin 4 → Fin 3 → Fin 3) b d
  enterContext d _ := d
  leaveContext d _ := d

private theorem overlapProblem_lawful : overlapProblem.Lawful := ⟨by decide,by decide,by decide⟩

private theorem flow_overlap {a b : Fin 4} (flow : overlap.Flow a b) :
    a = 3 ∧ b = 2 ∨ a = 2 ∧ b = 1 ∨ a = 2 ∧ b = 3 ∨ a = 0 ∧ b = 1 ∨ a = 0 ∧ b = 3 ∨ a = 2 ∧ b = 2 := by
  obtain ⟨e,_,rfl,rfl⟩ := flow
  revert e
  decide

private theorem reachable_overlap (b : Fin 4) : overlap.Reachable b := by
  have outer : overlap.Reachable 3 := FlowGraph.reachable_root.step ⟨4,by decide,rfl,rfl⟩
  match b with
  | 0 => exact FlowGraph.reachable_root
  | 1 => exact FlowGraph.reachable_root.step ⟨3,by decide,rfl,rfl⟩
  | 2 => exact outer.step ⟨0,by decide,rfl,rfl⟩
  | 3 => exact outer

private theorem scanned_overlap : overlap.Scanned := ⟨by decide,fun e _ => reachable_overlap (overlap.source e)⟩

private theorem reducible_overlap : FlowGraph.Reducible overlap.Flow overlap.entry := by
  intro v cycle
  have around : overlap.Dominates 3 2 := by
    refine FlowGraph.dominates_of_cut (p := fun b => b = 0 ∨ b = 1) (Or.inl rfl) ?_ (by decide)
    rintro x y start flow differ
    rcases flow_overlap flow with h | h | h | h | h | h
    · exact absurd (h.1 ▸ start) (by decide)
    · exact Or.inr h.2
    · exact absurd h.2 differ
    · exact Or.inr h.2
    · exact absurd h.2 differ
    · exact absurd (h.1 ▸ start) (by decide)
  -- the order of the blocks along the other edges
  have increasing {a b : Fin 4} (path : Relation.TransGen
      (fun a b => overlap.Flow a b ∧ ¬ FlowGraph.Dominates overlap.Flow overlap.entry b a) a b) :
      (![0,3,2,1] : Fin 4 → Nat) a < (![0,3,2,1] : Fin 4 → Nat) b := by
    have step {a b : Fin 4} (flow : overlap.Flow a b) (front : ¬ overlap.Dominates b a) :
        (![0,3,2,1] : Fin 4 → Nat) a < (![0,3,2,1] : Fin 4 → Nat) b := by
      rcases flow_overlap flow with ⟨rfl,rfl⟩ | ⟨rfl,rfl⟩ | ⟨rfl,rfl⟩ | ⟨rfl,rfl⟩ | ⟨rfl,rfl⟩ | ⟨rfl,rfl⟩
      · decide
      · decide
      · exact absurd around front
      · decide
      · decide
      · exact absurd (FlowGraph.dominates_refl _) front
    induction path with
    | single edge => exact step edge.1 edge.2
    | tail _ edge ih => exact Nat.lt_trans ih (step edge.1 edge.2)
  exact absurd (increasing cycle) (Nat.lt_irrefl _)

private theorem path_overlap : PathState overlap overlapProblem 0 1 2 := by
  have flow (e : Fin 6) : overlap.kind e ≠ .call := EdgeKind.noConfusion
  have enter : PathState overlap overlapProblem 0 3 0 := .step (e := 4) .entry (flow 4)
  have inner : PathState overlap overlapProblem 0 2 1 := .step (e := 0) enter (flow 0)
  have around : PathState overlap overlapProblem 0 3 1 := .step (e := 2) inner (flow 2)
  have again : PathState overlap overlapProblem 0 2 2 := .step (e := 0) around (flow 0)
  exact .step (e := 1) again (flow 1)

private theorem overlap_loses {S : Type} {fp : FixPoint S (Fin 3)} {fuel : Nat}
    (computed : resultOf overlap fp overlapProblem 0 fuel 1 = some 1) :
    ∃ dom info, processDominance overlap = some dom ∧ processLoopInfo overlap dom = some info ∧
      ¬ CoversPaths overlap dom info fp overlapProblem 0 := by
  obtain ⟨dom,info,st,dominance,loops,run,result⟩ := resultOf_eq_some computed
  refine ⟨dom,info,dominance,loops,fun covers => ?_⟩
  have below := covers fuel st run 1 2 path_overlap
  rw [result] at below
  exact absurd below (by decide)

theorem default_loses_overlap : ¬ ∀ (n m : Nat) (g : CFG n m), g.Scanned → (∀ b, g.Reachable b) → (∀ e, g.kind e ≠ .call) →
    FlowGraph.Reducible g.Flow g.entry → ∀ dom info, processDominance g = some dom → processLoopInfo g dom = some info →
    ∀ (D : Type) [SemilatticeSup D] [OrderBot D] [DecidableEq D] (p : Problem n D), p.Lawful → ∀ entdom,
      CoversPaths g dom info defaultFixPoint p entdom := by
  intro always
  have computed : resultOf overlap defaultFixPoint overlapProblem 0 40 1 = some 1 := by decide +kernel
  obtain ⟨dom,info,dominance,loops,loses⟩ := overlap_loses computed
  exact loses (always 4 6 overlap scanned_overlap reachable_overlap (by decide) reducible_overlap dom info dominance loops
    (Fin 3) overlapProblem overlapProblem_lawful 0)

theorem unrolling_loses_overlap : ¬ ∀ (n m : Nat) (g : CFG n m), g.Scanned → (∀ b, g.Reachable b) → (∀ e, g.kind e ≠ .call) →
    FlowGraph.Reducible g.Flow g.entry → ∀ dom info, processDominance g = some dom → processLoopInfo g dom = some info →
    ∀ (D : Type) [SemilatticeSup D] [OrderBot D] [DecidableEq D] (p : Problem n D), p.Lawful → ∀ entdom,
      CoversPaths g dom info firstUnrollingFixPoint p entdom ∧ DeclaresStable g dom info p entdom := by
  intro always
  have computed : resultOf overlap firstUnrollingFixPoint overlapProblem 0 40 1 = some 1 := by decide +kernel
  obtain ⟨dom,info,dominance,loops,loses⟩ := overlap_loses computed
  exact loses (always 4 6 overlap scanned_overlap reachable_overlap (by decide) reducible_overlap dom info dominance loops
    (Fin 3) overlapProblem overlapProblem_lawful 0).1

end Otawa.Hai
