import Otawa.LoopNest
import Mathlib.Order.Lattice
import Mathlib.Order.BoundedOrder.Basic
import Mathlib.Logic.Function.Basic

/-!
The engine of abstract interpretation (`HalfAbsInt`) on a graph without calls: states are
marked on the edges, the work list is a stack of the blocks whose input edges are all
done, and a loop header goes on until its fixpoint is reached, which releases the exit
edges of the loop. The policy of the headers is a parameter.
-/
namespace Otawa.Hai
open Otawa.Cfg

universe u
variable {n m : Nat} {S D : Type u}

/-- A `FixPoint` class: `newState`, and `fixPoint` from the unions of the entry edges and
    of the back edges and the flag of the first time; a union is missing when it would read
    an edge without mark. The results are the flag of the fixpoint, the input state and the
    next `FixPointState`. -/
structure FixPoint (S D : Type u) where
  newState : S
  fixPoint : S → Option D → Option D → Bool → Option (Bool × D × S)

section Policies
variable [SemilatticeSup D] [OrderBot D] [DecidableEq D]

/-- `DefaultFixPoint`; its state is the state of the header. -/
def defaultFixPoint : FixPoint D D where
  newState := ⊥
  fixPoint headerState entryEdgeUnion backEdgeUnion firstTime :=
    if firstTime then
      entryEdgeUnion.map fun newHeaderState => (false,newHeaderState,newHeaderState)
    else do
      let newHeaderState ← entryEdgeUnion
      let back ← backEdgeUnion
      let newHeaderState := newHeaderState ⊔ back
      some (decide (newHeaderState = headerState),newHeaderState,newHeaderState)

/-- `FirstUnrollingFixPoint::FixPointState`. -/
structure UnrollingState (D : Type u) where
  headerState : D
  firstIterState : D
  numIter : Nat

/-- `FirstUnrollingFixPoint`: the first iteration is apart from the others. -/
def firstUnrollingFixPoint : FixPoint (UnrollingState D) D where
  newState := ⟨⊥,⊥,0⟩
  fixPoint fpstate entryEdgeUnion backEdgeUnion _ :=
    match fpstate.numIter with
    | 0 => entryEdgeUnion.map fun newHeaderState =>
      (false,newHeaderState,⟨newHeaderState,fpstate.firstIterState,1⟩)
    | 1 => backEdgeUnion.map fun newHeaderState => (false,newHeaderState,⟨newHeaderState,newHeaderState,2⟩)
    | numIter => backEdgeUnion.map fun back =>
      let newHeaderState := back ⊔ fpstate.firstIterState
      (decide (newHeaderState = fpstate.headerState),newHeaderState,⟨newHeaderState,fpstate.firstIterState,numIter + 1⟩)

end Policies

/-- The functions of a `Problem` but those of its lattice. -/
structure Problem (n : Nat) (D : Type u) where
  update : D → Fin n → D
  enterContext : D → Fin n → D
  leaveContext : D → Fin n → D

/-- The state of the engine, with what its listener was told: the input states of
    `blockInterpreted`, the last one first, and how often `fixPointReached` was called. -/
structure State (n m : Nat) (S D : Type u) where
  workList : List (Fin n)
  mainEntry : Bool
  mark : Fin m → Option D
  firstIter : Fin n → Bool
  fixed : Fin n → Bool
  fixPointState : Fin n → Option S
  interpreted : Fin n → List D
  reached : Fin n → Nat

/-- The state before the loop of `solve`. -/
def State.start (g : CFG n m) : State n m S D where
  workList := [g.entry]
  mainEntry := true
  mark _ := none
  firstIter _ := true
  fixed _ := false
  fixPointState _ := none
  interpreted _ := []
  reached _ := 0

/-- `unmarkEdge` for some edges. -/
def State.unmark (st : State n m S D) (edges : List (Fin m)) : State n m S D :=
  { st with mark := fun e => if edges.contains e then none else st.mark e }

variable (g : CFG n m) (dom : DominanceInfo n m) (info : LoopInfo n m)

/-- `Dominance::dominates` of the target and the source; a failed assertion is no dominance. -/
def isBackEdge (e : Fin m) : Bool := dominates dom.reverseDom (g.target e) (g.source e) == some true

def backEdges (bb : Fin n) : List (Fin m) := (g.ins bb).filter fun e => isBackEdge g dom e
def entryEdges (bb : Fin n) : List (Fin m) := (g.ins bb).filter fun e => !isBackEdge g dom e

variable (st : State n m S D)

def isEdgeDone (e : Fin m) : Bool :=
  (st.mark e).isSome && (info.loopExitEdge e).all st.fixed || isBackEdge g dom e && st.firstIter (g.target e)

/-- The test of `tryAddToWorkList`. -/
def isReady (bb : Fin n) : Bool := (g.ins bb).all (isEdgeDone g dom info st)

def tryAddToWorkList (bb : Fin n) : State n m S D :=
  if isReady g dom info st bb then { st with workList := bb :: st.workList } else st

variable [SemilatticeSup D] [OrderBot D] [DecidableEq D]

def unionMarks (edges : List (Fin m)) : Option D :=
  edges.foldlM (fun result e => (st.mark e).map fun edgeState => result ⊔ edgeState) ⊥

def backEdgeUnion (bb : Fin n) : Option D :=
  if st.firstIter bb then some ⊥ else unionMarks st (backEdges g dom bb)

variable (fp : FixPoint S D) (p : Problem n D)

def entryEdgeUnion (bb : Fin n) : Option D :=
  (unionMarks st (entryEdges g dom bb)).map fun result => p.enterContext result bb

/-- The branch of `inputProcessing` for a loop header, `none` for a failed assertion. -/
def processHeader (current : Fin n) : Option (State n m S D × D × Bool) := do
  let fpstate ← if st.firstIter current then some fp.newState else st.fixPointState current
  let (fixpoint,input,fpstate) ←
    fp.fixPoint fpstate (entryEdgeUnion g dom st p current) (backEdgeUnion g dom st current) (st.firstIter current)
  if st.firstIter current && fixpoint then none
  else
    let st := st.unmark (backEdges g dom current)
    if fixpoint then
      some ({ st.unmark (entryEdges g dom current) with
        firstIter := Function.update st.firstIter current true
        fixed := Function.update st.fixed current true
        fixPointState := Function.update st.fixPointState current none
        reached := Function.update st.reached current (st.reached current + 1) },input,true)
    else
      some ({ st with
        firstIter := Function.update st.firstIter current false
        fixed := Function.update st.fixed current false
        fixPointState := Function.update st.fixPointState current (some fpstate) },input,false)

/-- `inputProcessing`: the input state of the block and the flag of the fixpoint. No call
    marks the entry again. -/
def inputProcessing (entdom : D) (current : Fin n) : Option (State n m S D × D × Bool) :=
  if st.mainEntry then some ({ st with mainEntry := false },entdom,false)
  else if current = g.entry then none
  else if dom.loopHeader current then processHeader g dom st fp p current
  else (unionMarks st (g.ins current)).map fun input => (st.unmark (g.ins current),input,false)

/-- One turn of `addSuccessors`: `markEdge`, which joins the states, and the test of the target. -/
def addSuccessor (out : D) (st : State n m S D) (e : Fin m) : State n m S D :=
  tryAddToWorkList g dom info { st with mark := Function.update st.mark e (some ((st.mark e).getD ⊥ ⊔ out)) } (g.target e)

def addSuccessors (out : D) (current : Fin n) : State n m S D :=
  ((g.outs current).filter fun e => g.kind e ≠ .call).foldl (addSuccessor g dom info out) st

omit [SemilatticeSup D] [OrderBot D] [DecidableEq D] in
def releaseExit (current : Fin n) (result : State n m S D × List (Fin n)) (e : Fin m) :
    Option (State n m S D × List (Fin n)) :=
  let (st,alreadyAdded) := result
  let (st,alreadyAdded) :=
    if g.target e ∉ alreadyAdded ∧ isReady g dom info st (g.target e) then
      (tryAddToWorkList g dom info st (g.target e),g.target e :: alreadyAdded)
    else (st,alreadyAdded)
  (st.mark e).map fun edgeState =>
    ({ st with mark := Function.update st.mark e (some (p.leaveContext edgeState current)) },alreadyAdded)

def outputProcessing (current : Fin n) (input : D) (fixpoint : Bool) : Option (State n m S D) :=
  if dom.loopHeader current && fixpoint then
    ((info.exitList current).foldlM (releaseExit g dom info p current) (st,[])).map Prod.fst
  else
    some (addSuccessors g dom info
      { st with interpreted := Function.update st.interpreted current (input :: st.interpreted current) }
      (p.update input current) current)

/-- One turn of the loop of `solve`, `none` for a failed assertion or a null mark. -/
def processBlock (entdom : D) (current : Fin n) (rest : List (Fin n)) : Option (State n m S D) := do
  let (st,input,fixpoint) ← inputProcessing g dom { st with workList := rest } fp p entdom current
  outputProcessing g dom info st p current input fixpoint

/-- The loop of `solve`, for some turns: the state at the end if the work list is empty
    by then. -/
def solveFrom (entdom : D) : Nat → State n m S D → Option (State n m S D)
  | 0,st => if st.workList = [] then some st else none
  | fuel + 1,st =>
    match st.workList with
    | [] => some st
    | current :: rest => (processBlock g dom info st fp p entdom current rest).bind (solveFrom entdom fuel)

def solve (entdom : D) (fuel : Nat) : Option (State n m S D) :=
  solveFrom g dom info fp p entdom fuel (State.start g)

end Otawa.Hai
