import Otawa.Cfg
import Otawa.PathReads
import Mathlib.Data.List.FinRange

/-!
`DelayedBuilder`: rebuilds a CFG so that the instructions in delay slots are found where
they are executed. The branches are marked, each block is copied, reduced or extended by
the slot of its branch, and the edges are copied. A copy may be left out, or NOP blocks
be put in edges, for the other types of delayed branches.
-/
namespace Otawa.Delayed
open Otawa.Cfg (CFG EdgeKind)
open Otawa.PathReads (LabelledGraph)

/-- `delayed_t`. -/
inductive DelayedType
  | none | always | taken | stallTaken
  deriving DecidableEq

/-- The decoded instructions of the process in the order of `nextInst()`, with what
    `DelayedInfo` says of them. -/
structure Code (k : Nat) where
  address : Fin k → Nat
  size : Fin k → Nat
  isControl : Fin k → Bool
  type : Fin k → DelayedType
  count : Fin k → Nat

namespace Code
variable {k : Nat} (code : Code k)

def topAddress (inst : Fin k) : Nat := code.address inst + code.size inst

def nextInst (inst : Fin k) : Option (Fin k) := if bound : inst + 1 < k then some ⟨inst + 1,bound⟩ else none

def findInstAt (address : Nat) : Option (Fin k) := (List.finRange k).find? fun inst => code.address inst = address

/-- One turn of the loops of `size` and `next`, which fail when no instruction is found. -/
def following (inst : Fin k) : Option (Fin k) :=
  match nextInst inst with
  | some next => if code.address next = code.topAddress inst then some next else code.findInstAt (code.topAddress inst)
  | none => code.findInstAt (code.topAddress inst)

/-- `next(inst, n)`. -/
def next (inst : Fin k) : Nat → Option (Fin k)
  | 0 => some inst
  | n + 1 => (code.following inst).bind fun inst => next inst n

/-- `size(inst, n)`. -/
def sizeOf (inst : Fin k) : Nat → Option Nat
  | 0 => some 0
  | n + 1 => (code.following inst).bind fun following => (sizeOf following n).map fun rest => code.size inst + rest

/-- `InstIter` from an instruction to an address. -/
def upTo (top : Nat) : List (Fin k) → List (Fin k)
  | [] => []
  | inst :: rest => inst :: if code.topAddress inst ≥ top then [] else upTo top rest

def insts (first : Fin k) (size : Nat) : List (Fin k) :=
  code.upTo (code.address first + size) ((List.finRange k).drop first)

end Code

/-- A CFG with the first instruction and the size of its blocks, and the call edges that
    lead to its own entry. -/
structure Source (n m k : Nat) extends CFG n m where
  recursive : Fin m → Bool
  exit : Fin n
  first : Fin n → Fin k
  size : Fin n → Nat

/-- A block of the built CFG, the first one of another CFG that is called, or an end. -/
inductive Vertex
  | entry | exit | called | bb (index : Nat)
  deriving DecidableEq

/-- The instructions of a built block: code or NOPs in the place of instructions. -/
inductive Body (k : Nat)
  | code (first : Fin k) (size : Nat)
  | nops (insts : List (Fin k))

structure Edge where
  source : Vertex
  target : Vertex
  kind : EdgeKind
  deriving DecidableEq

/-- `action_t`. -/
inductive Action
  | nothing | swallow | insert | nopsTaken
  deriving DecidableEq

/-- `TO_DELAY` and `ACTION`. -/
structure Marks (n k : Nat) where
  toDelay : Fin k → Nat
  action : Fin n → Action

/-- The built CFG, `map` and `DELAYED_TARGET`. -/
structure Built (n k : Nat) where
  blocks : List (Body k)
  edges : List Edge
  map : Fin n → Option Vertex
  delayedTarget : Fin n → Option Vertex

section
variable {n m k : Nat} (code : Code k) (g : Source n m k)

def Source.isEnd (bb : Fin n) : Bool := bb = g.entry || bb = g.exit

def Source.insts (bb : Fin n) : List (Fin k) := if g.isEnd bb then [] else code.insts (g.first bb) (g.size bb)

/-- `controlInst`: the last control instruction, or else the last instruction. -/
def Source.controlInst (bb : Fin n) : Option (Fin k) :=
  ((g.insts code bb).filter code.isControl).getLast?.or (g.insts code bb).getLast?

/-- The body of the loop of `mark`. -/
def markBlock (marks : Marks n k) (bb : Fin n) : Option (Marks n k) :=
  match g.controlInst code bb with
  | none => some marks
  | some control =>
    let delay (action : Action) : Option (Marks n k) := (code.next control 1).map fun slot =>
      {marks with
        toDelay := Function.update marks.toDelay slot (code.count control)
        action := Function.update marks.action bb action}
    match code.type control with
    | .none => some marks
    | .always => delay .swallow
    | .taken => delay .insert
    | .stallTaken => delay .nopsTaken

def mark : Option (Marks n k) := g.blocks.foldlM (markBlock code g) ⟨fun _ => 0,fun _ => .nothing⟩

def Built.addBB (s : Built n k) (body : Body k) : Built n k × Vertex :=
  ({s with blocks := s.blocks ++ [body]},.bb s.blocks.length)

def Built.addEdge (s : Built n k) (source target : Vertex) (kind : EdgeKind) : Built n k :=
  {s with edges := s.edges ++ [⟨source,target,kind⟩]}

def Built.makeBB (s : Built n k) (inst : Fin k) (count : Nat) : Option (Built n k × Vertex) :=
  (code.sizeOf inst count).map fun size => s.addBB (.code inst size)

/-- The instructions that the loop of `makeNOp` goes through. -/
def nopsFrom (inst : Fin k) : Nat → Option (List (Fin k))
  | 0 => some []
  | count + 1 =>
    ((Code.nextInst inst).or (code.findInstAt (code.address inst))).bind fun next => (nopsFrom next count).map (inst :: ·)

def Built.makeNOp (s : Built n k) (inst : Fin k) (count : Nat) : Option (Built n k × Vertex) :=
  (nopsFrom code inst count).map fun nops => s.addBB (.nops nops)

def Source.enteredElsewhere (bb : Fin n) : Bool :=
  (g.ins bb).any fun edge => g.kind edge ≠ .notTaken ∧ g.kind edge ≠ .virtualReturn

/-- The body of the loop of `buildBB`. -/
def buildBlock (marks : Marks n k) (s : Built n k) (bb : Fin n) : Option (Built n k) :=
  if bb = g.entry then some {s with map := Function.update s.map bb (some .entry)}
  else if bb = g.exit then some {s with map := Function.update s.map bb (some .exit)}
  else
    let first := g.first bb
    let dcnt := marks.toDelay first
    let create (s : Built n k) (first : Fin k) (size : Nat) (delayed : Option Vertex) : Option (Built n k) := do
      let size ←
        if marks.action bb = .swallow then do
          let control ← g.controlInst code bb
          let esize ← code.sizeOf control (code.count control)
          some (size + esize)
        else some size
      let (s,vbb) := s.addBB (.code first size)
      let s := match delayed with
        | some delayed => s.addEdge delayed vbb .notTaken
        | none => s
      some {s with map := Function.update s.map bb (some vbb)}
    if dcnt ≠ 0 ∧ marks.action bb = .insert then
      -- a block of delayed instructions only is removed
      if (g.insts code bb).length ≤ dcnt then some s
      else do
        let (s,delayed) ←
          if g.enteredElsewhere bb then
            (s.makeBB code first dcnt).map fun made =>
              ({made.1 with delayedTarget := Function.update made.1.delayedTarget bb (some made.2)},some made.2)
          else some (s,none)
        let dsize ← code.sizeOf first dcnt
        let reduced ← code.next first dcnt
        create s reduced (g.size bb - dsize) delayed
    else create s first (g.size bb) none

def buildBB (marks : Marks n k) : Option (Built n k) :=
  g.blocks.foldlM (buildBlock code g marks) ⟨[],[],fun _ => none,fun _ => none⟩

/-- The block of this CFG to which an edge leads in the built one; `makeEdge` asserts that
    the entry of a called CFG is of the same CFG. -/
def Built.targetOf (s : Built n k) (edge : Fin m) : Option Vertex :=
  if g.kind edge = .call then if g.recursive edge then some .entry else none
  else (s.delayedTarget (g.target edge)).or (s.map (g.target edge))

/-- `cloneEdge`; its assertion fails when the target has no copy. -/
def cloneEdge (source : Vertex) (kind : EdgeKind) (s : Built n k) (edge : Fin m) : Option (Built n k) :=
  (s.targetOf g edge).map fun target => s.addEdge source target (if g.kind edge = .call then .call else kind)

/-- `insert`. -/
def insert (source ibb : Vertex) (s : Built n k) (edge : Fin m) : Option (Built n k) :=
  (s.targetOf g edge).map fun target =>
    if g.kind edge = .call then (s.addEdge source ibb .taken).addEdge ibb target .call
    else (s.addEdge source ibb (g.kind edge)).addEdge ibb target .notTaken

def insertNOp (source : Vertex) (inst : Fin k) (count : Nat) (s : Built n k) (edge : Fin m) : Option (Built n k) := do
  let (s,nop) ← s.makeNOp code inst count
  let s := s.addEdge source nop (g.kind edge)
  if g.kind edge = .call then (s.targetOf g edge).map fun target => s.addEdge nop target .notTaken
  else
    match s.map (g.target edge) with
    | some target => some (s.addEdge nop target .notTaken)
    | none => (g.outs (g.target edge)).foldlM (fun s out => cloneEdge g nop (g.kind out) s out) s

def buildEdge (marks : Marks n k) (bb : Fin n) (vbb : Vertex) (s : Built n k) (edge : Fin m) : Option (Built n k) :=
  match marks.action bb with
  | .nothing => cloneEdge g vbb (g.kind edge) s edge
  | .swallow =>
    -- a call leads to the first block of the called CFG, in an edge made without `makeEdge`
    if g.kind edge = .call then some (s.addEdge vbb (if g.recursive edge then .bb 0 else .called) .call)
    else if (s.map (g.target edge)).isSome then cloneEdge g vbb (g.kind edge) s edge
    else (g.outs (g.target edge)).foldlM (fun s out => cloneEdge g vbb (g.kind edge) s out) s
  | .insert =>
    if g.kind edge = .notTaken ∨ g.kind edge = .virtualReturn then insertNOp code g vbb (g.first bb) 1 s edge
    else do
      let last ← (g.insts code bb).getLast?
      let slot ← Code.nextInst last
      let (s,ibb) ← s.makeBB code slot 1
      insert g vbb ibb s edge
  | .nopsTaken => do
    let control ← g.controlInst code bb
    let first ← code.next control 1
    match g.kind edge with
    | .virtual => none
    | .none => some s
    | .notTaken => cloneEdge g vbb (g.kind edge) s edge
    | _ => insertNOp code g vbb first (marks.toDelay first) s edge

/-- The body of the loop of `buildEdges`. -/
def buildEdges (marks : Marks n k) (s : Built n k) (bb : Fin n) : Option (Built n k) :=
  match s.map bb with
  | none => some s
  | some vbb => (g.outs bb).foldlM (buildEdge code g marks bb vbb) s

def build : Option (Built n k) := do
  let marks ← mark code g
  let s ← buildBB code g marks
  g.blocks.foldlM (buildEdges code g marks) s

end

inductive Executed (k : Nat)
  | inst (inst : Fin k) | nop (inst : Fin k)

def Body.executed {k : Nat} (code : Code k) : Body k → List (Executed k)
  | .code first size => (code.insts first size).map .inst
  | .nops insts => insts.map .nop

def Built.Linked {n k : Nat} (s : Built n k) (x y : Vertex) : Prop :=
  ∃ e ∈ s.edges, e.kind ≠ .call ∧ e.source = x ∧ e.target = y

/-- The paths of the built CFG. -/
def Built.graph {n k : Nat} (s : Built n k) (code : Code k) : LabelledGraph Vertex (Executed k) where
  entry := .entry
  exit := .exit
  link := s.Linked
  label := fun x =>
    match x with
    | .bb i => (s.blocks[i]?).elim [] (Body.executed code)
    | _ => []

end Otawa.Delayed
