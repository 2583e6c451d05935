import Otawa.Cfg
import Mathlib.Data.List.Infix

/-!
`CFGBuilder::buildCFG`: the blocks of a decoded segment and their edges. A first pass makes
a block at each target of a control instruction and after it, a second one walks through the
instructions with the current block, gives it its size, and adds its edges, which may make
blocks again. A block made for an instruction that the second pass has left behind never
gets its instructions. The result is right exactly when this happens to no known target, no
block has a hole, and each known successor has its edge (`buildCFG_right_iff`).
-/
namespace Otawa.CFGBuilder
open Otawa.Cfg (EdgeKind)

/-! ### The program -/

structure Inst where
  address : Nat
  size : Nat
  isControl : Bool
  isCall : Bool
  isReturn : Bool
  isConditional : Bool
  target : Option Nat
  branchTarget : List Nat
  callTarget : List Nat
  markedReturn : Bool
  ignoreControl : Bool
  ignoreSeq : Bool

def Inst.topAddress (inst : Inst) : Nat := inst.address+inst.size

def Inst.active (inst : Inst) : Bool := inst.isControl && !inst.ignoreControl

/-- The inlined `isReturn` of the builder. -/
def isReturn (inst : Inst) : Bool := inst.isReturn || inst.markedReturn

/-- A decoded segment: its instructions in the order of their addresses. -/
structure Segment where
  items : List Inst
  topAddress : Nat
  size_pos : ∀ i ∈ items, 0 < i.size
  sorted : items.Pairwise fun i j => i.topAddress ≤ j.address
  below_top : ∀ i ∈ items, i.topAddress ≤ topAddress

/-- `findInstAt` finds an instruction at an address, the functions that are marked NO_RETURN
    and NO_CALL, by the address of their first instruction, and `logFor(LOG_INST)`. -/
structure WorkSpace where
  findInstAt : Nat → Bool
  noReturn : Nat → Bool
  noCall : Nat → Bool
  logInst : Bool

/-- The annotated addresses that match an instruction. -/
def WorkSpace.found (ws : WorkSpace) (targets : List Nat) : List Nat := targets.filter ws.findInstAt

/-! ### The builder -/

structure Flags where
  isCall : Bool
  isReturn : Bool
  isCond : Bool
  isUnknown : Bool

/-- The blocks, known by the addresses of their first instructions: BB and IS_ENTRY of the
    instructions, the sizes and the flags of the blocks, the edges and the blocks given to
    the CFGInfo. -/
structure Builder where
  bb : Nat → Bool
  isEntry : Nat → Bool
  size : Nat → Nat
  flags : Nat → Flags
  edges : List (Nat × Nat × EdgeKind)
  info : List Nat

namespace Builder

/-- The blocks that functions and other segments have made before. -/
def start (bb isEntry : Nat → Bool) : Builder := ⟨bb,isEntry,fun _ => 0,fun _ => ⟨false,false,false,false⟩,[],[]⟩

def thisBB (s : Builder) (a : Nat) : Builder := { s with bb := Function.update s.bb a true }

def markEntry (s : Builder) (a : Nat) : Builder := { s with isEntry := Function.update s.isEntry a true }

def addTarget (call : Bool) (s : Builder) (a : Nat) : Builder := if call then (s.thisBB a).markEntry a else s.thisBB a

/-- The body of the loop of the first pass; `next` is the instruction after. -/
def findBlock (ws : WorkSpace) (inst : Inst) (next : Option Inst) (s : Builder) : Builder :=
  if inst.active then
    let s := match inst.target with
      | some target => addTarget inst.isCall s target
      | none =>
        if !isReturn inst && ws.logInst then s
        else (ws.found inst.callTarget).foldl (addTarget true)
          ((ws.found inst.branchTarget).foldl (addTarget inst.isCall) s)
    match next with
    | some next => s.thisBB next.address
    | none => s
  else s

def findBlocks (ws : WorkSpace) : List Inst → Builder → Builder
  | [], s => s
  | inst :: rest, s => findBlocks ws rest (findBlock ws inst rest.head? s)

/-- `setSize` up to an address, and `info->add`. -/
def close (s : Builder) (a top : Nat) : Builder :=
  { s with size := Function.update s.size a (top-a), info := s.info ++ [a] }

def addEdge (s : Builder) (kind : EdgeKind) (a b : Nat) : Builder := { s with edges := s.edges ++ [(a,b,kind)] }

end Builder

/-- The state of the second pass: the current block and whether it is followed by the next one,
    with the entries found. -/
structure Graph extends Builder where
  current : Option Nat
  follow : Bool
  entries : List Nat

namespace Graph

/-- The block that starts on the instruction becomes the current one. -/
def nextBlock (inst : Inst) (g : Graph) : Graph :=
  match g.current with
  | none => { g with current := some inst.address }
  | some a =>
    let s := if g.size a = 0 then g.toBuilder.close a inst.address else g.toBuilder
    let s := if g.follow then s.addEdge .notTaken a inst.address else s
    { g with toBuilder := s, current := some inst.address, follow := true }

def recordEntry (a : Nat) (g : Graph) : Graph :=
  if g.isEntry a then { g with entries := g.entries ++ [a], isEntry := Function.update g.isEntry a false } else g

def startBlock (inst : Inst) (g : Graph) : Graph :=
  if g.bb inst.address then (g.nextBlock inst).recordEntry inst.address else g

end Graph

def WorkSpace.returns (ws : WorkSpace) (inst : Inst) : Bool := inst.markedReturn || inst.target.any ws.noReturn

/-- `perform_call`: the instruction has annotated calls. -/
def WorkSpace.performsCall (ws : WorkSpace) (inst : Inst) : Bool :=
  inst.target.isNone && !(ws.found inst.callTarget).isEmpty

/-- `target` is not null at the end of the loops over the annotations. -/
def WorkSpace.lastTarget (ws : WorkSpace) (inst : Inst) : Bool :=
  match inst.target with
  | some _ => true
  | none => (inst.branchTarget ++ inst.callTarget).getLast?.any ws.findInstAt

/-- The second pass looks for the annotated targets of the instruction, and one of them matches
    no instruction. -/
def WorkSpace.warns (ws : WorkSpace) (inst : Inst) : Bool :=
  inst.active && !ws.returns inst && inst.target.isNone && !(inst.branchTarget ++ inst.callTarget).all ws.findInstAt

/-- The value of `follow` after a control instruction. -/
def WorkSpace.follows (ws : WorkSpace) (inst : Inst) : Bool :=
  (ws.performsCall inst || inst.isCall || inst.isConditional) && !inst.ignoreSeq

def Inst.edgeKind (inst : Inst) : EdgeKind := if inst.isCall then .call else .taken

namespace Builder

def addTargetEdge (kind : EdgeKind) (a : Nat) (s : Builder) (target : Nat) : Builder :=
  (s.thisBB target).addEdge kind a target

/-- The edges to the targets of the control instruction that ends the block at a. -/
def addEdges (ws : WorkSpace) (inst : Inst) (a : Nat) (s : Builder) : Builder :=
  match inst.target with
  | some target => if !inst.isCall || !ws.noCall target then addTargetEdge inst.edgeKind a s target else s
  | none => (ws.found inst.callTarget).foldl (addTargetEdge .call a)
      ((ws.found inst.branchTarget).foldl (addTargetEdge inst.edgeKind a) s)

/-- The flags of a block that a control instruction ends. -/
def recordFlags (ws : WorkSpace) (inst : Inst) (a : Nat) (s : Builder) : Builder :=
  let flags := s.flags a
  let flags :=
    if ws.performsCall inst then { flags with isCall := true }
    else if isReturn inst then { flags with isReturn := true }
    else if inst.isCall then { flags with isCall := true } else flags
  let flags := if inst.isConditional then { flags with isCond := true } else flags
  let flags := if !ws.lastTarget inst && !isReturn inst then { flags with isUnknown := true } else flags
  { s with flags := Function.update s.flags a flags }

def recordReturn (a : Nat) (s : Builder) : Builder :=
  { s with flags := Function.update s.flags a { s.flags a with isReturn := true } }

end Builder

namespace Graph

def endBlock (ws : WorkSpace) (inst : Inst) (g : Graph) : Graph :=
  match g.current with
  | none => g
  | some a =>
    if ws.returns inst then
      { g with toBuilder := (g.toBuilder.close a inst.topAddress).recordReturn a, follow := false }
    else if inst.active then
      { g with
        toBuilder := ((g.toBuilder.close a inst.topAddress).addEdges ws inst a).recordFlags ws inst a
        follow := ws.follows inst }
    else g

/-- An instruction of the second pass. The warning about an annotated target that matches no
    instruction reads `*target`, which is null. -/
def processInst (ws : WorkSpace) (g : Graph) (inst : Inst) : Option Graph :=
  if ws.warns inst then none else some ((g.startBlock inst).endBlock ws inst)

def buildGraph (ws : WorkSpace) (items : List Inst) (g : Graph) : Option Graph := items.foldlM (processInst ws) g

/-- What the second pass builds when it does not warn. -/
def linkBlocks (ws : WorkSpace) (items : List Inst) (g : Graph) : Graph :=
  items.foldl (fun g inst => (g.startBlock inst).endBlock ws inst) g

theorem buildGraph_eq (ws : WorkSpace) (items : List Inst) (g : Graph) :
    buildGraph ws items g = if items.any ws.warns then none else some (linkBlocks ws items g) := by
  induction items generalizing g with
  | nil => rfl
  | cons inst rest ih =>
    have later := ih ((g.startBlock inst).endBlock ws inst)
    rw [buildGraph] at later
    rw [buildGraph,List.foldlM_cons,processInst,List.any_cons]
    cases ws.warns inst with
    | true => rfl
    | false => exact later

def closeLast (seg : Segment) (g : Graph) : Graph :=
  match g.current with
  | some a => if g.size a = 0 then { g with toBuilder := g.toBuilder.close a seg.topAddress } else g
  | none => g

end Graph

/-- `buildCFG`, from the blocks known before; `none` when a warning of the second pass reads a
    null target. -/
def buildCFG (ws : WorkSpace) (seg : Segment) (bb isEntry : Nat → Bool) : Option Graph :=
  match seg.items with
  | [] => some ⟨Builder.start bb isEntry,none,true,[]⟩
  | first :: rest =>
    let s := Builder.findBlocks ws (first :: rest) ((Builder.start bb isEntry).thisBB first.address)
    (Graph.buildGraph ws (first :: rest) ⟨s,none,true,[]⟩).map (Graph.closeLast seg)

/-- What `buildCFG` builds when it does not warn. -/
def linkCFG (ws : WorkSpace) (seg : Segment) (bb isEntry : Nat → Bool) : Graph :=
  match seg.items with
  | [] => ⟨Builder.start bb isEntry,none,true,[]⟩
  | first :: rest =>
    let s := Builder.findBlocks ws (first :: rest) ((Builder.start bb isEntry).thisBB first.address)
    (Graph.linkBlocks ws (first :: rest) ⟨s,none,true,[]⟩).closeLast seg

theorem buildCFG_eq (ws : WorkSpace) (seg : Segment) (bb isEntry : Nat → Bool) :
    buildCFG ws seg bb isEntry = if seg.items.any ws.warns then none else some (linkCFG ws seg bb isEntry) := by
  unfold buildCFG linkCFG
  cases seg.items with
  | nil => rfl
  | cons first rest =>
    dsimp only
    rw [Graph.buildGraph_eq]
    split <;> rfl

/-- The targets that are known: the static one and the annotated ones. -/
def WorkSpace.targets (ws : WorkSpace) (inst : Inst) : List Nat :=
  inst.target.toList ++ ws.found inst.branchTarget ++ ws.found inst.callTarget

/-- The execution may go on with the next instruction. -/
def WorkSpace.continues (ws : WorkSpace) (inst : Inst) : Bool :=
  (inst.isConditional || (inst.isCall || ws.performsCall inst) && !ws.returns inst) && !inst.ignoreSeq

namespace Segment
variable (seg : Segment)

/-- An instruction of the segment is at the address. -/
def Has (a : Nat) : Prop := ∃ i ∈ seg.items, i.address = a

def Successor (ws : WorkSpace) (inst : Inst) (a : Nat) : Prop :=
  a ∈ ws.targets inst ∨ ws.continues inst = true ∧ a = inst.topAddress ∧ seg.Has a

/-- The instructions that begin in a block. -/
def inside (a b : Nat) : List Inst := seg.items.filter fun i => decide (a ≤ i.address) && decide (i.address < b)

end Segment

def Tiles : Nat → List Inst → Nat → Prop
  | a, [], b => a = b
  | a, i :: is, b => i.address = a ∧ Tiles i.topAddress is b

/-- The result for a segment: each known target in it starts a block, control instructions are
    at the end of blocks, blocks have no hole, and the known successors have their edges. -/
structure Right (ws : WorkSpace) (seg : Segment) (g : Graph) : Prop where
  targets : ∀ i ∈ seg.items, i.active = true → ∀ t ∈ ws.targets i, seg.Has t → t ∈ g.info
  controls : ∀ a ∈ g.info, ∀ i ∈ seg.inside a (a+g.size a), i.active = true → i.topAddress = a+g.size a
  contiguous : ∀ a ∈ g.info, Tiles a (seg.inside a (a+g.size a)) (a+g.size a)
  edges : ∀ i ∈ seg.items, i.active = true → ∀ t, seg.Successor ws i t →
    ∃ a ∈ g.info, i ∈ seg.inside a (a+g.size a) ∧ ∃ kind, (a,t,kind) ∈ g.edges

namespace WorkSpace
variable (ws : WorkSpace)

/-- The targets that the first pass makes blocks of. The annotated ones of a branch are left
    out when the log warns about it. -/
def announced (inst : Inst) : List Nat :=
  match inst.target with
  | some target => [target]
  | none => if !isReturn inst && ws.logInst then [] else ws.found inst.branchTarget ++ ws.found inst.callTarget

def linked (inst : Inst) : List (Nat × EdgeKind) :=
  match inst.target with
  | some target => if !inst.isCall || !ws.noCall target then [(target,inst.edgeKind)] else []
  | none => (ws.found inst.branchTarget).map (fun t => (t,inst.edgeKind)) ++
      (ws.found inst.callTarget).map fun t => (t,.call)

def ends (inst : Inst) : Bool := ws.returns inst || inst.active

def lastEnd (chunk : List Inst) : Option Inst := chunk.reverse.find? ws.ends

def blockEnd (chunk : List Inst) (next : Nat) : Nat := ((ws.lastEnd chunk).map Inst.topAddress).getD next

end WorkSpace

/-- A block starts at an address when the second pass gets there through the instructions
    `before`: it was known, or made in the first pass, or by the second pass before. -/
def Starts (ws : WorkSpace) (seg : Segment) (bb : Nat → Bool) (before : List Inst) (a : Nat) : Prop :=
  bb a = true ∨ seg.items.head?.map Inst.address = some a ∨
    (∃ p i n q, seg.items = p ++ i :: n :: q ∧ i.active = true ∧ a = n.address) ∨
    (∃ i ∈ seg.items, i.active = true ∧ a ∈ ws.announced i) ∨
    ∃ i ∈ before, i.active = true ∧ ws.returns i = false ∧ ∃ kind, (a,kind) ∈ ws.linked i

/-- The second pass cuts instructions where blocks start: the chunks that are cut, each with
    the address where it is cut, and the last one. -/
inductive Cut (ws : WorkSpace) (seg : Segment) (bb : Nat → Bool) :
    List Inst → List (List Inst × Nat) → List Inst → Prop
  | first (i : Inst) (starts : Starts ws seg bb [] i.address) : Cut ws seg bb [i] [] [i]
  | stay {before : List Inst} {closed : List (List Inst × Nat)} {chunk : List Inst}
      (cut : Cut ws seg bb before closed chunk) (i : Inst) (inner : ¬ Starts ws seg bb before i.address) :
      Cut ws seg bb (before ++ [i]) closed (chunk ++ [i])
  | next {before : List Inst} {closed : List (List Inst × Nat)} {chunk : List Inst}
      (cut : Cut ws seg bb before closed chunk) (i : Inst) (starts : Starts ws seg bb before i.address) :
      Cut ws seg bb (before ++ [i]) (closed ++ [(chunk,i.address)]) [i]

/-- Each known target in the segment starts a block in time; up to the end of a block no
    instruction is missing; and the known successors of a control instruction are those that
    the builder makes edges to. -/
structure Regular (ws : WorkSpace) (seg : Segment) (bb : Nat → Bool) : Prop where
  targets : ∀ p x q, seg.items = p ++ x :: q → (∃ i ∈ seg.items, i.active = true ∧ x.address ∈ ws.targets i) →
    Starts ws seg bb p x.address
  solid : ∀ closed chunk, Cut ws seg bb seg.items closed chunk →
    ∀ i is next, (i :: is,next) ∈ closed ++ [(chunk,seg.topAddress)] →
    Tiles i.address ((i :: is).filter fun j => decide (j.address < ws.blockEnd (i :: is) next))
      (ws.blockEnd (i :: is) next)
  successors : ∀ p i q, seg.items = p ++ i :: q → i.active = true → ∀ t, seg.Successor ws i t →
    ws.returns i = false ∧ ((∃ kind, (t,kind) ∈ ws.linked i) ∨
      ws.follows i = true ∧ q.head?.map Inst.address = some t)

/-- Blocks are made at new addresses, nothing else changes. -/
structure Grown (s s' : Builder) (new : Nat → Prop) : Prop where
  bb : ∀ a, s'.bb a = true ↔ s.bb a = true ∨ new a
  size : s'.size = s.size
  edges : s'.edges = s.edges
  info : s'.info = s.info

theorem Grown.trans {s s' s'' : Builder} {new new' : Nat → Prop} (first : Grown s s' new) (second : Grown s' s'' new') :
    Grown s s'' fun a => new a ∨ new' a :=
  ⟨fun a => by rw [second.bb,first.bb,or_assoc],second.size.trans first.size,second.edges.trans first.edges,
    second.info.trans first.info⟩

theorem Grown.of_iff {s s' : Builder} {new new' : Nat → Prop} (grown : Grown s s' new) (same : ∀ a, new' a ↔ new a) :
    Grown s s' new' :=
  ⟨fun a => by rw [grown.bb,same],grown.size,grown.edges,grown.info⟩

theorem grown_refl (s : Builder) : Grown s s fun _ => False := ⟨by simp,rfl,rfl,rfl⟩

section
variable {ws : WorkSpace}

theorem grown_thisBB (s : Builder) (a : Nat) : Grown s (s.thisBB a) (· = a) := by
  refine ⟨fun b => ?_,rfl,rfl,rfl⟩
  by_cases same : b = a
  · simp [Builder.thisBB,same]
  · simp [Builder.thisBB,same]

theorem grown_addTarget (call : Bool) (s : Builder) (a : Nat) : Grown s (Builder.addTarget call s a) (· = a) := by
  have grown := grown_thisBB s a
  cases call with
  | false => exact grown
  | true => exact ⟨grown.bb,grown.size,grown.edges,grown.info⟩

theorem grown_addTargets (call : Bool) (targets : List Nat) :
    ∀ s, Grown s (targets.foldl (Builder.addTarget call) s) (· ∈ targets) := by
  induction targets with
  | nil => intro s; exact (grown_refl s).of_iff (by simp)
  | cons a rest ih =>
    intro s
    exact ((grown_addTarget call s a).trans (ih _)).of_iff (by simp)

theorem grown_findBlock (inst : Inst) (next : Option Inst) (s : Builder) :
    Grown s (Builder.findBlock ws inst next s)
      fun a => inst.active = true ∧ (a ∈ ws.announced inst ∨ next.map Inst.address = some a) := by
  unfold Builder.findBlock
  split
  case isFalse idle => exact (grown_refl s).of_iff (by simp [idle])
  case isTrue active =>
    have made : Grown s (match inst.target with
        | some target => Builder.addTarget inst.isCall s target
        | none =>
          if !isReturn inst && ws.logInst then s
          else (ws.found inst.callTarget).foldl (Builder.addTarget true)
            ((ws.found inst.branchTarget).foldl (Builder.addTarget inst.isCall) s)) (· ∈ ws.announced inst) := by
      unfold WorkSpace.announced
      cases inst.target with
      | some target => exact (grown_addTarget _ s target).of_iff (by simp)
      | none =>
        simp only
        split
        · exact (grown_refl s).of_iff (by simp)
        · exact ((grown_addTargets _ _ s).trans (grown_addTargets _ _ _)).of_iff (by simp)
    cases next with
    | none => exact made.of_iff (by simp [active])
    | some next => exact (made.trans (grown_thisBB _ next.address)).of_iff (by simp [active,eq_comm])

theorem grown_findBlocks (items : List Inst) : ∀ s, Grown s (Builder.findBlocks ws items s) fun a =>
    (∃ p i n q, items = p ++ i :: n :: q ∧ i.active = true ∧ a = n.address) ∨
      ∃ i ∈ items, i.active = true ∧ a ∈ ws.announced i := by
  induction items with
  | nil => intro s; exact (grown_refl s).of_iff (by simp)
  | cons inst rest ih =>
    intro s
    refine ((grown_findBlock inst rest.head? s).trans (ih _)).of_iff fun a => ?_
    constructor
    · rintro (⟨p,i,n,q,split,active,rfl⟩ | ⟨i,mem,active,announced⟩)
      · cases p with
        | nil =>
          obtain ⟨rfl,rfl⟩ := List.cons.inj split
          exact .inl ⟨active,.inr rfl⟩
        | cons j p => exact .inr (.inl ⟨p,i,n,q,(List.cons.inj split).2,active,rfl⟩)
      · rcases List.mem_cons.mp mem with rfl | mem
        · exact .inl ⟨active,.inl announced⟩
        · exact .inr (.inr ⟨i,mem,active,announced⟩)
    · rintro (⟨active,announced | next⟩ | ⟨p,i,n,q,split,active,rfl⟩ | ⟨i,mem,active,announced⟩)
      · exact .inr ⟨inst,List.mem_cons_self ..,active,announced⟩
      · cases rest with
        | nil => simp at next
        | cons n q => exact .inl ⟨[],inst,n,q,rfl,active,(Option.some.inj next).symm⟩
      · exact .inl ⟨inst :: p,i,n,q,by rw [split]; rfl,active,rfl⟩
      · exact .inr ⟨i,List.mem_cons_of_mem _ mem,active,announced⟩

end

section
variable {ws : WorkSpace}

/-- The edges to targets, and the blocks that they make. -/
structure Linked (s s' : Builder) (a : Nat) (new : Nat → EdgeKind → Prop) : Prop where
  bb : ∀ b, s'.bb b = true ↔ s.bb b = true ∨ ∃ kind, new b kind
  edges : ∀ b t kind, (b,t,kind) ∈ s'.edges ↔ (b,t,kind) ∈ s.edges ∨ b = a ∧ new t kind
  size : s'.size = s.size
  info : s'.info = s.info

theorem Linked.trans {s s' s'' : Builder} {a : Nat} {new new' : Nat → EdgeKind → Prop} (first : Linked s s' a new)
    (second : Linked s' s'' a new') : Linked s s'' a fun t kind => new t kind ∨ new' t kind :=
  ⟨fun b => by rw [second.bb,first.bb,or_assoc,exists_or],
    fun b t kind => by rw [second.edges,first.edges,or_assoc,and_or_left],
    second.size.trans first.size,second.info.trans first.info⟩

theorem Linked.of_iff {s s' : Builder} {a : Nat} {new new' : Nat → EdgeKind → Prop} (linked : Linked s s' a new)
    (same : ∀ t kind, new' t kind ↔ new t kind) : Linked s s' a new' :=
  ⟨fun b => by rw [linked.bb]; simp only [same],fun b t kind => by rw [linked.edges,same],linked.size,linked.info⟩

theorem linked_refl (s : Builder) (a : Nat) : Linked s s a fun _ _ => False := ⟨by simp,by simp,rfl,rfl⟩

theorem linked_addTargetEdge (kind : EdgeKind) (a : Nat) (s : Builder) (target : Nat) :
    Linked s (Builder.addTargetEdge kind a s target) a fun t k => t = target ∧ k = kind := by
  refine ⟨fun b => ?_,fun b t k => ?_,rfl,rfl⟩
  · simpa [Builder.addTargetEdge,Builder.addEdge] using (grown_thisBB s target).bb b
  · simp [Builder.addTargetEdge,Builder.addEdge,Builder.thisBB]

theorem linked_addTargetEdges (kind : EdgeKind) (a : Nat) (targets : List Nat) :
    ∀ s, Linked s (targets.foldl (Builder.addTargetEdge kind a) s) a fun t k => t ∈ targets ∧ k = kind := by
  induction targets with
  | nil => intro s; exact (linked_refl s a).of_iff (by simp)
  | cons target rest ih =>
    intro s
    exact ((linked_addTargetEdge kind a s target).trans (ih _)).of_iff (by simp [or_and_right])

theorem linked_addEdges (inst : Inst) (a : Nat) (s : Builder) :
    Linked s (Builder.addEdges ws inst a s) a fun t kind => (t,kind) ∈ ws.linked inst := by
  unfold Builder.addEdges WorkSpace.linked
  cases inst.target with
  | some target =>
    simp only
    split
    · exact (linked_addTargetEdge _ a s target).of_iff (by simp)
    · exact (linked_refl s a).of_iff (by simp)
  | none =>
    exact ((linked_addTargetEdges _ a _ s).trans (linked_addTargetEdges _ a _ _)).of_iff (by simp [eq_comm])

/-- What an instruction that is no start does to the current block, which starts at a. -/
structure Ended (ws : WorkSpace) (inst : Inst) (a : Nat) (g g' : Graph) : Prop where
  current : g'.current = some a
  bb : ∀ b, g'.bb b = true ↔ g.bb b = true ∨
    inst.active = true ∧ ws.returns inst = false ∧ ∃ kind, (b,kind) ∈ ws.linked inst
  edges : ∀ b t kind, (b,t,kind) ∈ g'.edges ↔ (b,t,kind) ∈ g.edges ∨
    b = a ∧ inst.active = true ∧ ws.returns inst = false ∧ (t,kind) ∈ ws.linked inst
  size : g'.size = if ws.ends inst then Function.update g.size a (inst.topAddress-a) else g.size
  info : ∀ b, b ∈ g'.info ↔ b ∈ g.info ∨ ws.ends inst = true ∧ b = a
  follow : g'.follow = if ws.ends inst then !ws.returns inst && ws.follows inst else g.follow

theorem ended_endBlock (inst : Inst) {g : Graph} {a : Nat} (current : g.current = some a) :
    Ended ws inst a g (g.endBlock ws inst) := by
  unfold Graph.endBlock
  rw [current]
  simp only
  by_cases returns : ws.returns inst = true
  · rw [if_pos returns]
    have ends : ws.ends inst = true := by simp [WorkSpace.ends,returns]
    exact ⟨rfl,by simp [returns,Builder.recordReturn,Builder.close],
      by simp [returns,Builder.recordReturn,Builder.close],by simp [ends,Builder.recordReturn,Builder.close],
      by simp [ends,Builder.recordReturn,Builder.close],by simp [ends,returns]⟩
  · rw [if_neg returns]
    rw [Bool.not_eq_true] at returns
    by_cases active : inst.active = true
    · rw [if_pos active]
      have ends : ws.ends inst = true := by simp [WorkSpace.ends,active]
      have linked := @linked_addEdges ws inst a (g.toBuilder.close a inst.topAddress)
      refine ⟨rfl,fun b => ?_,fun b t kind => ?_,?_,fun b => ?_,by simp [ends,returns]⟩
      · simpa [active,returns,Builder.recordFlags,Builder.close] using linked.bb b
      · simpa [active,returns,Builder.recordFlags,Builder.close] using linked.edges b t kind
      · simpa [ends,Builder.recordFlags,Builder.close] using linked.size
      · simpa [ends,Builder.recordFlags,Builder.close] using congrArg (b ∈ ·) linked.info
    · rw [if_neg active]
      rw [Bool.not_eq_true] at active
      have ends : ws.ends inst = false := by simp [WorkSpace.ends,returns,active]
      exact ⟨current,by simp [active],by simp [active],by simp [ends],by simp [ends],by simp [ends]⟩

structure Started (inst : Inst) (a : Nat) (g g' : Graph) : Prop where
  current : g'.current = some inst.address
  bb : g'.bb = g.bb
  edges : ∀ b t kind, (b,t,kind) ∈ g'.edges ↔ (b,t,kind) ∈ g.edges ∨
    b = a ∧ t = inst.address ∧ kind = .notTaken ∧ g.follow = true
  size : g'.size = if g.size a = 0 then Function.update g.size a (inst.address-a) else g.size
  info : ∀ b, b ∈ g'.info ↔ b ∈ g.info ∨ g.size a = 0 ∧ b = a
  follow : g'.follow = true

theorem startBlock_inner (inst : Inst) {g : Graph} (inner : g.bb inst.address = false) : g.startBlock inst = g := by
  simp [Graph.startBlock,inner]

theorem recordEntry_eq (a : Nat) (g : Graph) : (g.recordEntry a).current = g.current ∧ (g.recordEntry a).bb = g.bb ∧
    (g.recordEntry a).edges = g.edges ∧ (g.recordEntry a).size = g.size ∧ (g.recordEntry a).info = g.info ∧
    (g.recordEntry a).follow = g.follow := by
  unfold Graph.recordEntry
  split <;> exact ⟨rfl,rfl,rfl,rfl,rfl,rfl⟩

theorem startBlock_first (inst : Inst) {g : Graph} (starts : g.bb inst.address = true) (current : g.current = none) :
    (g.startBlock inst).current = some inst.address ∧ (g.startBlock inst).bb = g.bb ∧
      (g.startBlock inst).edges = g.edges ∧ (g.startBlock inst).size = g.size ∧ (g.startBlock inst).info = g.info ∧
      (g.startBlock inst).follow = g.follow := by
  have next : g.nextBlock inst = { g with current := some inst.address } := by rw [Graph.nextBlock,current]
  have same := recordEntry_eq inst.address (g.nextBlock inst)
  rw [Graph.startBlock,if_pos starts]
  rw [next] at same ⊢
  exact same

theorem started_startBlock (inst : Inst) {g : Graph} {a : Nat} (starts : g.bb inst.address = true)
    (current : g.current = some a) : Started inst a g (g.startBlock inst) := by
  have next : Started inst a g (g.nextBlock inst) := by
    unfold Graph.nextBlock
    rw [current]
    refine ⟨rfl,?_,fun b t kind => ?_,?_,fun b => ?_,rfl⟩
    · by_cases unsized : g.size a = 0 <;> by_cases follow : g.follow = true <;>
        simp [unsized,follow,Builder.close,Builder.addEdge]
    · by_cases unsized : g.size a = 0 <;> by_cases follow : g.follow = true <;>
        simp [unsized,follow,Builder.close,Builder.addEdge]
    · by_cases unsized : g.size a = 0 <;> by_cases follow : g.follow = true <;>
        simp [unsized,follow,Builder.close,Builder.addEdge]
    · by_cases unsized : g.size a = 0 <;> by_cases follow : g.follow = true <;>
        simp [unsized,follow,Builder.close,Builder.addEdge]
  obtain ⟨sameCurrent,sameBB,sameEdges,sameSize,sameInfo,sameFollow⟩ := recordEntry_eq inst.address (g.nextBlock inst)
  rw [Graph.startBlock,if_pos starts]
  exact ⟨sameCurrent.trans next.current,sameBB.trans next.bb,fun b t kind => by rw [sameEdges,next.edges],
    sameSize.trans next.size,fun b => by rw [sameInfo,next.info],sameFollow.trans next.follow⟩

end

def start? (chunk : List Inst) : Option Nat := chunk.head?.map Inst.address

section
variable {ws : WorkSpace} {seg : Segment} {bb : Nat → Bool}

theorem start_append {chunk : List Inst} (nonempty : chunk ≠ []) (rest : List Inst) :
    start? (chunk ++ rest) = start? chunk := by
  cases chunk with
  | nil => exact absurd rfl nonempty
  | cons i is => rfl

theorem starts_append {before : List Inst} {i : Inst} {a : Nat} : Starts ws seg bb (before ++ [i]) a ↔
    Starts ws seg bb before a ∨ i.active = true ∧ ws.returns i = false ∧ ∃ kind, (a,kind) ∈ ws.linked i := by
  unfold Starts
  simp only [List.mem_append,List.mem_singleton,or_and_right,exists_or,exists_eq_left,or_assoc]

structure Chunk (ws : WorkSpace) (seg : Segment) (bb : Nat → Bool) (p chunk : List Inst) : Prop where
  nonempty : chunk ≠ []
  starts : ∀ y v, chunk = y :: v → Starts ws seg bb p y.address
  inner : ∀ u y v, chunk = u ++ y :: v → u ≠ [] → ¬ Starts ws seg bb (p ++ u) y.address

theorem chunk_single {p : List Inst} {i : Inst} (starts : Starts ws seg bb p i.address) : Chunk ws seg bb p [i] := by
  refine ⟨by simp,?_,?_⟩
  · intro y v same
    cases same
    exact starts
  · intro u y v same full
    cases u with
    | nil => exact absurd rfl full
    | cons z u => simp at same

theorem chunk_append {p chunk : List Inst} {i : Inst} (part : Chunk ws seg bb p chunk)
    (inner : ¬ Starts ws seg bb (p ++ chunk) i.address) : Chunk ws seg bb p (chunk ++ [i]) := by
  refine ⟨by simp,?_,?_⟩
  · intro y v same
    cases chunk with
    | nil => exact absurd rfl part.nonempty
    | cons z zs =>
      obtain ⟨rfl,rfl⟩ := List.cons.inj same
      exact part.starts _ _ rfl
  · intro u y v same full
    rcases List.eq_nil_or_concat v with rfl | ⟨v,z,rfl⟩
    · obtain ⟨rfl,last⟩ := List.append_inj' same rfl
      cases last
      exact inner
    · rw [List.concat_eq_append,← List.cons_append,← List.append_assoc] at same
      exact part.inner u y v (List.append_inj' same rfl).1 full

theorem Cut.shape {before : List Inst} {closed : List (List Inst × Nat)} {chunk : List Inst}
    (cut : Cut ws seg bb before closed chunk) :
    ∃ p, before = p ++ chunk ∧ Chunk ws seg bb p chunk ∧
      ∀ c n, (c,n) ∈ closed → ∃ u v, p = u ++ c ++ v ∧ start? (v ++ chunk) = some n ∧ Chunk ws seg bb u c := by
  induction cut with
  | first i starts => exact ⟨[],rfl,chunk_single starts,by simp⟩
  | @stay before closed chunk cut i inner ih =>
    obtain ⟨p,rfl,part,parts⟩ := ih
    refine ⟨p,by simp,chunk_append part inner,fun c n mem => ?_⟩
    obtain ⟨u,v,split,next,closedPart⟩ := parts c n mem
    refine ⟨u,v,split,?_,closedPart⟩
    rw [← List.append_assoc,start_append (by simp [part.nonempty])]
    exact next
  | @next before closed chunk cut i starts ih =>
    obtain ⟨p,rfl,part,parts⟩ := ih
    refine ⟨p ++ chunk,rfl,chunk_single starts,fun c n mem => ?_⟩
    rcases List.mem_append.mp mem with mem | mem
    · obtain ⟨u,v,split,next,closedPart⟩ := parts c n mem
      refine ⟨u,v ++ chunk,by rw [split]; simp,?_,closedPart⟩
      rw [start_append (by simp [part.nonempty])]
      exact next
    · obtain ⟨rfl,rfl⟩ := Prod.mk.inj (List.mem_singleton.mp mem)
      exact ⟨p,[],by simp,rfl,part⟩

theorem Cut.cover {before : List Inst} {closed : List (List Inst × Nat)} {chunk : List Inst}
    (cut : Cut ws seg bb before closed chunk) : ∀ x ∈ before, x ∈ chunk ∨ ∃ c n, (c,n) ∈ closed ∧ x ∈ c := by
  induction cut with
  | first i starts => intro x mem; exact .inl mem
  | stay cut i inner ih =>
    intro x mem
    rcases List.mem_append.mp mem with mem | mem
    · rcases ih x mem with here | there
      · exact .inl (List.mem_append_left _ here)
      · exact .inr there
    · exact .inl (List.mem_append_right _ mem)
  | @next before closed chunk cut i starts ih =>
    intro x mem
    rcases List.mem_append.mp mem with mem | mem
    · rcases ih x mem with here | ⟨c,n,there,inside⟩
      · exact .inr ⟨chunk,i.address,by simp,here⟩
      · exact .inr ⟨c,n,List.mem_append_left _ there,inside⟩
    · exact .inl mem

theorem Cut.exists {before : List Inst} (nonempty : before ≠ []) (rest : List Inst)
    (split : seg.items = before ++ rest) : ∃ closed chunk, Cut ws seg bb before closed chunk := by
  induction before using List.reverseRecOn generalizing rest with
  | nil => exact absurd rfl nonempty
  | append_singleton before i ih =>
    cases before with
    | nil => exact ⟨[],[i],.first i (.inr (.inl (by rw [split]; rfl)))⟩
    | cons j tail =>
      obtain ⟨closed,chunk,cut⟩ := ih (by simp) ([i] ++ rest) (by rw [split]; simp)
      by_cases starts : Starts ws seg bb (j :: tail) i.address
      · exact ⟨_,_,cut.next i starts⟩
      · exact ⟨_,_,cut.stay i starts⟩

theorem lastEnd_append (chunk : List Inst) (i : Inst) :
    ws.lastEnd (chunk ++ [i]) = if ws.ends i then some i else ws.lastEnd chunk := by
  by_cases ends : ws.ends i = true <;> simp [WorkSpace.lastEnd,ends]

theorem lastEnd_mem {chunk : List Inst} {e : Inst} (last : ws.lastEnd chunk = some e) :
    e ∈ chunk ∧ ws.ends e = true :=
  ⟨List.mem_reverse.mp (List.mem_of_find?_eq_some last),by simpa using List.find?_some last⟩

/-- The value of `follow` after a chunk. -/
def WorkSpace.followAfter (ws : WorkSpace) (chunk : List Inst) : Bool :=
  ((ws.lastEnd chunk).map fun e => !ws.returns e && ws.follows e).getD true

theorem followAfter_append (chunk : List Inst) (i : Inst) : ws.followAfter (chunk ++ [i]) =
    if ws.ends i then !ws.returns i && ws.follows i else ws.followAfter chunk := by
  rw [WorkSpace.followAfter,lastEnd_append]
  split <;> rfl

def WorkSpace.LinkedFrom (ws : WorkSpace) (chunk : List Inst) (t : Nat) (kind : EdgeKind) : Prop :=
  ∃ i ∈ chunk, i.active = true ∧ ws.returns i = false ∧ (t,kind) ∈ ws.linked i

theorem linkedFrom_append (chunk : List Inst) (i : Inst) (t : Nat) (kind : EdgeKind) :
    ws.LinkedFrom (chunk ++ [i]) t kind ↔ ws.LinkedFrom chunk t kind ∨
      i.active = true ∧ ws.returns i = false ∧ (t,kind) ∈ ws.linked i := by
  simp [WorkSpace.LinkedFrom,or_and_right,exists_or]

theorem address_lt {p q : List Inst} {i j : Inst} {rest : List Inst} (split : seg.items = p ++ q ++ rest)
    (first : i ∈ p) (second : j ∈ q) : i.topAddress ≤ j.address ∧ i.address < j.address := by
  have sorted := seg.sorted
  rw [split,List.append_assoc] at sorted
  have order := (List.pairwise_append.mp sorted).2.2 i first j (List.mem_append_left _ second)
  have positive := seg.size_pos i (by rw [split]; simp [first])
  exact ⟨order,by unfold Inst.topAddress at order; omega⟩

end

/-! ### The second pass -/

/-- The state of the second pass after the instructions `before`, which are cut so. -/
structure Walked (ws : WorkSpace) (seg : Segment) (bb : Nat → Bool) (before : List Inst)
    (closed : List (List Inst × Nat)) (chunk : List Inst) (g : Graph) : Prop where
  bb : ∀ a, g.bb a = true ↔ Starts ws seg bb before a
  current : g.current = start? chunk
  fresh : ∀ a, (∀ i ∈ before, i.address ≠ a) → g.size a = 0
  opened : ∀ a, start? chunk = some a → g.size a = ((ws.lastEnd chunk).map fun e => e.topAddress-a).getD 0
  done : ∀ c n a, (c,n) ∈ closed → start? c = some a → g.size a = ws.blockEnd c n-a
  info : ∀ a, a ∈ g.info ↔ (∃ c n, (c,n) ∈ closed ∧ start? c = some a) ∨
    start? chunk = some a ∧ ws.lastEnd chunk ≠ none
  edges : ∀ a t kind, (a,t,kind) ∈ g.edges ↔
    (∃ c n, (c,n) ∈ closed ∧ start? c = some a ∧
      (ws.LinkedFrom c t kind ∨ t = n ∧ kind = .notTaken ∧ ws.followAfter c = true)) ∨
    start? chunk = some a ∧ ws.LinkedFrom chunk t kind
  follow : g.follow = ws.followAfter chunk

section
variable {ws : WorkSpace} {seg : Segment} {bb : Nat → Bool}

structure Announced (ws : WorkSpace) (seg : Segment) (bb : Nat → Bool) (g : Graph) : Prop where
  bb : ∀ a, g.bb a = true ↔ Starts ws seg bb [] a
  size : g.size = fun _ => 0
  edges : g.edges = []
  info : g.info = []
  current : g.current = none
  follow : g.follow = true

private theorem exists_snoc {closed : List (List Inst × Nat)} {chunk : List Inst} {next : Nat} {holds : List Inst → Nat → Prop} :
    (∃ c n, (c,n) ∈ closed ++ [(chunk,next)] ∧ holds c n) ↔ (∃ c n, (c,n) ∈ closed ∧ holds c n) ∨ holds chunk next := by
  constructor
  · rintro ⟨c,n,mem,it⟩
    rcases List.mem_append.mp mem with mem | mem
    · exact .inl ⟨c,n,mem,it⟩
    · obtain ⟨rfl,rfl⟩ := Prod.mk.inj (List.mem_singleton.mp mem)
      exact .inr it
  · rintro (⟨c,n,mem,it⟩ | it)
    exacts [⟨c,n,List.mem_append_left _ mem,it⟩,⟨chunk,next,by simp,it⟩]

theorem walked_first {i : Inst} {rest : List Inst} (split : seg.items = [i] ++ rest) {g : Graph}
    (announced : Announced ws seg bb g) :
    Walked ws seg bb [i] [] [i] ((g.startBlock i).endBlock ws i) := by
  have starts : g.bb i.address = true := (announced.bb _).mpr (.inr (.inl (by rw [split]; rfl)))
  obtain ⟨current,same,edges,size,info,follow⟩ := startBlock_first i starts announced.current
  have ended := @ended_endBlock ws i _ _ current
  have last := @lastEnd_append ws [] i
  have linked := @linkedFrom_append ws [] i
  have after := @followAfter_append ws [] i
  rw [List.nil_append] at last linked after
  refine ⟨fun a => ?_,ended.current,fun a other => ?_,fun a here => ?_,by simp,fun a => ?_,fun a t kind => ?_,?_⟩
  · rw [ended.bb,same,announced.bb]
    exact (@starts_append _ _ _ [] _ _).symm
  · have notHere : a ≠ i.address := fun same => other i (List.mem_singleton_self i) same.symm
    rw [ended.size,size,announced.size]
    split <;> simp [notHere]
  · cases here
    rw [ended.size,size,announced.size,last]
    split <;> simp [WorkSpace.lastEnd]
  · rw [ended.info,info,announced.info,last]
    by_cases ends : ws.ends i = true <;> simp [ends,start?,eq_comm,WorkSpace.lastEnd]
  · have empty : ¬ ws.LinkedFrom [] t kind := by simp [WorkSpace.LinkedFrom]
    have here : start? [i] = some a ↔ a = i.address := by simp [start?,eq_comm]
    rw [ended.edges,edges,announced.edges,linked,here]
    simp [empty]
  · rw [ended.follow,follow,announced.follow,after]
    rfl

theorem Cut.start_lt {before : List Inst} {closed : List (List Inst × Nat)} {chunk : List Inst}
    (cut : Cut ws seg bb before closed chunk) {rest : List Inst} (split : seg.items = before ++ rest) :
    (∀ a, start? chunk = some a → (∃ i ∈ before, i.address = a) ∧ (∀ e ∈ chunk, a ≤ e.address) ∧
      ∀ c n b, (c,n) ∈ closed → start? c = some b → b < a) ∧
      ∀ c n b, (c,n) ∈ closed → start? c = some b → ∃ i ∈ before, i.address = b := by
  obtain ⟨p,rfl,⟨nonempty,_,_⟩,parts⟩ := cut.shape
  refine ⟨fun a here => ?_,fun c n b mem there => ?_⟩
  · cases chunk with
    | nil => exact absurd rfl nonempty
    | cons i is =>
      cases here
      refine ⟨⟨i,by simp,rfl⟩,fun e mem => ?_,fun c n b mem there => ?_⟩
      · have parted : seg.items = (p ++ [i]) ++ is ++ rest := by rw [split]; simp
        rcases List.mem_cons.mp mem with rfl | mem
        · exact Nat.le_refl _
        · exact Nat.le_of_lt (address_lt parted (List.mem_append_right p (List.mem_singleton_self i)) mem).2
      · obtain ⟨u,v,whole,_,full,_,_⟩ := parts c n mem
        cases c with
        | nil => exact absurd rfl full
        | cons j js =>
          cases there
          exact (address_lt (p := p) (q := i :: is) split (by rw [whole]; simp) (by simp)).2
  · obtain ⟨u,v,whole,_,full,_,_⟩ := parts c n mem
    cases c with
    | nil => exact absurd rfl full
    | cons j js =>
      cases there
      exact ⟨j,by rw [whole]; simp,rfl⟩

theorem walked_stay {before : List Inst} {closed : List (List Inst × Nat)} {chunk : List Inst} {i : Inst}
    {rest : List Inst} {g : Graph} (cut : Cut ws seg bb before closed chunk) (inner : ¬ Starts ws seg bb before i.address)
    (split : seg.items = (before ++ [i]) ++ rest) (walked : Walked ws seg bb before closed chunk g) :
    Walked ws seg bb (before ++ [i]) closed (chunk ++ [i]) ((g.startBlock i).endBlock ws i) := by
  obtain ⟨_,_,⟨nonempty,_,_⟩,_⟩ := cut.shape
  have unmarked : g.bb i.address = false := by
    rw [← Bool.not_eq_true,walked.bb]
    exact inner
  rw [startBlock_inner i unmarked]
  obtain ⟨a,here⟩ : ∃ a, start? chunk = some a := by
    cases chunk with
    | nil => exact absurd rfl nonempty
    | cons j js => exact ⟨_,rfl⟩
  have starts : start? (chunk ++ [i]) = some a := (start_append nonempty [i]).trans here
  have ended := @ended_endBlock ws i _ _ (walked.current.trans here)
  have parted : seg.items = before ++ ([i] ++ rest) := by rw [split]; simp
  obtain ⟨opens,inBefore⟩ := cut.start_lt parted
  obtain ⟨⟨first,firstMem,rfl⟩,_,earlier⟩ := opens a here
  refine ⟨fun b => ?_,ended.current.trans starts.symm,fun b other => ?_,fun b head => ?_,fun c n b mem there => ?_,
    fun b => ?_,fun b t kind => ?_,?_⟩
  · rw [ended.bb,walked.bb]
    exact starts_append.symm
  · have unsized := walked.fresh b fun j mem => other j (List.mem_append_left _ mem)
    have notHere : b ≠ first.address := fun same => other first (List.mem_append_left _ firstMem) same.symm
    rw [ended.size]
    split
    · rw [Function.update_of_ne notHere]; exact unsized
    · exact unsized
  · obtain rfl : first.address = b := Option.some.inj (starts.symm.trans head)
    rw [ended.size,lastEnd_append]
    split
    · simp
    · exact walked.opened _ here
  · have notHere : b ≠ first.address := Nat.ne_of_lt (earlier c n b mem there)
    rw [ended.size]
    split
    · rw [Function.update_of_ne notHere]; exact walked.done c n b mem there
    · exact walked.done c n b mem there
  · rw [ended.info,walked.info,lastEnd_append,here,starts]
    by_cases ends : ws.ends i = true
    · rw [if_pos ends]
      constructor
      · rintro ((closed | ⟨same,_⟩) | ⟨_,rfl⟩)
        · exact .inl closed
        · exact .inr ⟨same,by simp⟩
        · exact .inr ⟨rfl,by simp⟩
      · rintro (closed | ⟨same,_⟩)
        · exact .inl (.inl closed)
        · exact .inr ⟨ends,(Option.some.inj same).symm⟩
    · simp [ends]
  · rw [ended.edges,walked.edges,linkedFrom_append,here,starts,Option.some.injEq,or_assoc,eq_comm (a := b),and_or_left]
  · rw [ended.follow,followAfter_append,walked.follow]

theorem walked_next {before : List Inst} {closed : List (List Inst × Nat)} {chunk : List Inst} {i : Inst}
    {rest : List Inst} {g : Graph} (cut : Cut ws seg bb before closed chunk) (starts : Starts ws seg bb before i.address)
    (split : seg.items = (before ++ [i]) ++ rest) (walked : Walked ws seg bb before closed chunk g) :
    Walked ws seg bb (before ++ [i]) (closed ++ [(chunk,i.address)]) [i] ((g.startBlock i).endBlock ws i) := by
  obtain ⟨p,shape,⟨nonempty,_,_⟩,_⟩ := cut.shape
  obtain ⟨a,here⟩ : ∃ a, start? chunk = some a := by
    cases chunk with
    | nil => exact absurd rfl nonempty
    | cons j js => exact ⟨_,rfl⟩
  have started := started_startBlock i ((walked.bb _).mpr starts) (walked.current.trans here)
  have ended := @ended_endBlock ws i _ _ started.current
  have parted : seg.items = before ++ ([i] ++ rest) := by rw [split]; simp
  obtain ⟨opens,inBefore⟩ := cut.start_lt parted
  obtain ⟨⟨first,firstMem,firstIs⟩,least,earlier⟩ := opens a here
  have later : ∀ j ∈ before, j.address < i.address := fun j mem => (address_lt split mem (List.mem_singleton_self i)).2
  have aLess : a < i.address := firstIs ▸ later first firstMem
  have opened := walked.opened a here
  have last := @lastEnd_append ws [] i
  have after := @followAfter_append ws [] i
  rw [List.nil_append] at last after
  have none : ws.lastEnd [] = none := rfl
  -- the chunk that is closed has its size now
  have closedSize : (g.startBlock i).size a = ws.blockEnd chunk i.address-a := by
    rw [started.size,opened]
    unfold WorkSpace.blockEnd
    cases end_ : ws.lastEnd chunk with
    | none => simp
    | some e =>
      have inChunk := (lastEnd_mem end_).1
      have low := least e inChunk
      have positive := seg.size_pos e (by rw [split,shape]; simp [inChunk])
      have sized : e.topAddress-a ≠ 0 := by unfold Inst.topAddress; omega
      rw [end_] at opened
      simp only [Option.map_some,Option.getD_some] at opened ⊢
      rw [if_neg sized]
      exact opened
  have keepsSize : ∀ b, b ≠ a → (g.startBlock i).size b = g.size b := by
    intro b other
    rw [started.size]
    split
    · exact Function.update_of_ne other ..
    · rfl
  have endedSize : ∀ b, b ≠ i.address → ((g.startBlock i).endBlock ws i).size b = (g.startBlock i).size b := by
    intro b other
    rw [ended.size]
    split
    · exact Function.update_of_ne other ..
    · rfl
  refine ⟨fun b => ?_,ended.current,fun b other => ?_,fun b head => ?_,fun c n b mem there => ?_,fun b => ?_,
    fun b t kind => ?_,?_⟩
  · rw [ended.bb,started.bb,walked.bb]
    exact starts_append.symm
  · have unsized := walked.fresh b fun j mem => other j (List.mem_append_left _ mem)
    have notNew : b ≠ i.address := fun same => other i (List.mem_append_right _ (List.mem_singleton_self i)) same.symm
    have notHere : b ≠ a := fun same => other first (List.mem_append_left _ firstMem) (firstIs.trans same.symm)
    rw [endedSize b notNew,keepsSize b notHere,unsized]
  · cases head
    have unsized := walked.fresh i.address fun j mem => Nat.ne_of_lt (later j mem)
    have kept := keepsSize i.address (by omega)
    rw [ended.size,last]
    split
    · simp
    · rw [kept,unsized,none]; rfl
  · rcases List.mem_append.mp mem with mem | mem
    · have less := earlier c n b mem there
      rw [endedSize b (by omega),keepsSize b (by omega)]
      exact walked.done c n b mem there
    · obtain ⟨rfl,rfl⟩ := Prod.mk.inj (List.mem_singleton.mp mem)
      obtain rfl : a = b := Option.some.inj (here.symm.trans there)
      rw [endedSize a (by omega)]
      exact closedSize
  · have inInfo : b ∈ (g.startBlock i).info ↔ ∃ c n, (c,n) ∈ closed ++ [(chunk,i.address)] ∧ start? c = some b := by
      rw [exists_snoc,started.info,walked.info,opened,or_assoc]
      refine or_congr_right ⟨?_,fun same => ?_⟩
      · rintro (⟨same,_⟩ | ⟨_,rfl⟩)
        exacts [same,here]
      · obtain rfl : a = b := Option.some.inj (here.symm.trans same)
        cases end_ : ws.lastEnd chunk with
        | none => exact .inr ⟨by simp,rfl⟩
        | some e => exact .inl ⟨here,by simp⟩
    rw [ended.info,inInfo,last]
    by_cases ends : ws.ends i = true <;> simp [ends,start?,eq_comm,none]
  · have inEdges : (b,t,kind) ∈ (g.startBlock i).edges ↔ ∃ c n, (c,n) ∈ closed ++ [(chunk,i.address)] ∧
        start? c = some b ∧ (ws.LinkedFrom c t kind ∨ t = n ∧ kind = .notTaken ∧ ws.followAfter c = true) := by
      rw [exists_snoc,started.edges,walked.edges,walked.follow,or_assoc]
      refine or_congr_right ⟨?_,?_⟩
      · rintro (⟨same,edge⟩ | ⟨rfl,rfl,rfl,follow⟩)
        exacts [⟨same,.inl edge⟩,⟨here,.inr ⟨rfl,rfl,follow⟩⟩]
      · rintro ⟨same,edge | ⟨rfl,rfl,follow⟩⟩
        · exact .inl ⟨same,edge⟩
        · obtain rfl : a = b := Option.some.inj (here.symm.trans same)
          exact .inr ⟨rfl,rfl,rfl,follow⟩
    have single : start? [i] = some b ↔ b = i.address := by simp [start?,eq_comm]
    rw [ended.edges,inEdges,single]
    simp [WorkSpace.LinkedFrom]
  · rw [ended.follow,started.follow,after]
    rfl

theorem walked_linkBlocks {g : Graph} (announced : Announced ws seg bb g) {before : List Inst}
    {closed : List (List Inst × Nat)} {chunk : List Inst} (cut : Cut ws seg bb before closed chunk) :
    ∀ rest, seg.items = before ++ rest → Walked ws seg bb before closed chunk (g.linkBlocks ws before) := by
  have snoc (before : List Inst) (i : Inst) : g.linkBlocks ws (before ++ [i]) =
      ((g.linkBlocks ws before).startBlock i).endBlock ws i := by
    simp [Graph.linkBlocks]
  induction cut with
  | first i _ =>
    intro rest split
    exact walked_first split announced
  | stay cut i inner ih =>
    intro rest split
    rw [snoc]
    exact walked_stay cut inner split (ih ([i] ++ rest) (by rw [split]; simp))
  | next cut i starts ih =>
    intro rest split
    rw [snoc]
    exact walked_next cut starts split (ih ([i] ++ rest) (by rw [split]; simp))

structure Built (ws : WorkSpace) (seg : Segment) (closed : List (List Inst × Nat)) (chunk : List Inst) (g : Graph) :
    Prop where
  info : ∀ a, a ∈ g.info ↔ ∃ c n, (c,n) ∈ closed ++ [(chunk,seg.topAddress)] ∧ start? c = some a
  size : ∀ c n a, (c,n) ∈ closed ++ [(chunk,seg.topAddress)] → start? c = some a → g.size a = ws.blockEnd c n-a
  edges : ∀ a t kind, (a,t,kind) ∈ g.edges ↔
    (∃ c n, (c,n) ∈ closed ++ [(chunk,seg.topAddress)] ∧ start? c = some a ∧ ws.LinkedFrom c t kind) ∨
    ∃ c n, (c,n) ∈ closed ∧ start? c = some a ∧ t = n ∧ kind = .notTaken ∧ ws.followAfter c = true

theorem built_closeLast {closed : List (List Inst × Nat)} {chunk : List Inst} {g : Graph}
    (cut : Cut ws seg bb seg.items closed chunk) (walked : Walked ws seg bb seg.items closed chunk g) :
    Built ws seg closed chunk (g.closeLast seg) := by
  obtain ⟨p,shape,⟨nonempty,_,_⟩,_⟩ := cut.shape
  obtain ⟨a,here⟩ : ∃ a, start? chunk = some a := by
    cases chunk with
    | nil => exact absurd rfl nonempty
    | cons j js => exact ⟨_,rfl⟩
  obtain ⟨opens,_⟩ := cut.start_lt (List.append_nil _).symm
  obtain ⟨_,least,earlier⟩ := opens a here
  have opened := walked.opened a here
  have sized : g.size a = 0 ↔ ws.lastEnd chunk = none := by
    rw [opened]
    cases end_ : ws.lastEnd chunk with
    | none => simp
    | some e =>
      have inChunk := (lastEnd_mem end_).1
      have low := least e inChunk
      have positive := seg.size_pos e (by rw [shape]; simp [inChunk])
      simp only [Option.map_some,Option.getD_some,reduceCtorEq,iff_false]
      unfold Inst.topAddress
      omega
  have closes : g.closeLast seg = if ws.lastEnd chunk = none then
      { g with toBuilder := g.toBuilder.close a seg.topAddress } else g := by
    rw [Graph.closeLast,walked.current,here]
    simp only [sized]
  have edges : (g.closeLast seg).edges = g.edges := by rw [closes]; split <;> rfl
  refine ⟨fun b => ?_,fun c n b mem there => ?_,fun b t kind => ?_⟩
  · have inInfo : b ∈ (g.closeLast seg).info ↔ b ∈ g.info ∨ ws.lastEnd chunk = none ∧ b = a := by
      rw [closes]
      by_cases none : ws.lastEnd chunk = none <;> simp [none,Builder.close]
    rw [inInfo,walked.info,exists_snoc,or_assoc]
    refine or_congr_right ⟨?_,fun same => ?_⟩
    · rintro (⟨same,_⟩ | ⟨_,rfl⟩)
      exacts [same,here]
    · obtain rfl : a = b := Option.some.inj (here.symm.trans same)
      by_cases none : ws.lastEnd chunk = none
      · exact .inr ⟨none,rfl⟩
      · exact .inl ⟨here,none⟩
  · rw [closes]
    rcases List.mem_append.mp mem with mem | mem
    · have other : b ≠ a := Nat.ne_of_lt (earlier c n b mem there)
      split
      · exact (Function.update_of_ne other ..).trans (walked.done c n b mem there)
      · exact walked.done c n b mem there
    · obtain ⟨rfl,rfl⟩ := Prod.mk.inj (List.mem_singleton.mp mem)
      obtain rfl : a = b := Option.some.inj (here.symm.trans there)
      cases end_ : ws.lastEnd c with
      | none => simp [Builder.close,WorkSpace.blockEnd,end_]
      | some e =>
        rw [end_] at opened
        simpa [WorkSpace.blockEnd,end_] using opened
  · rw [edges,walked.edges,exists_snoc]
    constructor
    · rintro (⟨c,n,mem,there,edge | edge⟩ | last)
      exacts [.inl (.inl ⟨c,n,mem,there,edge⟩),.inr ⟨c,n,mem,there,edge⟩,.inl (.inr last)]
    · rintro ((⟨c,n,mem,there,edge⟩ | last) | ⟨c,n,mem,there,edge⟩)
      exacts [.inl ⟨c,n,mem,there,.inl edge⟩,.inr last,.inl ⟨c,n,mem,there,.inr edge⟩]

theorem built_linkCFG (isEntry : Nat → Bool) {closed : List (List Inst × Nat)} {chunk : List Inst}
    (cut : Cut ws seg bb seg.items closed chunk) : Built ws seg closed chunk (linkCFG ws seg bb isEntry) := by
  cases items : seg.items with
  | nil =>
    obtain ⟨p,shape,⟨nonempty,_,_⟩,_⟩ := cut.shape
    rw [items] at shape
    exact absurd (List.append_eq_nil_iff.mp shape.symm).2 nonempty
  | cons first rest =>
    have pass := (grown_thisBB (Builder.start bb isEntry) first.address).trans
      (@grown_findBlocks ws (first :: rest) ((Builder.start bb isEntry).thisBB first.address))
    have announced : Announced ws seg bb
        ⟨Builder.findBlocks ws (first :: rest) ((Builder.start bb isEntry).thisBB first.address),none,true,[]⟩ := by
      refine ⟨fun a => ?_,pass.size,pass.edges,pass.info,rfl,rfl⟩
      have head : (first :: rest).head?.map Inst.address = some a ↔ a = first.address := by simp [eq_comm]
      rw [pass.bb,Starts,items,head]
      simp only [List.not_mem_nil,false_and,exists_false,or_false]
      rfl
    have walked := walked_linkBlocks announced cut [] (by simp)
    have built := built_closeLast cut walked
    rw [items] at built
    rw [linkCFG,items]
    exact built

theorem split_unique {p q p' q' : List Inst} {x x' : Inst} (split : seg.items = p ++ x :: q)
    (split' : seg.items = p' ++ x' :: q') (same : x.address = x'.address) : p = p' ∧ x = x' ∧ q = q' := by
  rcases List.append_eq_append_iff.mp (split.symm.trans split') with ⟨r,rfl,tail⟩ | ⟨r,rfl,tail⟩
  · cases r with
    | nil =>
      obtain ⟨rfl,rfl⟩ := List.cons.inj tail
      exact ⟨by simp,rfl,rfl⟩
    | cons y r =>
      obtain ⟨rfl,_⟩ := List.cons.inj tail
      have parted : seg.items = (p ++ x :: r) ++ [x'] ++ q' := by rw [split']; simp
      have less := (address_lt parted (i := x) (j := x') (by simp) (by simp)).2
      omega
  · cases r with
    | nil =>
      obtain ⟨rfl,rfl⟩ := List.cons.inj tail
      exact ⟨by simp,rfl,rfl⟩
    | cons y r =>
      obtain ⟨rfl,_⟩ := List.cons.inj tail
      have parted : seg.items = (p' ++ x' :: r) ++ [x] ++ q := by rw [split]; simp
      have less := (address_lt parted (i := x') (j := x) (by simp) (by simp)).2
      omega

/-- Where a chunk lies: between the instructions before it and those that it is cut by. -/
structure Located (ws : WorkSpace) (seg : Segment) (bb : Nat → Bool) (closed : List (List Inst × Nat)) (chunk : List Inst)
    (p c q : List Inst) (n : Nat) : Prop where
  split : seg.items = p ++ c ++ q
  part : Chunk ws seg bb p c
  next : (c,n) ∈ closed ∧ start? q = some n ∨ n = seg.topAddress ∧ q = []

theorem Cut.located {closed : List (List Inst × Nat)} {chunk : List Inst} (cut : Cut ws seg bb seg.items closed chunk)
    {c : List Inst} {n : Nat} (mem : (c,n) ∈ closed ++ [(chunk,seg.topAddress)]) :
    ∃ p q, Located ws seg bb closed chunk p c q n := by
  obtain ⟨p,split,part,parts⟩ := cut.shape
  rcases List.mem_append.mp mem with mem | mem
  · obtain ⟨u,v,whole,next,closedPart⟩ := parts c n mem
    exact ⟨u,v ++ chunk,by rw [split,whole]; simp,closedPart,.inl ⟨mem,next⟩⟩
  · obtain ⟨rfl,rfl⟩ := Prod.mk.inj (List.mem_singleton.mp mem)
    exact ⟨p,[],by rw [split]; simp,part,.inr ⟨rfl,rfl⟩⟩

theorem Cut.lt_top {closed : List (List Inst × Nat)} {chunk : List Inst} (cut : Cut ws seg bb seg.items closed chunk)
    {c : List Inst} {n : Nat} (isClosed : (c,n) ∈ closed) : n < seg.topAddress := by
  obtain ⟨p,split,_,parts⟩ := cut.shape
  obtain ⟨u,v,whole,next,_⟩ := parts c n isClosed
  obtain ⟨z,zs,rest,rfl⟩ : ∃ z zs, v ++ chunk = z :: zs ∧ z.address = n := by
    cases rest : v ++ chunk with
    | nil => rw [rest] at next; cases next
    | cons z zs =>
      rw [rest] at next
      exact ⟨z,zs,rfl,Option.some.inj next⟩
  have mem : z ∈ seg.items := by
    rw [split,whole,List.append_assoc,rest]
    simp
  have top := seg.below_top z mem
  have positive := seg.size_pos z mem
  unfold Inst.topAddress at top
  omega

theorem Cut.mem_chunk {closed : List (List Inst × Nat)} {chunk : List Inst} (cut : Cut ws seg bb seg.items closed chunk)
    {x : Inst} (mem : x ∈ seg.items) : ∃ c n, (c,n) ∈ closed ++ [(chunk,seg.topAddress)] ∧ x ∈ c := by
  rcases cut.cover x mem with here | ⟨c,n,there,inside⟩
  · exact ⟨chunk,seg.topAddress,by simp,here⟩
  · exact ⟨c,n,List.mem_append_left _ there,inside⟩

section
variable {closed : List (List Inst × Nat)} {chunk p c q : List Inst} {n : Nat}
  (located : Located ws seg bb closed chunk p c q n)
include located

theorem topAddress_le_next {e : Inst} (mem : e ∈ c) : e.topAddress ≤ n := by
  rcases located.next with ⟨_,next⟩ | ⟨rfl,_⟩
  · cases q with
    | nil => cases next
    | cons z zs =>
      cases next
      have parted : seg.items = (p ++ c) ++ (z :: zs) ++ [] := by rw [located.split]; simp
      exact (address_lt parted (List.mem_append_right _ mem) (List.mem_cons_self ..)).1
  · exact seg.below_top e (by rw [located.split]; simp [mem])

theorem next_le_address {z : Inst} (mem : z ∈ q) : n ≤ z.address := by
  rcases located.next with ⟨_,next⟩ | ⟨_,rfl⟩
  · cases q with
    | nil => cases mem
    | cons y ys =>
      cases next
      rcases List.mem_cons.mp mem with rfl | mem
      · exact Nat.le_refl _
      · have parted : seg.items = (p ++ c ++ [y]) ++ ys ++ [] := by rw [located.split]; simp
        exact Nat.le_of_lt (address_lt parted (i := y) (by simp) mem).2
  · cases mem

theorem blockEnd_le : ws.blockEnd c n ≤ n := by
  unfold WorkSpace.blockEnd
  cases end_ : ws.lastEnd c with
  | none => simp
  | some e => exact topAddress_le_next located (lastEnd_mem end_).1

theorem start_least {a : Nat} (here : start? c = some a) : (∀ e ∈ c, a ≤ e.address) ∧ a ≤ ws.blockEnd c n := by
  cases c with
  | nil => cases here
  | cons y ys =>
    cases here
    have least : ∀ e ∈ y :: ys, y.address ≤ e.address := by
      intro e mem
      rcases List.mem_cons.mp mem with rfl | mem
      · exact Nat.le_refl _
      · have parted : seg.items = (p ++ [y]) ++ ys ++ q := by rw [located.split]; simp
        exact Nat.le_of_lt (address_lt parted (i := y) (by simp) mem).2
    refine ⟨least,?_⟩
    unfold WorkSpace.blockEnd
    cases end_ : ws.lastEnd (y :: ys) with
    | none =>
      have top := topAddress_le_next located (List.mem_cons_self (a := y))
      simp only [Option.map_none,Option.getD_none]
      unfold Inst.topAddress at top
      omega
    | some e =>
      have low := least e (lastEnd_mem end_).1
      simp only [Option.map_some,Option.getD_some]
      unfold Inst.topAddress
      omega

theorem inside_block {a : Nat} (here : start? c = some a) : seg.inside a (ws.blockEnd c n) =
    c.filter fun j => decide (j.address < ws.blockEnd c n) := by
  obtain ⟨least,_⟩ := start_least located here
  have before : p.filter (fun i => decide (a ≤ i.address) && decide (i.address < ws.blockEnd c n)) = [] := by
    rw [List.filter_eq_nil_iff]
    intro e mem
    cases c with
    | nil => cases here
    | cons y ys =>
      cases here
      have less := (address_lt (q := y :: ys) located.split mem (List.mem_cons_self ..)).2
      simp only [Bool.and_eq_true,decide_eq_true_eq,not_and]
      omega
  have after : q.filter (fun i => decide (a ≤ i.address) && decide (i.address < ws.blockEnd c n)) = [] := by
    rw [List.filter_eq_nil_iff]
    intro e mem
    have low := next_le_address located mem
    have high := blockEnd_le located
    simp only [Bool.and_eq_true,decide_eq_true_eq,not_and]
    omega
  rw [Segment.inside,located.split,List.filter_append,List.filter_append,before,after,List.nil_append,List.append_nil]
  refine List.filter_congr fun e mem => ?_
  simp [least e mem]

theorem active_last {i : Inst} (mem : i ∈ c) (active : i.active = true) :
    ∃ u, c = u ++ [i] ∧ seg.items = (p ++ u) ++ i :: q := by
  obtain ⟨u,v,rfl⟩ := List.append_of_mem mem
  cases v with
  | nil => exact ⟨u,rfl,by rw [located.split]; simp⟩
  | cons y v =>
    have split : u ++ i :: y :: v = (u ++ [i]) ++ y :: v := by simp
    refine absurd ?_ (located.part.inner (u ++ [i]) y v split (by simp))
    exact .inr (.inr (.inl ⟨p ++ u,i,y,v ++ q,by rw [located.split]; simp,active,rfl⟩))

end

theorem chunk_of_active {u : List Inst} {i : Inst} (active : i.active = true) :
    ws.lastEnd (u ++ [i]) = some i ∧ (∀ n, ws.blockEnd (u ++ [i]) n = i.topAddress) ∧
      ws.followAfter (u ++ [i]) = (!ws.returns i && ws.follows i) := by
  have ends : ws.ends i = true := by simp [WorkSpace.ends,active]
  have last : ws.lastEnd (u ++ [i]) = some i := by rw [lastEnd_append,if_pos ends]
  refine ⟨last,fun n => ?_,?_⟩
  · rw [WorkSpace.blockEnd,last]; rfl
  · rw [followAfter_append,if_pos ends]

end

section
variable {ws : WorkSpace} {seg : Segment} {bb : Nat → Bool} {closed : List (List Inst × Nat)} {chunk : List Inst} {g : Graph}
  (cut : Cut ws seg bb seg.items closed chunk) (built : Built ws seg closed chunk g)
include cut built

theorem block_of_chunk {c : List Inst} {n a : Nat} (inChunks : (c,n) ∈ closed ++ [(chunk,seg.topAddress)])
    (here : start? c = some a) : ∃ p q, Located ws seg bb closed chunk p c q n ∧ a+g.size a = ws.blockEnd c n ∧
      seg.inside a (a+g.size a) = c.filter fun j => decide (j.address < ws.blockEnd c n) := by
  obtain ⟨p,q,located⟩ := cut.located inChunks
  have low := (start_least located here).2
  have sum : a+g.size a = ws.blockEnd c n := by
    rw [built.size c n a inChunks here]
    omega
  exact ⟨p,q,located,sum,by rw [sum]; exact inside_block located here⟩

theorem block_of_info {a : Nat} (mem : a ∈ g.info) : ∃ p c q n, (c,n) ∈ closed ++ [(chunk,seg.topAddress)] ∧
    start? c = some a ∧ Located ws seg bb closed chunk p c q n ∧ a+g.size a = ws.blockEnd c n ∧
    seg.inside a (a+g.size a) = c.filter fun j => decide (j.address < ws.blockEnd c n) := by
  obtain ⟨c,n,inChunks,here⟩ := (built.info a).mp mem
  obtain ⟨p,q,located,sum,inside⟩ := block_of_chunk cut built inChunks here
  exact ⟨p,c,q,n,inChunks,here,located,sum,inside⟩

theorem info_iff_starts {p q : List Inst} {x : Inst} (split : seg.items = p ++ x :: q) :
    x.address ∈ g.info ↔ Starts ws seg bb p x.address := by
  constructor
  · intro mem
    obtain ⟨u,c,v,n,_,here,located,_⟩ := block_of_info cut built mem
    cases c with
    | nil => cases here
    | cons y ys =>
      have whole : seg.items = u ++ y :: (ys ++ v) := by rw [located.split]; simp
      obtain ⟨rfl,rfl,_⟩ := split_unique split whole (Option.some.inj here).symm
      exact located.part.starts x ys rfl
  · intro starts
    obtain ⟨c,n,inChunks,inside⟩ := cut.mem_chunk (x := x) (by rw [split]; simp)
    obtain ⟨u,v,located⟩ := cut.located inChunks
    obtain ⟨w,z,rfl⟩ := List.append_of_mem inside
    have whole : seg.items = (u ++ w) ++ x :: (z ++ v) := by rw [located.split]; simp
    obtain ⟨rfl,_,_⟩ := split_unique split whole rfl
    by_cases first : w = []
    · subst first
      exact (built.info _).mpr ⟨_,n,inChunks,rfl⟩
    · exact absurd starts (located.part.inner w x z rfl first)

theorem right_of_regular (regular : Regular ws seg bb) : Right ws seg g := by
  refine ⟨?_,?_,?_,?_⟩
  · rintro i mem active t known ⟨x,inSeg,rfl⟩
    obtain ⟨p,q,split⟩ := List.append_of_mem inSeg
    exact (info_iff_starts cut built split).mpr (regular.targets p x q split ⟨i,mem,active,known⟩)
  · intro a inInfo i inBlock active
    obtain ⟨p,c,q,n,_,_,located,sum,inside⟩ := block_of_info cut built inInfo
    rw [inside] at inBlock
    obtain ⟨u,rfl,_⟩ := active_last located (List.mem_of_mem_filter inBlock) active
    rw [sum,(chunk_of_active active).2.1]
  · intro a inInfo
    obtain ⟨p,c,q,n,inChunks,here,_,sum,inside⟩ := block_of_info cut built inInfo
    rw [inside,sum]
    cases c with
    | nil => cases here
    | cons y ys =>
      cases here
      exact regular.solid closed chunk cut y ys n inChunks
  · intro i mem active t successor
    obtain ⟨c,n,inChunks,inChunk⟩ := cut.mem_chunk mem
    obtain ⟨p,q,located⟩ := cut.located inChunks
    obtain ⟨u,rfl,split⟩ := active_last located inChunk active
    obtain ⟨_,blockEnd,follow⟩ := @chunk_of_active ws u i active
    obtain ⟨a,here⟩ : ∃ a, start? (u ++ [i]) = some a := by
      cases u with
      | nil => exact ⟨_,rfl⟩
      | cons y ys => exact ⟨_,rfl⟩
    have inInfo : a ∈ g.info := (built.info a).mpr ⟨_,n,inChunks,here⟩
    have low := (start_least located here).2
    have positive := seg.size_pos i mem
    refine ⟨a,inInfo,?_,?_⟩
    · have sum : a+g.size a = ws.blockEnd (u ++ [i]) n := by
        rw [built.size _ n a inChunks here]
        omega
      rw [sum,inside_block located here,blockEnd]
      refine List.mem_filter.mpr ⟨inChunk,?_⟩
      simp only [decide_eq_true_eq]
      unfold Inst.topAddress
      omega
    · obtain ⟨goes,⟨kind,linked⟩ | ⟨follows,next⟩⟩ := regular.successors _ i q split active t successor
      · exact ⟨kind,(built.edges a t kind).mpr (.inl ⟨_,n,inChunks,here,i,inChunk,active,goes,linked⟩)⟩
      · refine ⟨.notTaken,(built.edges a t _).mpr (.inr ?_)⟩
        rcases located.next with ⟨isClosed,start⟩ | ⟨_,rfl⟩
        · exact ⟨_,n,isClosed,here,Option.some.inj (next.symm.trans start),rfl,by simp [follow,goes,follows]⟩
        · cases next

theorem targets_of_right (right : Right ws seg g) {p q : List Inst} {x : Inst} (split : seg.items = p ++ x :: q)
    (isTarget : ∃ i ∈ seg.items, i.active = true ∧ x.address ∈ ws.targets i) : Starts ws seg bb p x.address := by
  obtain ⟨i,mem,active,known⟩ := isTarget
  have has : seg.Has x.address := ⟨x,by rw [split]; simp,rfl⟩
  exact (info_iff_starts cut built split).mp (right.targets i mem active _ known has)

theorem solid_of_right (right : Right ws seg g) {i : Inst} {is : List Inst} {next : Nat}
    (inChunks : (i :: is,next) ∈ closed ++ [(chunk,seg.topAddress)]) :
    Tiles i.address ((i :: is).filter fun j => decide (j.address < ws.blockEnd (i :: is) next))
      (ws.blockEnd (i :: is) next) := by
  have here : start? (i :: is) = some i.address := rfl
  have inInfo : i.address ∈ g.info := (built.info _).mpr ⟨_,next,inChunks,here⟩
  obtain ⟨p,q,_,sum,inside⟩ := block_of_chunk cut built inChunks here
  have tiles := right.contiguous i.address inInfo
  rw [inside,sum] at tiles
  exact tiles

theorem successors_of_right (right : Right ws seg g) {p q : List Inst} {i : Inst} (split : seg.items = p ++ i :: q)
    (active : i.active = true) {t : Nat} (successor : seg.Successor ws i t) :
    ws.returns i = false ∧ ((∃ kind, (t,kind) ∈ ws.linked i) ∨
      ws.follows i = true ∧ q.head?.map Inst.address = some t) := by
  have mem : i ∈ seg.items := by rw [split]; simp
  obtain ⟨a,inInfo,inBlock,kind,edge⟩ := right.edges i mem active t successor
  -- the chunk that the edge comes from is the one of the block
  have own : ∀ c n, (c,n) ∈ closed ++ [(chunk,seg.topAddress)] → start? c = some a →
      ∃ p' u q', c = u ++ [i] ∧ Located ws seg bb closed chunk p' c q' n ∧ q = q' := by
    intro c n inChunks here
    obtain ⟨p',q',located,_,inside⟩ := block_of_chunk cut built inChunks here
    rw [inside] at inBlock
    obtain ⟨u,rfl,split'⟩ := active_last located (List.mem_of_mem_filter inBlock) active
    exact ⟨p',u,q',rfl,located,(split_unique split split' rfl).2.2⟩
  rcases (built.edges a t kind).mp edge with ⟨c,n,inChunks,here,j,inChunk,activeJ,goes,linked⟩ |
    ⟨c,n,isClosed,here,rfl,_,follow⟩
  · obtain ⟨p',u,q',rfl,located,_⟩ := own c n inChunks here
    obtain ⟨u',same,_⟩ := active_last located inChunk activeJ
    obtain rfl : i = j := by simpa using (List.append_inj' same rfl).2
    exact ⟨goes,.inl ⟨kind,linked⟩⟩
  · obtain ⟨p',u,q',rfl,located,rfl⟩ := own c t (List.mem_append_left _ isClosed) here
    rw [(chunk_of_active active).2.2,Bool.and_eq_true,Bool.not_eq_true'] at follow
    refine ⟨follow.1,.inr ⟨follow.2,?_⟩⟩
    rcases located.next with ⟨_,start⟩ | ⟨top,_⟩
    · exact start
    · exact absurd top (Nat.ne_of_lt (cut.lt_top isClosed))

end

section
variable {ws : WorkSpace} {seg : Segment} {bb : Nat → Bool}

theorem right_iff_of_empty (empty : seg.items = []) (isEntry : Nat → Bool) :
    Right ws seg (linkCFG ws seg bb isEntry) ↔ Regular ws seg bb := by
  have nothing : (linkCFG ws seg bb isEntry).info = [] := by rw [linkCFG,empty]; rfl
  constructor
  · intro _
    refine ⟨fun p x q split => ?_,fun closed chunk cut => ?_,fun p i q split => ?_⟩
    · rw [empty] at split; simp at split
    · obtain ⟨p,split,part,_⟩ := cut.shape
      rw [empty] at split
      exact absurd (List.append_eq_nil_iff.mp split.symm).2 part.nonempty
    · rw [empty] at split; simp at split
  · intro _
    exact ⟨by simp [empty],by simp [nothing],by simp [nothing],by simp [empty]⟩

private theorem linkCFG_right_iff (ws : WorkSpace) (seg : Segment) (bb isEntry : Nat → Bool) :
    Right ws seg (linkCFG ws seg bb isEntry) ↔ Regular ws seg bb := by
  by_cases empty : seg.items = []
  · exact right_iff_of_empty empty isEntry
  · obtain ⟨closed,chunk,cut⟩ := @Cut.exists ws seg bb _ empty [] (List.append_nil _).symm
    constructor
    · intro right
      refine ⟨fun p x q split => targets_of_right cut (built_linkCFG isEntry cut) right split,?_,?_⟩
      · intro closed' chunk' cut' i is next inChunks
        exact solid_of_right cut' (built_linkCFG isEntry cut') right inChunks
      · intro p i q split active t successor
        exact successors_of_right cut (built_linkCFG isEntry cut) right split active successor
    · intro regular
      exact right_of_regular cut (built_linkCFG isEntry cut) regular

end

/-- An instruction of four bytes that is not annotated. -/
def plain (address : Nat) (isControl isReturn : Bool) : Inst :=
  ⟨address,4,isControl,false,isReturn,false,none,[],[],false,false,false⟩

/-- A loop that ends on an indirect branch, which is annotated with the head of the loop. -/
def indirectLoop : Segment where
  items := [plain 0 false false,plain 4 false false,{ plain 8 true false with branchTarget := [4] },plain 12 true true]
  topAddress := 16
  size_pos := by decide
  sorted := by decide
  below_top := by decide

end Otawa.CFGBuilder
