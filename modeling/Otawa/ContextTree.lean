import Otawa.ProgramPaths
import Mathlib.Data.List.Perm.Basic
import Mathlib.Data.List.Flatten

/-!
`ContextTree`: the functions of a program in their contexts of calls and the loops of
each. The constructor for a CFG makes the tree of each loop as a child of the function,
and then gives each loop and each block to the tree of its enclosing loop, while
the calls of the blocks are inlined. The trees are numbered in the order in which they
are made.
-/
namespace Otawa.ContextTree
open Otawa.Cfg Otawa.Cat2

/-- `ContextTree::kind_t`. -/
inductive Kind
  | root | function | loop
  deriving DecidableEq

/-- A `ContextTree`; other trees are given by their numbers. -/
structure Node (p : Program) where
  kind : Kind
  bb : p.Block
  cfg : Fin p.cfgs
  bbs : List p.Block
  children : List Nat
  parent : Option Nat

/-- The trees that are made, numbered up to `count`, and `OWNER_CONTEXT_TREE`. -/
structure Memory (p : Program) where
  count : Nat
  node : Nat → Node p
  owner : p.Block → Option Nat

namespace Memory
variable {p : Program} (m : Memory p)

/-- `new`: the tree gets the number `count`. -/
def alloc (node : Node p) : Memory p := {m with count := m.count + 1, node := Function.update m.node m.count node}

def modify (ct : Nat) (change : Node p → Node p) : Memory p :=
  {m with node := Function.update m.node ct (change (m.node ct))}

def setOwner (bb : p.Block) (ct : Nat) : Memory p := {m with owner := Function.update m.owner bb (some ct)}

def addChild (ct child : Nat) : Memory p :=
  let added := m.modify ct fun node => {node with children := node.children ++ [child]}
  if (added.node child).kind = .root then added.modify child fun node => {node with kind := .function} else added

/-- The trees from one on by `parent()`. -/
def up : Nat → Nat → List Nat
  | 0, _ => []
  | fuel + 1, ct =>
    ct :: match (m.node ct).parent with
      | some parent => up fuel parent
      | none => []

/-- The loop `for(cur = this; cur; cur = cur->parent())`; a parent is made before its
    children. -/
def path (ct : Nat) : List Nat := m.up (ct + 1) ct

def recursive (ct : Nat) (called : Fin p.cfgs) : Bool :=
  (m.path ct).any fun cur => (m.node cur).kind ≠ .loop ∧ called = (m.node cur).cfg

/-- `enclosingFunction`; its assertion fails when there is none. -/
def enclosingFunction (ct : Nat) : Option Nat := (m.path ct).find? fun cur => (m.node cur).kind ≠ .loop

end Memory

section
variable {p : Program} (isCall : p.Block → Bool)

def called (bb : p.Block) : List (Fin p.cfgs) :=
  ((p.cfg bb.1).outs bb.2).filterMap fun edge =>
    if (p.cfg bb.1).kind edge = .call then p.calledCFG bb.1 edge else none

variable (build : Fin p.cfgs → Option Nat → Bool → Memory p → Option (Memory p × Nat))

/-- The loop over the call edges in `addBB`, which returns at a recursive call. -/
def inlineCalls (ct : Nat) : List (Fin p.cfgs) → Memory p → Option (Memory p)
  | [], m => some m
  | cfg :: rest, m =>
    if m.recursive ct cfg then some m
    else do
      let function ← m.enclosingFunction ct
      let (m,child) ← build cfg (some function) true m
      inlineCalls ct rest (m.addChild ct child)

def addBB (ct : Nat) (bb : p.Block) (inlined : Bool) (m : Memory p) : Option (Memory p) :=
  let added := m.modify ct fun node => {node with bbs := node.bbs ++ [bb]}
  if inlined && isCall bb then inlineCalls build ct (called bb) added else some added

def makeLoop (ct : Nat) (inlined : Bool) (m : Memory p) (bb : p.Block) : Option (Memory p) :=
  if p.loopHeader bb then
    addBB isCall build m.count bb inlined ((m.alloc ⟨.loop,bb,bb.1,[],[],some ct⟩).setOwner bb m.count)
  else some m

def link (ct : Nat) (inlined : Bool) (m : Memory p) (bb : p.Block) : Option (Memory p) := do
  if p.loopHeader bb then
    let loop ← m.owner bb
    match p.enclosing bb with
    | none => some (m.addChild ct loop)
    | some header => do
      let outer ← m.owner header
      some (m.addChild outer loop)
  else
    match p.enclosing bb with
    | none => (addBB isCall build ct bb inlined m).map fun m => m.setOwner bb ct
    | some header => do
      let parent ← m.owner header
      (addBB isCall build parent bb inlined m).map fun m => m.setOwner bb parent

end

section
variable (p : Program) (isCall : p.Block → Bool)

/-- `BBIterator(cfg)`. -/
def blocks (cfg : Fin p.cfgs) : List p.Block := (p.cfg cfg).blocks.map fun bb => ⟨cfg,bb⟩

/-- The constructor for a CFG, with at most `fuel` calls in one another. -/
def construct : Nat → Fin p.cfgs → Option Nat → Bool → Memory p → Option (Memory p × Nat)
  | 0, _, _, _, _ => none
  | fuel + 1, cfg, parent, inlined, m => do
    let ct := m.count
    let made ← (blocks p cfg).foldlM (makeLoop isCall (construct fuel) ct inlined)
      (m.alloc ⟨.root,p.entry cfg,cfg,[],[],parent⟩)
    let linked ← (blocks p cfg).foldlM (link isCall (construct fuel) ct inlined) made
    some (linked,ct)

def start : Memory p := ⟨0,fun _ => ⟨.root,p.entry p.entryCFG,p.entryCFG,[],[],none⟩,fun _ => none⟩

/-- `ContextTreeBuilder::processWorkSpace`. -/
def contextTree (fuel : Nat) : Option (Memory p × Nat) := construct p isCall fuel p.entryCFG none true (start p)

end

namespace Memory
variable {p : Program} (m : Memory p)

def isLoop (ct : Nat) : Bool := (m.node ct).kind = .loop

/-- The CFGs of the functions from a tree on by `parent()`. -/
def context (ct : Nat) : List (Fin p.cfgs) :=
  ((m.path ct).filter fun cur => !m.isLoop cur).map fun cur => (m.node cur).cfg

/-- A parent is made before its children, and the parent of a loop is a function. -/
structure Ordered : Prop where
  parent : ∀ i < m.count, ∀ j, (m.node i).parent = some j → j < i
  loop : ∀ i < m.count, m.isLoop i = true → ∃ j, (m.node i).parent = some j ∧ m.isLoop j = false

variable {m} {m' : Memory p} {i j : Nat}

theorem up_eq (ordered : m.Ordered) (made : i < m.count) {fuel : Nat} (enough : i < fuel) : m.up fuel i = m.path i := by
  suffices all : ∀ fuel fuel' : Nat, i < fuel → i < fuel' → m.up fuel i = m.up fuel' i from
    all fuel (i + 1) enough (Nat.lt_succ_self i)
  induction i using Nat.strongRecOn with
  | ind i ih =>
    intro fuel fuel' less less'
    obtain ⟨fuel,rfl⟩ := Nat.exists_eq_succ_of_ne_zero (Nat.ne_of_gt (Nat.zero_lt_of_lt less))
    obtain ⟨fuel',rfl⟩ := Nat.exists_eq_succ_of_ne_zero (Nat.ne_of_gt (Nat.zero_lt_of_lt less'))
    cases above : (m.node i).parent with
    | none => simp only [up,above]
    | some j =>
      have smaller := ordered.parent i made j above
      simp only [up,above,List.cons.injEq,true_and]
      exact ih j smaller (smaller.trans made) (by omega) fuel fuel' (by omega) (by omega)

theorem path_root (root : (m.node i).parent = none) : m.path i = [i] := by simp [path,up,root]

theorem path_child (ordered : m.Ordered) (made : i < m.count) (above : (m.node i).parent = some j) :
    m.path i = i :: m.path j := by
  have smaller := ordered.parent i made j above
  have rest := up_eq ordered (smaller.trans made) smaller
  simp only [path,up,above] at rest ⊢
  rw [rest]

theorem context_root (function : m.isLoop i = false) (root : (m.node i).parent = none) :
    m.context i = [(m.node i).cfg] := by
  simp [context,path_root root,function]

theorem context_function (ordered : m.Ordered) (made : i < m.count) (function : m.isLoop i = false)
    (above : (m.node i).parent = some j) : m.context i = (m.node i).cfg :: m.context j := by
  simp [context,path_child ordered made above,function]

theorem context_loop (ordered : m.Ordered) (made : i < m.count) (loop : m.isLoop i = true)
    (above : (m.node i).parent = some j) : m.context i = m.context j := by
  simp [context,path_child ordered made above,loop]

theorem recursive_iff {called : Fin p.cfgs} : m.recursive i called = true ↔ called ∈ m.context i := by
  simp only [recursive,context,isLoop,List.any_eq_true,decide_eq_true_eq,List.mem_map,List.mem_filter]
  constructor
  · rintro ⟨cur,listed,function,rfl⟩
    exact ⟨cur,⟨listed,by simpa using function⟩,rfl⟩
  · rintro ⟨cur,⟨listed,function⟩,rfl⟩
    exact ⟨cur,listed,by simpa using function,rfl⟩

theorem enclosingFunction_function (function : m.isLoop i = false) : m.enclosingFunction i = some i := by
  have kind : (m.node i).kind ≠ .loop := by simpa [isLoop] using function
  simp [enclosingFunction,path,up,kind]

theorem enclosingFunction_loop (ordered : m.Ordered) (made : i < m.count) (loop : m.isLoop i = true)
    (above : (m.node i).parent = some j) : m.enclosingFunction i = some j := by
  obtain ⟨k,parent,function⟩ := ordered.loop i made loop
  obtain rfl := Option.some.inj (above.symm.trans parent)
  have kind : (m.node i).kind = .loop := by simpa [isLoop] using loop
  have first := enclosingFunction_function function
  simp only [enclosingFunction] at first ⊢
  rw [path_child ordered made above]
  simpa [kind] using first

/-- The trees that were made keep all but their blocks and children; a root may become
    a function. -/
structure Keeps (m m' : Memory p) : Prop where
  count : m.count ≤ m'.count
  loop : ∀ i < m.count, m'.isLoop i = m.isLoop i
  function : ∀ i < m.count, (m.node i).kind = .function → (m'.node i).kind = .function
  bb : ∀ i < m.count, (m'.node i).bb = (m.node i).bb
  cfg : ∀ i < m.count, (m'.node i).cfg = (m.node i).cfg
  parent : ∀ i < m.count, (m'.node i).parent = (m.node i).parent

theorem Keeps.trans {m'' : Memory p} (one : Keeps m m') (two : Keeps m' m'') : Keeps m m'' where
  count := one.count.trans two.count
  loop := fun i old => (two.loop i (old.trans_le one.count)).trans (one.loop i old)
  function := fun i old known => two.function i (old.trans_le one.count) (one.function i old known)
  bb := fun i old => (two.bb i (old.trans_le one.count)).trans (one.bb i old)
  cfg := fun i old => (two.cfg i (old.trans_le one.count)).trans (one.cfg i old)
  parent := fun i old => (two.parent i (old.trans_le one.count)).trans (one.parent i old)

theorem Keeps.up_eq (keeps : Keeps m m') (ordered : m.Ordered) (old : i < m.count) (fuel : Nat) :
    m'.up fuel i = m.up fuel i ∧ ∀ j ∈ m.up fuel i, j < m.count := by
  induction fuel generalizing i with
  | zero => exact ⟨rfl,fun _ member => nomatch member⟩
  | succ fuel ih =>
    simp only [up,keeps.parent i old]
    cases above : (m.node i).parent with
    | none => exact ⟨rfl,fun j member => List.mem_singleton.mp member ▸ old⟩
    | some j =>
      obtain ⟨same,inside⟩ := ih ((ordered.parent i old j above).trans old)
      exact ⟨by simp only [same],List.forall_mem_cons.mpr ⟨old,inside⟩⟩

theorem Keeps.context_eq (keeps : Keeps m m') (ordered : m.Ordered) (old : i < m.count) : m'.context i = m.context i := by
  obtain ⟨same,inside⟩ := keeps.up_eq ordered old (i + 1)
  simp only [context,path,same]
  rw [List.filter_congr (q := fun cur => !m.isLoop cur) fun j member => by rw [keeps.loop j (inside j member)]]
  exact List.map_congr_left fun j member => keeps.cfg j (inside j (List.mem_of_mem_filter member))

/-- The tree of a loop of a function by its header, or the one of the function itself. -/
def Slot (m : Memory p) (w : Nat) : Option p.Block → Nat → Prop
  | none, i => i = w
  | some h, i => i < m.count ∧ m.isLoop i = true ∧ (m.node i).parent = some w ∧ (m.node i).bb = h

/-- The blocks and the children of a tree of a function. Its loops are the ones of the
    given headers, and the functions are the ones called by its blocks. -/
structure Filled (m : Memory p) (w : Nat) (inlined : p.Block → List (Fin p.cfgs)) (own headers : List p.Block)
    (node : Node p) : Prop where
  bbs : node.bbs = own
  loops : (node.children.filter m.isLoop).map (fun x => (m.node x).bb) = headers
  calls : (node.children.filter fun x => !m.isLoop x).map (fun x => (m.node x).cfg) = own.flatMap inlined
  parents : ∀ x ∈ node.children, x < m.count ∧ (m.node x).parent = some w
  functions : ∀ x ∈ node.children, m.isLoop x = false → (m.node x).kind = .function

theorem Keeps.filled (keeps : Keeps m m') {w : Nat} {inlined : p.Block → List (Fin p.cfgs)} {own headers : List p.Block}
    {node node' : Node p} (filled : Filled m w inlined own headers node) (sameBbs : node'.bbs = node.bbs)
    (sameChildren : node'.children = node.children) : Filled m' w inlined own headers node' := by
  have made : ∀ x ∈ node.children, x < m.count := fun x member => (filled.parents x member).1
  have same : node.children.filter m'.isLoop = node.children.filter m.isLoop :=
    List.filter_congr fun x member => keeps.loop x (made x member)
  have same' : (node.children.filter fun x => !m'.isLoop x) = node.children.filter fun x => !m.isLoop x :=
    List.filter_congr fun x member => by rw [keeps.loop x (made x member)]
  rw [← sameChildren] at made same same'
  refine ⟨sameBbs.trans filled.bbs,?_,?_,fun x member => ?_,fun x member function => ?_⟩
  · rw [← filled.loops,same,sameChildren]
    exact List.map_congr_left fun x member => keeps.bb x (made x (sameChildren ▸ List.mem_of_mem_filter member))
  · rw [← filled.calls,same',sameChildren]
    exact List.map_congr_left fun x member => keeps.cfg x (made x (sameChildren ▸ List.mem_of_mem_filter member))
  · obtain ⟨old,parent⟩ := filled.parents x (sameChildren ▸ member)
    exact ⟨old.trans_le keeps.count,(keeps.parent x old).trans parent⟩
  · have old := made x member
    refine keeps.function x old (filled.functions x (sameChildren ▸ member) ?_)
    rwa [keeps.loop x old] at function

end Memory

section
variable {p : Program} (isCall : p.Block → Bool)

def inlined (context : List (Fin p.cfgs)) (bb : p.Block) : List (Fin p.cfgs) :=
  if isCall bb then (called bb).takeWhile (· ∉ context) else []

def loopsIn (blocks : List p.Block) (k : Option p.Block) : List p.Block :=
  blocks.filter fun b => p.loopHeader b && decide (p.enclosing b = k)

def plainIn (blocks : List p.Block) (k : Option p.Block) : List p.Block :=
  blocks.filter fun b => !p.loopHeader b && decide (p.enclosing b = k)

/-- The trees of a function that is built. -/
structure Complete (m : Memory p) (w : Nat) : Prop where
  header : ∀ h i, m.Slot w (some h) i → p.loopHeader h = true ∧ h.1 = (m.node w).cfg
  loop : ∀ h, p.loopHeader h = true → h.1 = (m.node w).cfg → ∃! i, m.Slot w (some h) i
  filled : ∀ k i, m.Slot w k i →
    m.Filled w (inlined isCall (m.context w)) (k.toList ++ plainIn (blocks p (m.node w).cfg) k)
      (loopsIn (blocks p (m.node w).cfg) k) (m.node i)

/-- What is done while the function v is built: only trees of v change, the new trees
    of loops are in new functions or in v, and the new functions are built. -/
structure Inside (v : Nat) (m m' : Memory p) : Prop extends m.Keeps m' where
  contents : ∀ i < m.count, i ≠ v → (m.isLoop i = true → (m.node i).parent ≠ some v) →
    (m'.node i).bbs = (m.node i).bbs ∧ (m'.node i).children = (m.node i).children
  fresh : ∀ i, m.count ≤ i → i < m'.count → m'.isLoop i = true →
    ∃ j, (m'.node i).parent = some j ∧ (m.count ≤ j ∨ j = v)
  complete : ∀ i, m.count ≤ i → i < m'.count → m'.isLoop i = false → Complete isCall m' i

variable {isCall} {m m' m'' : Memory p} {v w : Nat}

theorem Complete.keep (complete : Complete isCall m w) (ordered : m.Ordered) (made : w < m.count) (keeps : m.Keeps m')
    (contents : ∀ k i, m.Slot w k i → (m'.node i).bbs = (m.node i).bbs ∧ (m'.node i).children = (m.node i).children)
    (fresh : ∀ i, m.count ≤ i → i < m'.count → m'.isLoop i = true → (m'.node i).parent ≠ some w) :
    Complete isCall m' w := by
  have slot (k : Option p.Block) (i : Nat) : m'.Slot w k i ↔ m.Slot w k i := by
    cases k with
    | none => exact Iff.rfl
    | some h =>
      constructor
      · rintro ⟨bound,loop,parent,bb⟩
        have old : i < m.count := by
          by_contra new
          exact fresh i (Nat.le_of_not_lt new) bound loop parent
        exact ⟨old,(keeps.loop i old).symm.trans loop,(keeps.parent i old).symm.trans parent,(keeps.bb i old).symm.trans bb⟩
      · rintro ⟨old,loop,parent,bb⟩
        exact ⟨old.trans_le keeps.count,(keeps.loop i old).trans loop,(keeps.parent i old).trans parent,
          (keeps.bb i old).trans bb⟩
  refine ⟨fun h i known => ?_,fun h header inside => ?_,fun k i known => ?_⟩
  · rw [keeps.cfg w made]
    exact complete.header h i ((slot (some h) i).mp known)
  · rw [keeps.cfg w made] at inside
    simpa only [slot] using complete.loop h header inside
  · rw [keeps.cfg w made,keeps.context_eq ordered made]
    obtain ⟨sameBbs,sameChildren⟩ := contents k i ((slot k i).mp known)
    exact keeps.filled (complete.filled k i ((slot k i).mp known)) sameBbs sameChildren

theorem Inside.refl (v : Nat) (m : Memory p) : Inside isCall v m m where
  count := Nat.le_refl _
  loop := fun _ _ => rfl
  function := fun _ _ => id
  bb := fun _ _ => rfl
  cfg := fun _ _ => rfl
  parent := fun _ _ => rfl
  contents := fun _ _ _ _ => ⟨rfl,rfl⟩
  fresh := fun _ new bound => absurd bound (Nat.not_lt.mpr new)
  complete := fun _ new bound => absurd bound (Nat.not_lt.mpr new)

theorem Inside.trans (one : Inside isCall v m m') (two : Inside isCall v m' m'') (ordered : m'.Ordered)
    (made : v < m.count) (plain : m.isLoop v = false) : Inside isCall v m m'' where
  toKeeps := one.toKeeps.trans two.toKeeps
  contents := by
    intro i old other outside
    have later : i < m'.count := old.trans_le one.count
    obtain ⟨bbs,children⟩ := one.contents i old other outside
    obtain ⟨bbs',children'⟩ := two.contents i later other fun loop => by
      rw [one.loop i old] at loop
      rw [one.parent i old]
      exact outside loop
    exact ⟨bbs'.trans bbs,children'.trans children⟩
  fresh := by
    intro i new bound loop
    by_cases later : i < m'.count
    · rw [two.parent i later]
      rw [two.loop i later] at loop
      exact one.fresh i new later loop
    · obtain ⟨j,parent,new⟩ := two.fresh i (Nat.le_of_not_lt later) bound loop
      exact ⟨j,parent,new.imp one.count.trans id⟩
  complete := by
    intro i new bound function
    by_cases later : i < m'.count
    · rw [two.loop i later] at function
      refine (one.complete i new later function).keep ordered later two.toKeeps (fun k j slot => ?_) fun j new' bound' loop parent => ?_
      · cases k with
        | none =>
          obtain rfl : j = i := slot
          exact two.contents j later (by omega) fun loop => by simp [function] at loop
        | some h =>
          obtain ⟨made',loop,parent,-⟩ := slot
          refine two.contents j made' ?_ fun _ above => ?_
          · rintro rfl
            rw [one.loop j made,plain] at loop
            cases loop
          · obtain rfl : i = v := Option.some.inj (parent.symm.trans above)
            omega
      · obtain ⟨k,above,new''⟩ := two.fresh j new' bound' loop
        obtain rfl : i = k := Option.some.inj (parent.symm.trans above)
        omega
    · exact two.complete i (Nat.le_of_not_lt later) bound function

end

end Otawa.ContextTree
