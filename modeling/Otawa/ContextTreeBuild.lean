import Otawa.ContextTree
import Otawa.Folds

/-!
What the constructor of `ContextTree` builds. While a function is built (`Building`),
each tree of its loops has the blocks and the loops linked so far and the functions
that its blocks call; a called function is built before the next step (`Grown`) and
changes nothing that was there. With fuel for the CFGs that are not in the context, the
constructor returns (`construct_spec`).
-/
namespace Otawa.ContextTree
open Otawa.Cfg Otawa.Cat2 Otawa.Folds

section
variable {p : Program} {isCall : p.Block → Bool} {m m' m'' : Memory p} {v w : Nat}

/-! ### Calls -/

namespace Memory
variable {ct child : Nat}

@[simp] theorem addChild_count : (m.addChild ct child).count = m.count := by
  simp only [addChild]
  split <;> rfl

@[simp] theorem addChild_owner : (m.addChild ct child).owner = m.owner := by
  simp only [addChild]
  split <;> rfl

theorem addChild_loop (loop : m.isLoop child = true) :
    m.addChild ct child = m.modify ct fun node => {node with children := node.children ++ [child]} := by
  have kind : (m.node child).kind = .loop := by simpa [isLoop] using loop
  simp only [addChild]
  rw [if_neg]
  simp only [modify,Function.update_apply]
  split
  case isTrue same => simp [← same,kind]
  case isFalse => simp [kind]

theorem addChild_function (other : child ≠ ct) (function : m.isLoop child = false) :
    (m.addChild ct child).node ct = {m.node ct with children := (m.node ct).children ++ [child]} ∧
      (m.addChild ct child).node child = {m.node child with kind := .function} ∧
      ∀ i, i ≠ ct → i ≠ child → (m.addChild ct child).node i = m.node i := by
  generalize result : m.addChild ct child = added
  simp only [addChild] at result
  split at result <;> subst result
  case isTrue => simp +contextual [modify,Function.update_of_ne,other,other.symm]
  case isFalse kind =>
    have same : (m.node child).kind = .function := by
      simp only [modify,Function.update_of_ne other] at kind
      cases known : (m.node child).kind with
      | root => exact absurd known kind
      | function => rfl
      | loop => simp [isLoop,known] at function
    refine ⟨by simp [modify],?_,fun i different _ => by simp [modify,different]⟩
    simp only [modify,Function.update_of_ne other]
    rw [← same]

theorem keeps_addChild (other : child ≠ ct) (function : m.isLoop child = false) : m.Keeps (m.addChild ct child) := by
  obtain ⟨here,there,elsewhere⟩ := addChild_function other function
  have all (i : Nat) : (m.addChild ct child).isLoop i = m.isLoop i ∧
      ((m.node i).kind = .function → ((m.addChild ct child).node i).kind = .function) ∧
      ((m.addChild ct child).node i).bb = (m.node i).bb ∧ ((m.addChild ct child).node i).cfg = (m.node i).cfg ∧
      ((m.addChild ct child).node i).parent = (m.node i).parent := by
    by_cases one : i = ct
    · subst one
      simp [isLoop,here]
    by_cases two : i = child
    · subst two
      rw [function]
      simp [isLoop,there]
    simp [isLoop,elsewhere i one two]
  exact
    { count := addChild_count.ge
      loop := fun i _ => (all i).1
      function := fun i _ => (all i).2.1
      bb := fun i _ => (all i).2.2.1
      cfg := fun i _ => (all i).2.2.2.1
      parent := fun i _ => (all i).2.2.2.2 }

theorem Keeps.ordered (keeps : m.Keeps m') (ordered : m.Ordered) (same : m'.count = m.count) : m'.Ordered where
  parent := by
    intro i made j above
    rw [same] at made
    exact ordered.parent i made j ((keeps.parent i made).symm.trans above)
  loop := by
    intro i made loop
    rw [same] at made
    obtain ⟨j,above,function⟩ := ordered.loop i made ((keeps.loop i made).symm.trans loop)
    have smaller := ordered.parent i made j above
    exact ⟨j,(keeps.parent i made).trans above,(keeps.loop j (smaller.trans made)).trans function⟩

theorem keeps_alloc (ordered : m.Ordered) (count : m'.count = m.count + 1) (before : ∀ i < m.count, m'.node i = m.node i)
    (parent : ∀ j, (m'.node m.count).parent = some j → j < m.count)
    (loop : m'.isLoop m.count = true → ∃ j, (m'.node m.count).parent = some j ∧ m.isLoop j = false) :
    m.Keeps m' ∧ m'.Ordered := by
  have keeps : m.Keeps m' :=
    { count := by omega
      loop := fun i old => by simp only [isLoop,before i old]
      function := fun i old => by simp only [before i old,imp_self]
      bb := fun i old => by rw [before i old]
      cfg := fun i old => by rw [before i old]
      parent := fun i old => by rw [before i old] }
  refine ⟨keeps,fun i made j above => ?_,fun i made known => ?_⟩
  · by_cases old : i < m.count
    · rw [before i old] at above
      exact ordered.parent i old j above
    · obtain rfl : i = m.count := by omega
      exact parent j above
  · by_cases old : i < m.count
    · rw [keeps.loop i old] at known
      obtain ⟨j,above,function⟩ := ordered.loop i old known
      have smaller := (ordered.parent i old j above).trans old
      exact ⟨j,(keeps.parent i old).trans above,(keeps.loop j smaller).trans function⟩
    · obtain rfl : i = m.count := by omega
      obtain ⟨j,above,function⟩ := loop known
      exact ⟨j,above,(keeps.loop j (parent j above)).trans function⟩

end Memory

variable (isCall) in
structure Constructed (m : Memory p) (callee : Fin p.cfgs) (caller : Option Nat) (m' : Memory p) : Prop
    extends m.Keeps m' where
  made : m.count < m'.count
  contents : ∀ i < m.count, (m'.node i).bbs = (m.node i).bbs ∧ (m'.node i).children = (m.node i).children
  fresh : ∀ i, m.count ≤ i → i < m'.count → m'.isLoop i = true → ∃ j, (m'.node i).parent = some j ∧ m.count ≤ j
  complete : ∀ i, m.count ≤ i → i < m'.count → m'.isLoop i = false → Complete isCall m' i
  owner : ∀ b : p.Block, b.1 ∈ caller.elim [] m.context → m'.owner b = m.owner b
  root : m'.isLoop m.count = false ∧ (m'.node m.count).cfg = callee ∧ (m'.node m.count).parent = caller
  ordered : m'.Ordered

variable (isCall) in
/-- A tree of the function v has got blocks and called functions. -/
structure Grown (v ct : Nat) (m : Memory p) (bbs : List p.Block) (cfgs : List (Fin p.cfgs)) (m' : Memory p) : Prop
    extends Inside isCall v m m' where
  others : ∀ i < m.count, i ≠ ct → (m'.node i).bbs = (m.node i).bbs ∧ (m'.node i).children = (m.node i).children
  owner : ∀ b : p.Block, b.1 ∈ m.context v → m'.owner b = m.owner b
  bbs : (m'.node ct).bbs = (m.node ct).bbs ++ bbs
  children : ∃ new, (m'.node ct).children = (m.node ct).children ++ new ∧ new.map (fun x => (m'.node x).cfg) = cfgs ∧
    ∀ x ∈ new, x < m'.count ∧ (m'.node x).parent = some v ∧ (m'.node x).kind = .function
  noLoop : ∀ i, m.count ≤ i → i < m'.count → m'.isLoop i = true → ∃ j, (m'.node i).parent = some j ∧ m.count ≤ j
  ordered : m'.Ordered

/-- A tree is the one of a loop of the function v or v. -/
def Of (m : Memory p) (v ct : Nat) : Prop := ct < m.count ∧ ∃ k, m.Slot v k ct

theorem Of.eq_or (tree : Of m v w) : w = v ∨ m.isLoop w = true ∧ (m.node w).parent = some v := by
  obtain ⟨-,k,slot⟩ := tree
  cases k with
  | none => exact .inl slot
  | some h => exact .inr ⟨slot.2.1,slot.2.2.1⟩

theorem Of.keep (tree : Of m v w) (keeps : m.Keeps m') : Of m' v w := by
  obtain ⟨made,k,slot⟩ := tree
  refine ⟨made.trans_le keeps.count,k,?_⟩
  cases k with
  | none => exact slot
  | some h =>
    obtain ⟨-,loop,parent,bb⟩ := slot
    exact ⟨made.trans_le keeps.count,(keeps.loop w made).trans loop,(keeps.parent w made).trans parent,
      (keeps.bb w made).trans bb⟩

section Calls
variable {ct : Nat} (ordered : m.Ordered) (made : v < m.count) (plain : m.isLoop v = false) (tree : Of m v ct)

include ordered made plain tree

theorem Of.context_eq : m.context ct = m.context v := by
  rcases tree.eq_or with rfl | ⟨loop,parent⟩
  · rfl
  · exact Memory.context_loop ordered tree.1 loop parent

theorem Of.enclosingFunction_eq : m.enclosingFunction ct = some v := by
  rcases tree.eq_or with rfl | ⟨loop,parent⟩
  · exact Memory.enclosingFunction_function plain
  · exact Memory.enclosingFunction_loop ordered tree.1 loop parent

omit tree in
theorem Grown.trans {bbs bbs' : List p.Block} {cfgs cfgs' : List (Fin p.cfgs)} (one : Grown isCall v ct m bbs cfgs m')
    (two : Grown isCall v ct m' bbs' cfgs' m'') : Grown isCall v ct m (bbs ++ bbs') (cfgs ++ cfgs') m'' where
  toInside := one.toInside.trans two.toInside one.ordered made plain
  others := by
    intro i old other
    obtain ⟨first,second⟩ := one.others i old other
    obtain ⟨first',second'⟩ := two.others i (old.trans_le one.count) other
    exact ⟨first'.trans first,second'.trans second⟩
  owner := by
    intro b inside
    rw [two.owner b (by rwa [one.context_eq ordered made]),one.owner b inside]
  bbs := by rw [two.bbs,one.bbs,List.append_assoc]
  children := by
    obtain ⟨new,same,cfg,all⟩ := one.children
    obtain ⟨new',same',cfg',all'⟩ := two.children
    refine ⟨new ++ new',by rw [same',same,List.append_assoc],?_,?_⟩
    · rw [List.map_append,cfg',← cfg]
      congr 1
      exact List.map_congr_left fun x member => two.cfg x (all x member).1
    · intro x member
      rcases List.mem_append.mp member with first | second
      · obtain ⟨old,parent,kind⟩ := all x first
        exact ⟨old.trans_le two.count,(two.parent x old).trans parent,two.function x old kind⟩
      · exact all' x second
  noLoop := by
    intro i new bound loop
    by_cases later : i < m'.count
    · rw [two.loop i later] at loop
      rw [two.parent i later]
      exact one.noLoop i new later loop
    · obtain ⟨j,parent,above⟩ := two.noLoop i (Nat.le_of_not_lt later) bound loop
      exact ⟨j,parent,one.count.trans above⟩
  ordered := two.ordered

omit ordered in
theorem Grown.call {cfg : Fin p.cfgs} (constructed : Constructed isCall m cfg (some v) m') :
    Grown isCall v ct m [] [cfg] (m'.addChild ct m.count) := by
  have old : ct < m.count := tree.1
  have other : m.count ≠ ct := Nat.ne_of_gt old
  obtain ⟨function,called,parent⟩ := constructed.root
  obtain ⟨here,there,elsewhere⟩ := Memory.addChild_function other function
  have keeps := Memory.keeps_addChild other function
  have ordered' : (m'.addChild ct m.count).Ordered := keeps.ordered constructed.ordered Memory.addChild_count
  have contents : ∀ i < m.count, i ≠ ct → ((m'.addChild ct m.count).node i).bbs = (m.node i).bbs ∧
      ((m'.addChild ct m.count).node i).children = (m.node i).children := by
    intro i bound different
    rw [elsewhere i different (Nat.ne_of_lt bound)]
    exact constructed.contents i bound
  have noLoop : ∀ i, m.count ≤ i → i < (m'.addChild ct m.count).count → (m'.addChild ct m.count).isLoop i = true →
      ∃ j, ((m'.addChild ct m.count).node i).parent = some j ∧ m.count ≤ j := by
    intro i new bound loop
    rw [Memory.addChild_count] at bound
    rw [keeps.loop i bound] at loop
    rw [keeps.parent i bound]
    exact constructed.fresh i new bound loop
  refine
    { toKeeps := constructed.toKeeps.trans keeps
      contents := fun i bound different outside => contents i bound ?_
      fresh := fun i new bound loop => (noLoop i new bound loop).imp fun _ found => ⟨found.1,.inl found.2⟩
      complete := fun i new bound function' => ?_
      others := contents
      owner := fun b inside => ?_
      bbs := ?_
      children := ⟨[m.count],?_,?_,?_⟩
      noLoop
      ordered := ordered' }
  · rcases tree.eq_or with rfl | ⟨loop,above⟩
    · exact different
    · rintro rfl
      exact outside loop above
  · rw [Memory.addChild_count] at bound
    rw [keeps.loop i bound] at function'
    refine (constructed.complete i new bound function').keep constructed.ordered bound keeps (fun k j slot => ?_)
      fun j new' bound' => absurd (Memory.addChild_count ▸ bound') (Nat.not_lt.mpr new')
    have different : j ≠ ct := by
      rintro rfl
      cases k with
      | none =>
        obtain rfl : j = i := slot
        omega
      | some h =>
        have smaller := constructed.ordered.parent j slot.1 i slot.2.2.1
        omega
    by_cases child : j = m.count
    · rw [child,there]
      exact ⟨rfl,rfl⟩
    · rw [elsewhere j different child]
      exact ⟨rfl,rfl⟩
  · rw [Memory.addChild_owner]
    exact constructed.owner b inside
  · rw [here,List.append_nil]
    exact (constructed.contents ct old).1
  · rw [here]
    simp only [(constructed.contents ct old).2]
  · simp [there,called]
  · intro x member
    obtain rfl := List.mem_singleton.mp member
    rw [there,Memory.addChild_count]
    exact ⟨constructed.made,parent,rfl⟩

omit plain in
variable (isCall) in
theorem Grown.add (bb : p.Block) :
    Grown isCall v ct m [bb] [] (m.modify ct fun node => {node with bbs := node.bbs ++ [bb]}) := by
  have all (i : Nat) : ((m.modify ct fun node => {node with bbs := node.bbs ++ [bb]}).node i) =
      {m.node i with bbs := if i = ct then (m.node i).bbs ++ [bb] else (m.node i).bbs} := by
    by_cases here : i = ct
    · subst here
      simp [Memory.modify]
    · simp [Memory.modify,here]
  have keeps : m.Keeps (m.modify ct fun node => {node with bbs := node.bbs ++ [bb]}) :=
    { count := Nat.le_refl _
      loop := fun i _ => by simp [Memory.isLoop,all]
      function := fun i _ known => by simp [all,known]
      bb := fun i _ => by simp [all]
      cfg := fun i _ => by simp [all]
      parent := fun i _ => by simp [all] }
  refine
    { toKeeps := keeps
      contents := fun i old different outside => ?_
      fresh := fun i new bound => absurd bound (Nat.not_lt.mpr new)
      complete := fun i new bound => absurd bound (Nat.not_lt.mpr new)
      others := fun i _ different => by simp [all,different]
      owner := fun _ _ => rfl
      bbs := by simp [all]
      children := ⟨[],by simp [all],rfl,by simp⟩
      noLoop := fun i new bound => absurd bound (Nat.not_lt.mpr new)
      ordered := keeps.ordered ordered rfl }
  have other : i ≠ ct := by
    rcases tree.eq_or with rfl | ⟨loop,above⟩
    · exact different
    · rintro rfl
      exact outside loop above
  simp [all,other]

omit made plain tree in
theorem Grown.refl : Grown isCall v ct m [] [] m where
  toInside := .refl v m
  others := fun _ _ _ => ⟨rfl,rfl⟩
  owner := fun _ _ => rfl
  bbs := (List.append_nil _).symm
  children := ⟨[],(List.append_nil _).symm,rfl,fun _ member => nomatch member⟩
  noLoop := fun _ new bound => absurd bound (Nat.not_lt.mpr new)
  ordered := ordered

end Calls

variable (isCall) in
def Builds (build : Fin p.cfgs → Option Nat → Bool → Memory p → Option (Memory p × Nat)) (c : List (Fin p.cfgs)) : Prop :=
  ∀ (m : Memory p) v callee, m.Ordered → v < m.count → m.isLoop v = false → m.context v = c → callee ∉ c →
    ∃ m', build callee (some v) true m = some (m',m.count) ∧ Constructed isCall m callee (some v) m'

section
variable {build : Fin p.cfgs → Option Nat → Bool → Memory p → Option (Memory p × Nat)} {c : List (Fin p.cfgs)}
  (builds : Builds isCall build c) {ct : Nat}

include builds

theorem inlineCalls_grown (cfgs : List (Fin p.cfgs)) (ordered : m.Ordered) (made : v < m.count)
    (plain : m.isLoop v = false) (tree : Of m v ct) (context : m.context v = c) :
    ∃ m', inlineCalls build ct cfgs m = some m' ∧ Grown isCall v ct m [] (cfgs.takeWhile (· ∉ c)) m' := by
  induction cfgs generalizing m with
  | nil => exact ⟨m,rfl,.refl ordered⟩
  | cons cfg rest ih =>
    have here : m.context ct = c := (tree.context_eq ordered made plain).trans context
    by_cases inside : cfg ∈ c
    · have recursive : m.recursive ct cfg = true := Memory.recursive_iff.mpr (here ▸ inside)
      refine ⟨m,by simp only [inlineCalls,recursive,if_true],?_⟩
      rw [List.takeWhile_cons_of_neg (by simpa using inside)]
      exact .refl ordered
    · have first : m.recursive ct cfg = false := by
        rw [← Bool.not_eq_true,Memory.recursive_iff,here]
        exact inside
      obtain ⟨m1,built,constructed⟩ := builds m v cfg ordered made plain context inside
      have one := Grown.call made plain tree constructed
      obtain ⟨m2,others,two⟩ := ih one.ordered (made.trans_le one.count) ((one.loop v made).trans plain)
        (tree.keep one.toKeeps) ((one.context_eq ordered made).trans context)
      refine ⟨m2,?_,?_⟩
      · simp only [inlineCalls,first,Bool.false_eq_true,if_false,tree.enclosingFunction_eq ordered made plain,
          Option.bind_eq_bind,Option.bind_some,built,others]
      · rw [List.takeWhile_cons_of_pos (by simpa using inside)]
        exact one.trans ordered made plain two

theorem addBB_grown (bb : p.Block) (ordered : m.Ordered) (made : v < m.count) (plain : m.isLoop v = false)
    (tree : Of m v ct) (context : m.context v = c) :
    ∃ m', addBB isCall build ct bb true m = some m' ∧ Grown isCall v ct m [bb] (inlined isCall c bb) m' := by
  have first := Grown.add isCall ordered made tree bb
  cases call : isCall bb with
  | false =>
    refine ⟨m.modify ct fun node => {node with bbs := node.bbs ++ [bb]},?_,by simpa [inlined,call] using first⟩
    simp only [addBB,call,Bool.and_false,Bool.false_eq_true,if_false]
  | true =>
    obtain ⟨m',done,second⟩ := inlineCalls_grown builds (called bb) first.ordered (made.trans_le first.count)
      ((first.loop v made).trans plain) (tree.keep first.toKeeps) ((first.context_eq ordered made).trans context)
    refine ⟨m',by simp only [addBB,call,Bool.and_self,if_true,done],?_⟩
    simpa [inlined,call] using first.trans ordered made plain second

end

/-! ### A function that is built -/

variable (isCall) in
/-- The state in the loops of the constructor for the function v. The headers of `made`
    have a tree; the tree of each loop has the blocks `own` and the loops `headers`. -/
structure Building (m : Memory p) (v : Nat) (made : List p.Block) (own headers : Option p.Block → List p.Block) :
    Prop where
  ordered : m.Ordered
  root : v < m.count
  plain : m.isLoop v = false
  slots : ∀ h i, m.Slot v (some h) i → h ∈ made ∧ p.loopHeader h = true ∧ m.owner h = some i
  owned : ∀ h ∈ made, p.loopHeader h = true → ∃ i, m.owner h = some i ∧ m.Slot v (some h) i
  filled : ∀ k i, m.Slot v k i → m.Filled v (inlined isCall (m.context v)) (own k) (headers k) (m.node i)

namespace Building
variable {made : List p.Block} {own headers : Option p.Block → List p.Block} {k : Option p.Block} {ct : Nat}

theorem slot_of (building : Building isCall m v made own headers) (slot : m.Slot v k ct) : Of m v ct := by
  refine ⟨?_,k,slot⟩
  cases k with
  | none => exact slot ▸ building.root
  | some h => exact slot.1

theorem key (building : Building isCall m v made own headers) {k' : Option p.Block} (slot : m.Slot v k ct)
    (slot' : m.Slot v k' ct) : k = k' := by
  have plain := building.plain
  cases k with
  | none =>
    cases k' with
    | none => rfl
    | some h =>
      obtain rfl : ct = v := slot
      exact absurd (plain.symm.trans slot'.2.1) (by simp)
  | some h =>
    cases k' with
    | none =>
      obtain rfl : ct = v := slot'
      exact absurd (plain.symm.trans slot.2.1) (by simp)
    | some h' => rw [← slot.2.2.2,← slot'.2.2.2]

theorem unique (building : Building isCall m v made own headers) {i : Nat} (slot : m.Slot v k ct)
    (slot' : m.Slot v k i) : ct = i := by
  cases k with
  | none => exact slot.trans slot'.symm
  | some h =>
    have one := (building.slots h ct slot).2.2
    have two := (building.slots h i slot').2.2
    exact Option.some.inj (one.symm.trans two)

theorem grown (building : Building isCall m v made own headers) {bb : p.Block} (slot : m.Slot v k ct)
    (grown : Grown isCall v ct m [bb] (inlined isCall (m.context v) bb) m') (inside : ∀ h ∈ made, h.1 ∈ m.context v) :
    Building isCall m' v made (Function.update own k (own k ++ [bb])) headers := by
  have context := grown.context_eq building.ordered building.root
  have same (k : Option p.Block) (i : Nat) : m'.Slot v k i ↔ m.Slot v k i := by
    cases k with
    | none => exact Iff.rfl
    | some h =>
      constructor
      · rintro ⟨bound,loop,parent,bb⟩
        have old : i < m.count := by
          by_contra new
          obtain ⟨j,above,late⟩ := grown.noLoop i (Nat.le_of_not_lt new) bound loop
          obtain rfl := Option.some.inj (parent.symm.trans above)
          exact absurd building.root (Nat.not_lt.mpr late)
        exact ⟨old,(grown.loop i old).symm.trans loop,(grown.parent i old).symm.trans parent,
          (grown.bb i old).symm.trans bb⟩
      · rintro ⟨old,loop,parent,bb⟩
        exact ⟨old.trans_le grown.count,(grown.loop i old).trans loop,(grown.parent i old).trans parent,
          (grown.bb i old).trans bb⟩
  refine
    { ordered := grown.ordered
      root := building.root.trans_le grown.count
      plain := (grown.loop v building.root).trans building.plain
      slots := fun h i known => ?_
      owned := fun h listed header => ?_
      filled := fun k' i known => ?_ }
  · obtain ⟨listed,header,owner⟩ := building.slots h i ((same _ i).mp known)
    exact ⟨listed,header,(grown.owner h (inside h listed)).trans owner⟩
  · obtain ⟨i,owner,known⟩ := building.owned h listed header
    exact ⟨i,(grown.owner h (inside h listed)).trans owner,(same _ i).mpr known⟩
  · have before := building.filled k' i ((same _ i).mp known)
    rw [context]
    by_cases here : k' = k
    · subst here
      obtain rfl := building.unique slot ((same _ i).mp known)
      obtain ⟨new,children,cfg,all⟩ := grown.children
      have kept := @Memory.Keeps.filled _ _ _ grown.toKeeps _ _ _ _ _ {m'.node ct with
        bbs := (m.node ct).bbs
        children := (m.node ct).children} before rfl rfl
      have loops : new.filter m'.isLoop = [] := by
        refine List.filter_eq_nil_iff.mpr fun x member => ?_
        simp [Memory.isLoop,(all x member).2.2]
      have functions : (new.filter fun x => !m'.isLoop x) = new := by
        refine List.filter_eq_self.mpr fun x member => ?_
        simp [Memory.isLoop,(all x member).2.2]
      rw [Function.update_self]
      refine ⟨?_,?_,?_,fun x member => ?_,fun x member function => ?_⟩
      · rw [grown.bbs,before.bbs]
      · rw [children,List.filter_append,loops,List.append_nil]
        exact kept.loops
      · rw [children,List.filter_append,functions,List.map_append,cfg,List.flatMap_append]
        simpa using kept.calls
      · rw [children] at member
        rcases List.mem_append.mp member with old | new
        · exact kept.parents x old
        · exact ⟨(all x new).1,(all x new).2.1⟩
      · rw [children] at member
        rcases List.mem_append.mp member with old | new
        · exact kept.functions x old function
        · exact (all x new).2.2
    · rw [Function.update_of_ne here]
      have other : i ≠ ct := by
        rintro rfl
        exact here (building.key ((same _ i).mp known) slot)
      obtain ⟨sameBbs,sameChildren⟩ := grown.others i (building.slot_of ((same _ i).mp known)).1 other
      exact grown.toKeeps.filled before sameBbs sameChildren

theorem alloc (building : Building isCall m v made own headers) {bb : p.Block} (header : p.loopHeader bb = true)
    (new : bb ∉ made) (noBlock : own (some bb) = []) (noLoop : headers (some bb) = []) :
    Building isCall ((m.alloc ⟨.loop,bb,bb.1,[],[],some v⟩).setOwner bb m.count) v (made ++ [bb]) own headers ∧
      ((m.alloc ⟨.loop,bb,bb.1,[],[],some v⟩).setOwner bb m.count).Slot v (some bb) m.count ∧
      Inside isCall v m ((m.alloc ⟨.loop,bb,bb.1,[],[],some v⟩).setOwner bb m.count) := by
  generalize result : (m.alloc ⟨.loop,bb,bb.1,[],[],some v⟩).setOwner bb m.count = next
  have count : next.count = m.count + 1 := by rw [← result]; rfl
  have last : next.node m.count = ⟨.loop,bb,bb.1,[],[],some v⟩ := by rw [← result]; exact Function.update_self ..
  have before : ∀ i < m.count, next.node i = m.node i := by
    intro i old
    rw [← result]
    exact Function.update_of_ne (Nat.ne_of_lt old) ..
  have owner (b : p.Block) : next.owner b = if b = bb then some m.count else m.owner b := by
    rw [← result]
    exact Function.update_apply ..
  obtain ⟨keeps,ordered⟩ : m.Keeps next ∧ next.Ordered := by
    refine Memory.keeps_alloc building.ordered count before (fun j above => ?_) fun _ => ⟨v,by rw [last],building.plain⟩
    rw [last] at above
    cases above
    exact building.root
  have same (k : Option p.Block) {i : Nat} (old : i < m.count) (slot : next.Slot v k i) : m.Slot v k i := by
    cases k with
    | none => exact slot
    | some h => exact ⟨old,(keeps.loop i old).symm.trans slot.2.1,(keeps.parent i old).symm.trans slot.2.2.1,
        (keeps.bb i old).symm.trans slot.2.2.2⟩
  have later (h : p.Block) {i : Nat} (slot : m.Slot v (some h) i) : next.Slot v (some h) i :=
    ⟨slot.1.trans_le keeps.count,(keeps.loop i slot.1).trans slot.2.1,(keeps.parent i slot.1).trans slot.2.2.1,
      (keeps.bb i slot.1).trans slot.2.2.2⟩
  have here : next.Slot v (some bb) m.count := ⟨by omega,by simp [Memory.isLoop,last],by rw [last],by rw [last]⟩
  refine ⟨?_,here,?_⟩
  · refine
      { ordered
        root := building.root.trans_le keeps.count
        plain := (keeps.loop v building.root).trans building.plain
        slots := fun h i slot => ?_
        owned := fun h listed known => ?_
        filled := fun k i slot => ?_ }
    · by_cases old : i < m.count
      · obtain ⟨listed,known,owned⟩ := building.slots h i (same _ old slot)
        have other : h ≠ bb := fun equal => new (equal ▸ listed)
        exact ⟨List.mem_append_left _ listed,known,by rw [owner,if_neg other,owned]⟩
      · have bound := slot.1
        obtain rfl : i = m.count := by omega
        obtain rfl : bb = h := by rw [← slot.2.2.2,last]
        exact ⟨by simp,header,by rw [owner,if_pos rfl]⟩
    · rcases List.mem_append.mp listed with old | newest
      · obtain ⟨i,owned,slot⟩ := building.owned h old known
        have other : h ≠ bb := fun equal => new (equal ▸ old)
        exact ⟨i,by rw [owner,if_neg other,owned],later h slot⟩
      · obtain rfl := List.mem_singleton.mp newest
        exact ⟨m.count,by rw [owner,if_pos rfl],here⟩
    · rw [keeps.context_eq building.ordered building.root]
      by_cases old : i < m.count
      · have filled := building.filled k i (same k old slot)
        exact keeps.filled filled (by rw [before i old]) (by rw [before i old])
      · cases k with
        | none =>
          obtain rfl : i = v := slot
          exact absurd building.root old
        | some h =>
          have bound := slot.1
          obtain rfl : i = m.count := by omega
          obtain rfl : bb = h := by rw [← slot.2.2.2,last]
          rw [last,noBlock,noLoop]
          exact ⟨rfl,rfl,rfl,by simp,by simp⟩
  · refine
      { toKeeps := keeps
        contents := fun i old _ _ => by rw [before i old]; exact ⟨rfl,rfl⟩
        fresh := fun i late bound _ => ?_
        complete := fun i late bound function => ?_ }
    · obtain rfl : i = m.count := by omega
      exact ⟨v,by rw [last],.inr rfl⟩
    · obtain rfl : i = m.count := by omega
      simp [Memory.isLoop,last] at function

theorem addLoop (building : Building isCall m v made own headers) {h : p.Block} {i : Nat} (slot : m.Slot v k ct)
    (child : m.Slot v (some h) i) :
    Building isCall (m.addChild ct i) v made own (Function.update headers k (headers k ++ [h])) ∧
      Inside isCall v m (m.addChild ct i) := by
  rw [Memory.addChild_loop child.2.1]
  generalize result : (m.modify ct fun node => {node with children := node.children ++ [i]}) = next
  have all (j : Nat) : next.node j =
      {m.node j with children := if j = ct then (m.node j).children ++ [i] else (m.node j).children} := by
    rw [← result]
    by_cases here : j = ct
    · subst here
      simp [Memory.modify]
    · simp [Memory.modify,here]
  have count : next.count = m.count := by rw [← result]; rfl
  have owner : next.owner = m.owner := by rw [← result]; rfl
  have keeps : m.Keeps next :=
    { count := count.ge
      loop := fun j _ => by simp [Memory.isLoop,all]
      function := fun j _ known => by simp [all,known]
      bb := fun j _ => by simp [all]
      cfg := fun j _ => by simp [all]
      parent := fun j _ => by simp [all] }
  have same (k : Option p.Block) (j : Nat) : next.Slot v k j ↔ m.Slot v k j := by
    cases k with
    | none => exact Iff.rfl
    | some h => simp [Memory.Slot,count,Memory.isLoop,all]
  constructor
  · refine
      { ordered := keeps.ordered building.ordered count
        root := building.root.trans_le keeps.count
        plain := (keeps.loop v building.root).trans building.plain
        slots := fun h j known => ?_
        owned := fun h listed header => ?_
        filled := fun k' j known => ?_ }
    · rw [owner]
      exact building.slots h j ((same _ j).mp known)
    · simpa only [owner,same] using building.owned h listed header
    · rw [keeps.context_eq building.ordered building.root]
      have before := building.filled k' j ((same _ j).mp known)
      by_cases here : k' = k
      · subst here
        obtain rfl := building.unique slot ((same _ j).mp known)
        rw [Function.update_self]
        have kept := @Memory.Keeps.filled _ _ _ keeps _ _ _ _ _ (m.node ct) before rfl rfl
        have loop : next.isLoop i = true := (keeps.loop i child.1).trans child.2.1
        have children : (next.node ct).children = (m.node ct).children ++ [i] := by simp [all]
        refine ⟨by simpa [all] using before.bbs,?_,?_,fun x member => ?_,fun x member function => ?_⟩
        · rw [children,List.filter_append,List.map_append,kept.loops]
          simp [loop,(keeps.bb i child.1).trans child.2.2.2]
        · rw [children,List.filter_append,List.map_append,kept.calls]
          simp [loop]
        · rw [children] at member
          rcases List.mem_append.mp member with old | new
          · exact kept.parents x old
          · obtain rfl := List.mem_singleton.mp new
            exact ⟨child.1.trans_le keeps.count,(keeps.parent x child.1).trans child.2.2.1⟩
        · rw [children] at member
          rcases List.mem_append.mp member with old | new
          · exact kept.functions x old function
          · obtain rfl := List.mem_singleton.mp new
            exact absurd (loop.symm.trans function) (by simp)
      · rw [Function.update_of_ne here]
        have other : j ≠ ct := by
          rintro rfl
          exact here (building.key ((same _ j).mp known) slot)
        exact keeps.filled before (by simp [all]) (by simp [all,other])
  · refine
      { toKeeps := keeps
        contents := fun j _ different outside => ?_
        fresh := fun j new bound => absurd (count ▸ bound) (Nat.not_lt.mpr new)
        complete := fun j new bound => absurd (count ▸ bound) (Nat.not_lt.mpr new) }
    have other : j ≠ ct := by
      rcases (building.slot_of slot).eq_or with rfl | ⟨loop,above⟩
      · exact different
      · rintro rfl
        exact outside loop above
    simp [all,other]

theorem setOwner (building : Building isCall m v made own headers) {bb : p.Block} (notHeader : p.loopHeader bb = false)
    (i : Nat) : Building isCall (m.setOwner bb i) v made own headers ∧ Inside isCall v m (m.setOwner bb i) := by
  have keeps : m.Keeps (m.setOwner bb i) := ⟨Nat.le_refl _,fun _ _ => rfl,fun _ _ => id,fun _ _ => rfl,fun _ _ => rfl,fun _ _ => rfl⟩
  have owner (h : p.Block) (header : p.loopHeader h = true) : (m.setOwner bb i).owner h = m.owner h := by
    have other : h ≠ bb := by
      rintro rfl
      simp [notHeader] at header
    exact Function.update_of_ne other ..
  have same (k : Option p.Block) (j : Nat) : (m.setOwner bb i).Slot v k j ↔ m.Slot v k j := by
    cases k <;> exact Iff.rfl
  constructor
  · refine
      { ordered := keeps.ordered building.ordered rfl
        root := building.root
        plain := building.plain
        slots := fun h j known => ?_
        owned := fun h listed header => ?_
        filled := fun k j known => ?_ }
    · obtain ⟨listed,header,owned⟩ := building.slots h j ((same _ j).mp known)
      exact ⟨listed,header,(owner h header).trans owned⟩
    · rw [owner h header]
      simpa only [same] using building.owned h listed header
    · rw [keeps.context_eq building.ordered building.root]
      exact keeps.filled (building.filled k j ((same _ j).mp known)) rfl rfl
  · exact
      { toKeeps := keeps
        contents := fun _ _ _ _ => ⟨rfl,rfl⟩
        fresh := fun _ new bound => absurd bound (Nat.not_lt.mpr new)
        complete := fun _ new bound => absurd bound (Nat.not_lt.mpr new) }

end Building

theorem enclosing_header {b h : p.Block} (inside : p.enclosing b = some h) :
    p.loopHeader h = true ∧ h.1 = b.1 ∧ h ≠ b := by
  obtain ⟨x,found,rfl⟩ := Option.map_eq_some_iff.mp inside
  have body := enclosing_body (Program.picked b.1) found
  refine ⟨(loopHeader_iff (Program.exact_ b.1)).mpr body.header,rfl,fun same => body.ne ?_⟩
  exact (eq_of_heq (Sigma.mk.inj (same.trans (Sigma.eta b).symm)).2).symm

@[simp] theorem mem_blocks {cfg : Fin p.cfgs} {b : p.Block} : b ∈ blocks p cfg ↔ b.1 = cfg := by
  constructor
  · intro member
    obtain ⟨x,-,rfl⟩ := List.mem_map.mp member
    rfl
  · rintro rfl
    exact List.mem_map.mpr ⟨b.2,by simp,rfl⟩

theorem nodup_blocks (cfg : Fin p.cfgs) : (blocks p cfg).Nodup :=
  (List.nodup_finRange _).map fun _ _ same => eq_of_heq (Sigma.mk.inj same).2

def heads (blocks : List p.Block) : List p.Block := blocks.filter p.loopHeader

/-- The header of the tree of a loop, once it is made. -/
def headOf (made : List p.Block) (k : Option p.Block) : List p.Block := k.toList.filter fun h => decide (h ∈ made)

theorem headOf_snoc {made : List p.Block} {bb : p.Block} (new : bb ∉ made) :
    Function.update (headOf made) (some bb) (headOf made (some bb) ++ [bb]) = headOf (made ++ [bb]) := by
  funext k
  cases k with
  | none => rfl
  | some h =>
    by_cases here : h = bb
    · subst here
      simp [headOf,new]
    · simp [headOf,here,List.filter_cons]

theorem loopsIn_snoc (seen : List p.Block) {bb : p.Block} (header : p.loopHeader bb = true) :
    loopsIn (seen ++ [bb]) = Function.update (loopsIn seen) (p.enclosing bb) (loopsIn seen (p.enclosing bb) ++ [bb]) ∧
      plainIn (seen ++ [bb]) = plainIn seen := by
  constructor <;> funext k
  · by_cases here : k = p.enclosing bb
    · subst here
      simp [loopsIn,header]
    · simp [loopsIn,header,here,Ne.symm here]
  · simp [plainIn,header]

theorem plainIn_snoc (seen : List p.Block) {bb : p.Block} (header : p.loopHeader bb = false) :
    loopsIn (seen ++ [bb]) = loopsIn seen ∧ ∀ k, plainIn (seen ++ [bb]) k =
      if k = p.enclosing bb then plainIn seen k ++ [bb] else plainIn seen k := by
  constructor
  · funext k
    simp [loopsIn,header]
  · intro k
    by_cases here : k = p.enclosing bb
    · subst here
      simp [plainIn,header]
    · simp [plainIn,header,here,Ne.symm here]

section Phases
variable {build : Fin p.cfgs → Option Nat → Bool → Memory p → Option (Memory p × Nat)} {cfg : Fin p.cfgs}
  {c : List (Fin p.cfgs)} (builds : Builds isCall build (cfg :: c)) {seen : List p.Block} {bb : p.Block}

variable (isCall) in
/-- What the loops of the constructor keep. -/
structure Progress (callee : Fin p.cfgs) (c : List (Fin p.cfgs)) (v : Nat) (m m' : Memory p) : Prop
    extends Inside isCall v m m' where
  owner : ∀ b : p.Block, b.1 ∈ c → b.1 ≠ callee → m'.owner b = m.owner b

theorem Building.trans {made : List p.Block} {own headers : Option p.Block → List p.Block}
    (building : Building isCall m' v made own headers) (old : v < m.count) (plain : m.isLoop v = false)
    (one : Progress isCall cfg c v m m') (two : Progress isCall cfg c v m' m'') : Progress isCall cfg c v m m'' where
  toInside := one.toInside.trans two.toInside building.ordered old plain
  owner := fun b inside other => (two.owner b inside other).trans (one.owner b inside other)

include builds

theorem makeLoop_building (new : bb ∉ seen) (inside : ∀ b ∈ seen ++ [bb], b.1 = cfg)
    (building : Building isCall m v (heads seen) (headOf (heads seen)) fun _ => []) (context : m.context v = cfg :: c) :
    ∃ m', makeLoop isCall build v true m bb = some m' ∧
      Building isCall m' v (heads (seen ++ [bb])) (headOf (heads (seen ++ [bb]))) (fun _ => []) ∧
      Progress isCall cfg c v m m' := by
  cases header : p.loopHeader bb with
  | false =>
    refine ⟨m,by simp [makeLoop,header],by simpa [heads,header] using building,.refl v m,fun _ _ _ => rfl⟩
  | true =>
    have fresh : bb ∉ heads seen := fun member => new (List.mem_of_mem_filter member)
    have more : heads (seen ++ [bb]) = heads seen ++ [bb] := by simp [heads,header]
    obtain ⟨first,slot,one⟩ := building.alloc header fresh (by simp [headOf,fresh]) rfl
    have context' := (one.context_eq building.ordered building.root).trans context
    obtain ⟨m',done,grown⟩ := addBB_grown builds bb first.ordered first.root first.plain (first.slot_of slot) context'
    have owned : ∀ h ∈ heads seen ++ [bb], h.1 ∈ ((m.alloc ⟨.loop,bb,bb.1,[],[],some v⟩).setOwner bb m.count).context v := by
      intro h member
      rw [context',inside h]
      · exact List.mem_cons_self
      · rcases List.mem_append.mp member with old | last
        · exact List.mem_append_left _ (List.mem_of_mem_filter old)
        · exact List.mem_append_right _ last
    refine ⟨m',by simp only [makeLoop,header,if_true,done],?_,
      one.trans grown.toInside first.ordered building.root building.plain,fun b known other => ?_⟩
    · have next := first.grown slot (context' ▸ grown) owned
      rwa [headOf_snoc fresh,← more] at next
    · rw [grown.owner b (by rw [context']; exact List.mem_cons_of_mem _ known)]
      refine Function.update_of_ne ?_ ..
      rintro rfl
      exact other (inside b (by simp))

theorem link_building (all : List p.Block) (whole : ∀ b : p.Block, b ∈ all ↔ b.1 = cfg) (here : bb.1 = cfg)
    (building : Building isCall m v (heads all) (fun k => headOf (heads all) k ++ plainIn seen k) (loopsIn seen))
    (context : m.context v = cfg :: c) :
    ∃ m', link isCall build v true m bb = some m' ∧
      Building isCall m' v (heads all) (fun k => headOf (heads all) k ++ plainIn (seen ++ [bb]) k) (loopsIn (seen ++ [bb])) ∧
      Progress isCall cfg c v m m' := by
  have listed {h : p.Block} (header : p.loopHeader h = true) (inside : h.1 = cfg) : h ∈ heads all :=
    List.mem_filter.mpr ⟨(whole h).mpr inside,header⟩
  obtain ⟨ct,slot,owner⟩ : ∃ ct, m.Slot v (p.enclosing bb) ct ∧ ∀ h, p.enclosing bb = some h → m.owner h = some ct := by
    cases enclosing : p.enclosing bb with
    | none => exact ⟨v,rfl,fun _ known => nomatch known⟩
    | some h =>
      obtain ⟨header,same,-⟩ := enclosing_header enclosing
      obtain ⟨ct,owner,slot⟩ := building.owned h (listed header (same.trans here)) header
      exact ⟨ct,slot,fun h' known => Option.some.inj known ▸ owner⟩
  cases header : p.loopHeader bb with
  | true =>
    obtain ⟨i,owned,child⟩ := building.owned bb (listed header here) header
    obtain ⟨next,inside⟩ := building.addLoop slot child
    obtain ⟨loops,plains⟩ := loopsIn_snoc seen header
    refine ⟨m.addChild ct i,?_,by rwa [loops,plains],inside,fun b _ _ => by rw [Memory.addChild_owner]⟩
    cases enclosing : p.enclosing bb with
    | none =>
      rw [enclosing] at slot
      obtain rfl : ct = v := slot
      simp [link,header,owned,enclosing]
    | some h => simp [link,header,owned,enclosing,owner h enclosing]
  | false =>
    have tree := building.slot_of slot
    obtain ⟨m',done,grown⟩ := addBB_grown builds bb building.ordered building.root building.plain tree context
    have owned : ∀ h ∈ heads all, h.1 ∈ m.context v := by
      intro h member
      rw [context,(whole h).mp (List.mem_of_mem_filter member)]
      exact List.mem_cons_self
    have next := building.grown slot (context ▸ grown) owned
    obtain ⟨loops,plains⟩ := plainIn_snoc seen header
    have same : Function.update (fun k => headOf (heads all) k ++ plainIn seen k) (p.enclosing bb)
        (headOf (heads all) (p.enclosing bb) ++ plainIn seen (p.enclosing bb) ++ [bb]) =
        fun k => headOf (heads all) k ++ plainIn (seen ++ [bb]) k := by
      funext k
      rw [plains,Function.update_apply]
      split
      case isTrue equal => rw [equal,List.append_assoc]
      case isFalse => rfl
    rw [same,← loops] at next
    obtain ⟨last,inside⟩ := next.setOwner header ct
    refine ⟨m'.setOwner bb ct,?_,last,grown.toInside.trans inside next.ordered building.root building.plain,
      fun b known other => ?_⟩
    · cases enclosing : p.enclosing bb with
      | none =>
        rw [enclosing] at slot
        obtain rfl : ct = v := slot
        simp [link,header,enclosing,done]
      | some h => simp [link,header,enclosing,owner h enclosing,done]
    · have differ : b ≠ bb := fun equal => other (equal ▸ here)
      have kept : (m'.setOwner bb ct).owner b = m'.owner b := Function.update_of_ne differ ..
      rw [kept,grown.owner b (by rw [context]; exact List.mem_cons_of_mem _ known)]

end Phases

theorem Building.complete {callee : Fin p.cfgs} (self : (m.node v).cfg = callee)
    (building : Building isCall m v (heads (blocks p callee))
      (fun k => headOf (heads (blocks p callee)) k ++ plainIn (blocks p callee) k) (loopsIn (blocks p callee))) :
    Complete isCall m v where
  header := by
    intro h i slot
    obtain ⟨listed,header,-⟩ := building.slots h i slot
    exact ⟨header,(mem_blocks.mp (List.mem_of_mem_filter listed)).trans self.symm⟩
  loop := by
    intro h header inside
    have listed : h ∈ heads (blocks p callee) := List.mem_filter.mpr ⟨mem_blocks.mpr (inside.trans self),header⟩
    obtain ⟨i,-,slot⟩ := building.owned h listed header
    exact ⟨i,slot,fun j other => building.unique other slot⟩
  filled := by
    intro k i slot
    have whole : headOf (heads (blocks p callee)) k = k.toList := by
      cases k with
      | none => rfl
      | some h => simp [headOf,(building.slots h i slot).1]
    rw [self,← whole]
    exact building.filled k i slot

variable (isCall) in
theorem building_alloc (callee : Fin p.cfgs) {caller : Option Nat} (ordered : m.Ordered)
    (above : ∀ j, caller = some j → j < m.count ∧ m.isLoop j = false) :
    m.Keeps (m.alloc ⟨.root,p.entry callee,callee,[],[],caller⟩) ∧
      (∀ i < m.count, (m.alloc ⟨.root,p.entry callee,callee,[],[],caller⟩).node i = m.node i) ∧
      (m.alloc ⟨.root,p.entry callee,callee,[],[],caller⟩).node m.count = ⟨.root,p.entry callee,callee,[],[],caller⟩ ∧
      (m.alloc ⟨.root,p.entry callee,callee,[],[],caller⟩).context m.count = callee :: caller.elim [] m.context ∧
      Building isCall (m.alloc ⟨.root,p.entry callee,callee,[],[],caller⟩) m.count (heads []) (headOf (heads [])) fun _ => [] := by
  generalize result : m.alloc ⟨.root,p.entry callee,callee,[],[],caller⟩ = next
  have count : next.count = m.count + 1 := by rw [← result]; rfl
  have last : next.node m.count = ⟨.root,p.entry callee,callee,[],[],caller⟩ := by
    rw [← result]
    exact Function.update_self ..
  have before : ∀ i < m.count, next.node i = m.node i := by
    intro i old
    rw [← result]
    exact Function.update_of_ne (Nat.ne_of_lt old) ..
  have plain : next.isLoop m.count = false := by simp [Memory.isLoop,last]
  obtain ⟨keeps,ordered'⟩ : m.Keeps next ∧ next.Ordered := by
    refine Memory.keeps_alloc ordered count before (fun j parent => ?_) fun loop => ?_
    · rw [last] at parent
      exact (above j parent).1
    · exact absurd (plain.symm.trans loop) (by simp)
  have none : ∀ h i, ¬ next.Slot m.count (some h) i := by
    rintro h i ⟨bound,loop,parent,-⟩
    have smaller := ordered'.parent i bound m.count parent
    omega
  refine ⟨keeps,before,last,?_,?_⟩
  · cases caller with
    | none =>
      rw [Memory.context_root plain (by rw [last]),last]
      rfl
    | some j =>
      rw [Memory.context_function ordered' (by omega) plain (by rw [last]),keeps.context_eq ordered (above j rfl).1,last]
      rfl
  · refine
      { ordered := ordered'
        root := by omega
        plain
        slots := fun h i slot => (none h i slot).elim
        owned := fun h member => absurd member List.not_mem_nil
        filled := fun k i slot => ?_ }
    cases k with
    | none =>
      obtain rfl : i = m.count := slot
      rw [last]
      exact ⟨rfl,rfl,rfl,by simp,by simp⟩
    | some h => exact (none h i slot).elim

theorem construct_spec {fuel : Nat} {callee : Fin p.cfgs} {caller : Option Nat} (ordered : m.Ordered)
    (above : ∀ j, caller = some j → j < m.count ∧ m.isLoop j = false) (nodup : (caller.elim [] m.context).Nodup)
    (fresh : callee ∉ caller.elim [] m.context) (enough : p.cfgs ≤ fuel + (caller.elim [] m.context).length) :
    ∃ m', construct p isCall fuel callee caller true m = some (m',m.count) ∧ Constructed isCall m callee caller m' := by
  induction fuel generalizing m callee caller with
  | zero =>
    have few := (List.nodup_cons.mpr ⟨fresh,nodup⟩).length_le_card
    simp only [List.length_cons,Fintype.card_fin] at few
    omega
  | succ fuel ih =>
    generalize known : caller.elim [] m.context = c at *
    obtain ⟨keeps,before,last,context,first⟩ := building_alloc isCall callee ordered above
    generalize result : m.alloc ⟨.root,p.entry callee,callee,[],[],caller⟩ = m0 at *
    rw [known] at context
    have builds : Builds isCall (construct p isCall fuel) (callee :: c) := by
      intro m1 v1 callee1 ordered1 made1 plain1 context1 fresh1
      refine ih ordered1 (fun j same => Option.some.inj same ▸ ⟨made1,plain1⟩) ?_ ?_ ?_
      · rw [Option.elim_some,context1]
        exact List.nodup_cons.mpr ⟨fresh,nodup⟩
      · rw [Option.elim_some,context1]
        exact fresh1
      · simp only [Option.elim_some,context1,List.length_cons]
        omega
    have distinct := nodup_blocks (p := p) callee
    obtain ⟨m1,made,building1,progress1⟩ : ∃ m1,
        (blocks p callee).foldlM (makeLoop isCall (construct p isCall fuel) m.count true) m0 = some m1 ∧
        Building isCall m1 m.count (heads (blocks p callee)) (headOf (heads (blocks p callee))) (fun _ => []) ∧
        Progress isCall callee c m.count m0 m1 := by
      refine foldlM_returns (fun seen m1 => Building isCall m1 m.count (heads seen) (headOf (heads seen)) (fun _ => []) ∧
        Progress isCall callee c m.count m0 m1) (fun seen bb rest same m1 holds => ?_)
        ⟨first,.refl _ _,fun _ _ _ => rfl⟩
      obtain ⟨building,progress⟩ := holds
      rw [← same] at distinct
      have new : bb ∉ seen := fun member => (List.nodup_append.mp distinct).2.2 bb member bb List.mem_cons_self rfl
      have inside : ∀ b ∈ seen ++ [bb], b.1 = callee := fun b member => mem_blocks.mp (same ▸ by
        rcases List.mem_append.mp member with old | here
        · exact List.mem_append_left _ old
        · exact List.mem_append_right _ (List.mem_singleton.mp here ▸ List.mem_cons_self))
      obtain ⟨m2,done,building2,progress2⟩ := makeLoop_building builds new inside building
        ((progress.context_eq first.ordered first.root).trans context)
      exact ⟨m2,done,building2,building.trans first.root first.plain progress progress2⟩
    obtain ⟨m2,linked,building2,progress2⟩ : ∃ m2,
        (blocks p callee).foldlM (link isCall (construct p isCall fuel) m.count true) m1 = some m2 ∧
        Building isCall m2 m.count (heads (blocks p callee))
          (fun k => headOf (heads (blocks p callee)) k ++ plainIn (blocks p callee) k) (loopsIn (blocks p callee)) ∧
        Progress isCall callee c m.count m0 m2 := by
      have none : (fun k : Option p.Block => headOf (heads (blocks p callee)) k ++ plainIn [] k) =
          headOf (heads (blocks p callee)) := funext fun k => List.append_nil _
      refine foldlM_returns (fun seen m2 => Building isCall m2 m.count (heads (blocks p callee))
          (fun k => headOf (heads (blocks p callee)) k ++ plainIn seen k) (loopsIn seen) ∧
        Progress isCall callee c m.count m0 m2) (fun seen bb rest same m2 holds => ?_)
        ⟨by rw [none]; exact building1,progress1⟩
      obtain ⟨building,progress⟩ := holds
      have here : bb.1 = callee := mem_blocks.mp (same ▸ List.mem_append_right _ List.mem_cons_self)
      obtain ⟨m3,done,building3,progress3⟩ := link_building builds (blocks p callee) (fun b => mem_blocks) here building
        ((progress.context_eq first.ordered first.root).trans context)
      exact ⟨m3,done,building3,building.trans first.root first.plain progress progress3⟩
    have self : (m2.node m.count).cfg = callee := (progress2.cfg m.count first.root).trans (by rw [last])
    have grown : m.count < m2.count := first.root.trans_le progress2.count
    have allocated : m0.count = m.count + 1 := by rw [← result]; rfl
    refine ⟨m2,?_,?_⟩
    · simp only [construct,Option.bind_eq_bind,result,made,Option.bind_some,linked]
    · refine
        { toKeeps := keeps.trans progress2.toKeeps
          made := grown
          contents := fun i old => ?_
          fresh := fun i late bound loop => ?_
          complete := fun i late bound function => ?_
          owner := fun b inside => ?_
          root := ⟨(progress2.loop m.count first.root).trans first.plain,self,?_⟩
          ordered := building2.ordered }
      · rw [← before i old]
        refine progress2.contents i (by omega) (Nat.ne_of_lt old) fun _ parent => ?_
        have smaller := first.ordered.parent i (by omega) m.count parent
        omega
      · by_cases root : i = m.count
        · rw [root,progress2.loop m.count first.root,first.plain] at loop
          cases loop
        · obtain ⟨j,parent,new⟩ := progress2.fresh i (by omega) bound loop
          exact ⟨j,parent,by omega⟩
      · by_cases root : i = m.count
        · exact root ▸ building2.complete self
        · exact progress2.complete i (by omega) bound function
      · rw [known] at inside
        rw [progress2.owner b inside fun same => fresh (same ▸ inside),← result]
        rfl
      · rw [progress2.parent m.count first.root,last]

end

end Otawa.ContextTree
