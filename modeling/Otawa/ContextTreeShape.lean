import Otawa.ContextTreeBuild

/-!
The shape of the tree of contexts. The constructor always ends, and each function has
a tree for each of its loops, with the right blocks, as a child of the one of the enclosing
loop. But the parent of a loop in a loop, or of a function called in a loop, is the function
around it, and the calls of a block are dropped from the first recursive one on. So
the documented shape is there exactly for programs without these (`Plain`).
-/
namespace Otawa.ContextTree
open Otawa.Cfg Otawa.Cat2

section
variable (p : Program) (isCall : p.Block → Bool)

/-! ### The documented shape -/

/-- The functions from one on to the root, for the calls that are not recursive. -/
inductive Context : List (Fin p.cfgs) → Prop
  | entry : Context [p.entryCFG]
  | call {c : List (Fin p.cfgs)} {b : p.Block} {callee : Fin p.cfgs} :
    Context (b.1 :: c) → callee ∈ called b → callee ∉ b.1 :: c → Context (callee :: b.1 :: c)

variable {p}

/-- The trees that are reached from one by `children()`. -/
inductive Below (m : Memory p) (root : Nat) : Nat → Prop
  | root : Below m root root
  | child {x y : Nat} : Below m root x → y ∈ (m.node x).children → Below m root y

/-- The hierarchy of the loops of a function: the trees that are reached from the function
    through the ones of loops. -/
inductive Hierarchy (m : Memory p) (w : Nat) : Nat → Prop
  | function : Hierarchy m w w
  | loop {x y : Nat} : Hierarchy m w x → y ∈ (m.node x).children → m.isLoop y = true → Hierarchy m w y

/-- The loop of a header is the innermost one around a block, but for its own loop. -/
def Innermost (h b : p.Block) : Prop := ∃ x, b = ⟨h.1,x⟩ ∧ (p.cfg h.1).Encloses h.2 x

/-- The shape of the tree of contexts from a root, as it is documented. -/
structure Right (m : Memory p) (root : Nat) : Prop where
  blocks : ∀ w, Below m root w → m.isLoop w = false → ∀ b : p.Block, b.1 = (m.node w).cfg →
    ∃! x, Hierarchy m w x ∧ b ∈ (m.node x).bbs
  headers : ∀ w, Below m root w → m.isLoop w = false → ∀ h : p.Block, h.1 = (m.node w).cfg → p.InLoop h h →
    ∃! x, Hierarchy m w x ∧ m.isLoop x = true ∧ (m.node x).bb = h
  loops : ∀ y, Below m root y → ∀ x ∈ (m.node y).children, m.isLoop x = true →
    (m.isLoop y = true → Innermost (m.node y).bb (m.node x).bb) ∧
      (m.isLoop y = false → ∀ h, p.InLoop h (m.node x).bb → h = (m.node x).bb)
  parents : ∀ y, Below m root y → ∀ x ∈ (m.node y).children, (m.node x).parent = some y
  calls : ∀ y, Below m root y → (((m.node y).children.filter fun x => !m.isLoop x).map fun x => (m.node x).cfg).Perm
    ((m.node y).bbs.flatMap fun b => (called b).filter (· ∉ m.context y))

/-- What the constructor needs of a function in a context: no loop is in another one,
    there are only recursive calls in the loops, no recursive call of a block is before
    another call, and the blocks with these calls are marked. -/
structure Plain (c : List (Fin p.cfgs)) (b : p.Block) : Prop where
  flat : p.loopHeader b = true → ∀ h, p.InLoop h b → h = b
  outside : (∃ h, p.InLoop h b) → ∀ callee ∈ called b, callee ∈ c
  order : (called b).Pairwise fun first second => first ∈ c → second ∈ c
  marked : isCall b = false → ∀ callee ∈ called b, callee ∈ c

end

private theorem takeWhile_eq_filter {A : Type*} {q : A → Bool} {l : List A} :
    l.takeWhile q = l.filter q ↔ l.Pairwise fun a b => q a = false → q b = false := by
  induction l with
  | nil => simp
  | cons a rest ih =>
    cases here : q a with
    | true => simp [here,ih]
    | false =>
      simp only [List.takeWhile_cons,here,Bool.false_eq_true,if_false,List.filter_cons,List.pairwise_cons,forall_const]
      constructor
      · intro none
        have all : ∀ b ∈ rest, q b = false := by simpa using List.filter_eq_nil_iff.mp none.symm
        exact ⟨all,List.pairwise_of_forall_mem_list fun a _ b member _ => all b member⟩
      · rintro ⟨all,-⟩
        exact (List.filter_eq_nil_iff.mpr fun b member => by simp [all b member]).symm

private theorem takeWhile_sublist_filter {A : Type*} (q : A → Bool) (l : List A) : (l.takeWhile q).Sublist (l.filter q) := by
  induction l with
  | nil => exact .refl _
  | cons a rest ih =>
    cases here : q a with
    | true => simpa [here] using ih
    | false => simp [here]

private theorem flatMap_parts {A B : Type*} {f g : A → List B} {l : List A} (sub : ∀ a ∈ l, (f a).Sublist (g a))
    (whole : (l.flatMap f).length = (l.flatMap g).length) : ∀ a ∈ l, f a = g a := by
  induction l with
  | nil => exact fun _ member => nomatch member
  | cons a rest ih =>
    obtain ⟨first,others⟩ := List.forall_mem_cons.mp sub
    simp only [List.flatMap_cons,List.length_append] at whole
    have less := first.length_le
    have less' : (rest.flatMap f).length ≤ (rest.flatMap g).length := by
      clear ih whole less first sub
      induction rest with
      | nil => exact Nat.le_refl _
      | cons b rest ih =>
        obtain ⟨second,others⟩ := List.forall_mem_cons.mp others
        simp only [List.flatMap_cons,List.length_append]
        exact Nat.add_le_add second.length_le (ih others)
    exact List.forall_mem_cons.mpr ⟨first.eq_of_length (by omega),ih others (by omega)⟩

section
variable {p : Program} {isCall : p.Block → Bool} {c : List (Fin p.cfgs)} {b : p.Block}

theorem inlined_sublist : (inlined isCall c b).Sublist ((called b).filter (· ∉ c)) := by
  unfold inlined
  split
  · exact takeWhile_sublist_filter _ _
  · exact List.nil_sublist _

theorem mem_inlined {callee : Fin p.cfgs} (member : callee ∈ inlined isCall c b) : callee ∈ called b ∧ callee ∉ c := by
  simpa using inlined_sublist.subset member

theorem inlined_eq : inlined isCall c b = (called b).filter (· ∉ c) ↔
    (called b).Pairwise (fun first second => first ∈ c → second ∈ c) ∧ (isCall b = false → ∀ callee ∈ called b, callee ∈ c) := by
  cases call : isCall b with
  | true => simp [inlined,call,takeWhile_eq_filter]
  | false =>
    have none : inlined isCall c b = [] := by simp [inlined,call]
    rw [none,eq_comm,List.filter_eq_nil_iff]
    simp only [decide_not,Bool.not_eq_true',decide_eq_false_iff_not,not_not,forall_const]
    exact ⟨fun all => ⟨List.pairwise_of_forall_mem_list fun _ _ second member _ => all second member,all⟩,fun all => all.2⟩

end

section
variable {p : Program}

theorem inLoop_enclosing {b h : p.Block} (inside : p.enclosing b = some h) : p.InLoop h b ∧ Innermost h b := by
  obtain ⟨x,found,rfl⟩ := Option.map_eq_some_iff.mp inside
  refine ⟨Program.inLoop_enclosing inside,b.2,rfl,?_⟩
  rcases enclosing_right (p.scanned b.1) (Program.picked b.1) b.2 with ⟨h,known,encloses⟩ | ⟨none,-⟩
  · rw [found] at known
    exact Option.some.inj known ▸ encloses
  · rw [found] at none
    cases none

theorem inLoop_of_none {b h : p.Block} (none : p.enclosing b = none) (inside : p.InLoop h b) : h = b := by
  obtain ⟨x,rfl,inside⟩ := inside
  rcases enclosing_right (p.scanned h.1) (Program.picked h.1) x with ⟨k,known,-⟩ | ⟨-,alone⟩
  · simp [Program.enclosing,known] at none
  · by_contra other
    exact alone ⟨h.2,inside,fun same => other (by rw [← same])⟩

theorem loopHeader_iff_inLoop {h : p.Block} : p.loopHeader h = true ↔ p.InLoop h h := by
  refine ⟨Program.inLoop_self,?_⟩
  rintro ⟨x,same,inside⟩
  exact (loopHeader_iff (Program.exact_ h.1)).mpr inside.1

theorem enclosing_induction (holds : p.Block → Prop) (step : ∀ b, (∀ h, p.enclosing b = some h → holds h) → holds b)
    (b : p.Block) : holds b := by
  suffices all : ∀ size (b : p.Block), ((p.dom b.1).reverseDom b.2).card < size → holds b from
    all _ b (Nat.lt_succ_self _)
  intro size
  induction size with
  | zero => exact fun b few => absurd few (Nat.not_lt_zero _)
  | succ size ih =>
    intro b few
    refine step b fun h inside => ih h ?_
    obtain ⟨x,found,rfl⟩ := Option.map_eq_some_iff.mp inside
    have body := enclosing_body (Program.picked b.1) found
    have dominators := (Program.exact_ b.1).dominators
    have reachable := header_reachable (p.scanned b.1) body.header
    refine Nat.lt_of_lt_of_le (Finset.card_lt_card ?_) (Nat.le_of_lt_succ few)
    refine Finset.ssubset_iff_subset_ne.mpr ⟨fun a member => ?_,fun same => ?_⟩
    · exact (dominators a b.2).mpr (((dominators a x).mp member).trans body.dominates)
    · have self : b.2 ∈ (p.dom b.1).reverseDom x := by
        rw [same]
        exact (dominators b.2 b.2).mpr (FlowGraph.dominates_refl _)
      exact body.ne (FlowGraph.Dominates.antisymm reachable ((dominators b.2 x).mp self) body.dominates)

end

section
variable {p : Program} {isCall : p.Block → Bool} {m : Memory p} {w : Nat} (complete : Complete isCall m w)
include complete

variable {k : Option p.Block}

theorem Complete.unique {x y : Nat} (one : m.Slot w k x) (two : m.Slot w k y) : x = y := by
  cases k with
  | none => exact one.trans two.symm
  | some h =>
    obtain ⟨header,inside⟩ := complete.header h x one
    exact (complete.loop h header inside).unique one two

theorem Complete.child {k : Option p.Block} {x y : Nat} (slot : m.Slot w k x) (member : y ∈ (m.node x).children)
    (loop : m.isLoop y = true) : m.Slot w (some (m.node y).bb) y := by
  obtain ⟨made,parent⟩ := (complete.filled k x slot).parents y member
  exact ⟨made,loop,parent,rfl⟩

theorem Complete.child_key {x y : Nat} (slot : m.Slot w k x) (member : y ∈ (m.node x).children)
    (loop : m.isLoop y = true) : p.enclosing (m.node y).bb = k := by
  have listed : (m.node y).bb ∈ loopsIn (blocks p (m.node w).cfg) k := by
    rw [← (complete.filled k x slot).loops]
    exact List.mem_map.mpr ⟨y,List.mem_filter.mpr ⟨member,loop⟩,rfl⟩
  simpa using (Bool.and_eq_true_iff.mp (List.mem_filter.mp listed).2).2

theorem Complete.child_call {x y : Nat} (slot : m.Slot w k x) (member : y ∈ (m.node x).children)
    (function : m.isLoop y = false) : ∃ b ∈ (m.node x).bbs, (m.node y).cfg ∈ inlined isCall (m.context w) b := by
  have filled := complete.filled k x slot
  have listed : (m.node y).cfg ∈ (m.node x).bbs.flatMap (inlined isCall (m.context w)) := by
    rw [filled.bbs,← filled.calls]
    exact List.mem_map.mpr ⟨y,List.mem_filter.mpr ⟨member,by simp [function]⟩,rfl⟩
  exact List.mem_flatMap.mp listed

theorem Complete.mem_bbs {x : Nat} (slot : m.Slot w k x) {b : p.Block} :
    b ∈ (m.node x).bbs ↔ k = some b ∨ b.1 = (m.node w).cfg ∧ p.loopHeader b = false ∧ p.enclosing b = k := by
  rw [(complete.filled k x slot).bbs,List.mem_append,Option.mem_toList]
  simp [plainIn]

theorem Complete.bbs_inside {x : Nat} (slot : m.Slot w k x) {b : p.Block}
    (listed : b ∈ (m.node x).bbs) : b.1 = (m.node w).cfg := by
  rcases (complete.mem_bbs slot).mp listed with rfl | ⟨inside,-,-⟩
  · exact (complete.header b x slot).2
  · exact inside

theorem Complete.hierarchy_header {h : p.Block} (header : p.loopHeader h = true) (inside : h.1 = (m.node w).cfg) :
    ∃ x, m.Slot w (some h) x ∧ Hierarchy m w x := by
  revert header inside
  refine enclosing_induction (fun h => p.loopHeader h = true → h.1 = (m.node w).cfg →
    ∃ x, m.Slot w (some h) x ∧ Hierarchy m w x) (fun h outer header inside => ?_) h
  obtain ⟨y,slot,above⟩ : ∃ y, m.Slot w (p.enclosing h) y ∧ Hierarchy m w y := by
    cases enclosing : p.enclosing h with
    | none => exact ⟨w,rfl,.function⟩
    | some k =>
      obtain ⟨header',same,-⟩ := enclosing_header enclosing
      exact outer k enclosing header' (same.trans inside)
  have listed : h ∈ loopsIn (blocks p (m.node w).cfg) (p.enclosing h) :=
    List.mem_filter.mpr ⟨mem_blocks.mpr inside,by simp [header]⟩
  rw [← (complete.filled _ y slot).loops] at listed
  obtain ⟨x,child,rfl⟩ := List.mem_map.mp listed
  obtain ⟨member,loop⟩ := List.mem_filter.mp child
  exact ⟨x,complete.child slot member loop,above.loop member loop⟩

theorem Complete.hierarchy_iff {x : Nat} : Hierarchy m w x ↔ ∃ k, m.Slot w k x := by
  constructor
  · intro above
    induction above with
    | function => exact ⟨none,rfl⟩
    | loop _ member loop ih =>
      obtain ⟨k,slot⟩ := ih
      exact ⟨_,complete.child slot member loop⟩
  · rintro ⟨k,slot⟩
    cases k with
    | none =>
      obtain rfl : x = w := slot
      exact .function
    | some h =>
      obtain ⟨header,inside⟩ := complete.header h x slot
      obtain ⟨y,other,above⟩ := complete.hierarchy_header header inside
      exact complete.unique other slot ▸ above

theorem Complete.block {b : p.Block} (inside : b.1 = (m.node w).cfg) : ∃! x, Hierarchy m w x ∧ b ∈ (m.node x).bbs := by
  cases header : p.loopHeader b with
  | true =>
    obtain ⟨x,slot,above⟩ := complete.hierarchy_header header inside
    refine ⟨x,⟨above,(complete.mem_bbs slot).mpr (.inl rfl)⟩,fun y found => ?_⟩
    obtain ⟨k,other⟩ := complete.hierarchy_iff.mp found.1
    rcases (complete.mem_bbs other).mp found.2 with rfl | ⟨-,plain,-⟩
    · exact complete.unique other slot
    · exact absurd (header.symm.trans plain) (by simp)
  | false =>
    obtain ⟨x,slot,above⟩ : ∃ x, m.Slot w (p.enclosing b) x ∧ Hierarchy m w x := by
      cases enclosing : p.enclosing b with
      | none => exact ⟨w,rfl,.function⟩
      | some k =>
        obtain ⟨header',same,-⟩ := enclosing_header enclosing
        exact complete.hierarchy_header header' (same.trans inside)
    refine ⟨x,⟨above,(complete.mem_bbs slot).mpr (.inr ⟨inside,header,rfl⟩)⟩,fun y found => ?_⟩
    obtain ⟨k,other⟩ := complete.hierarchy_iff.mp found.1
    rcases (complete.mem_bbs other).mp found.2 with rfl | ⟨-,-,rfl⟩
    · exact absurd (header.symm.trans (complete.header b y other).1) (by simp)
    · exact complete.unique other slot

theorem Complete.header_unique {h : p.Block} (inside : h.1 = (m.node w).cfg) (header : p.InLoop h h) (plain : m.isLoop w = false) :
    ∃! x, Hierarchy m w x ∧ m.isLoop x = true ∧ (m.node x).bb = h := by
  obtain ⟨x,slot,above⟩ := complete.hierarchy_header (loopHeader_iff_inLoop.mpr header) inside
  refine ⟨x,⟨above,slot.2.1,slot.2.2.2⟩,?_⟩
  rintro y ⟨found,loop,rfl⟩
  obtain ⟨k,other⟩ := complete.hierarchy_iff.mp found
  cases k with
  | none =>
    obtain rfl : y = w := other
    exact absurd (plain.symm.trans loop) (by simp)
  | some h =>
    rw [other.2.2.2] at slot
    exact complete.unique other slot

end

/-! ### The whole tree -/

section
variable {p : Program} {isCall : p.Block → Bool} {m : Memory p} {root : Nat}

variable (isCall) in
/-- What the constructor leaves for the first CFG. -/
structure Whole (m : Memory p) (root : Nat) : Prop where
  ordered : m.Ordered
  made : root < m.count
  function : m.isLoop root = false
  context : m.context root = [p.entryCFG]
  complete : ∀ w < m.count, m.isLoop w = false → Complete isCall m w

theorem Below.hierarchy {w x : Nat} (below : Below m root w) (above : Hierarchy m w x) : Below m root x := by
  induction above with
  | function => exact below
  | loop _ member _ ih => exact .child ih member

theorem Whole.context_slot (whole : Whole isCall m root) {w x : Nat} {k : Option p.Block} (slot : m.Slot w k x) :
    m.context x = m.context w := by
  cases k with
  | none =>
    obtain rfl : x = w := slot
    rfl
  | some h => exact Memory.context_loop whole.ordered slot.1 slot.2.1 slot.2.2.1

theorem Whole.below (whole : Whole isCall m root) {x : Nat} (below : Below m root x) :
    ∃ w k, Below m root w ∧ w < m.count ∧ m.isLoop w = false ∧ m.Slot w k x ∧ Context p (m.context w) ∧
      m.context x = m.context w ∧ ∃ c, m.context w = (m.node w).cfg :: c := by
  induction below with
  | root =>
    have self : (m.node root).cfg = p.entryCFG := by
      have context := whole.context
      cases above : (m.node root).parent with
      | none =>
        rw [Memory.context_root whole.function above] at context
        exact (List.cons.inj context).1
      | some j =>
        rw [Memory.context_function whole.ordered whole.made whole.function above] at context
        exact (List.cons.inj context).1
    exact ⟨root,none,.root,whole.made,whole.function,rfl,whole.context ▸ .entry,rfl,[],by rw [whole.context,self]⟩
  | @child x y below member ih =>
    obtain ⟨w,k,belowW,made,function,slot,context,-,c,same⟩ := ih
    have complete := whole.complete w made function
    obtain ⟨madeY,parent⟩ := (complete.filled k x slot).parents y member
    cases loop : m.isLoop y with
    | true =>
      refine ⟨w,_,belowW,made,function,complete.child slot member loop,context,?_,c,same⟩
      exact Memory.context_loop whole.ordered madeY loop parent
    | false =>
      have next := Memory.context_function whole.ordered madeY loop parent
      obtain ⟨b,listed,callee⟩ := complete.child_call slot member loop
      have inside := complete.bbs_inside slot listed
      have called := mem_inlined callee
      refine ⟨y,none,.child below member,madeY,loop,rfl,?_,rfl,m.context w,next⟩
      rw [same,← inside] at context called
      rw [next,same,← inside]
      exact .call context called.1 called.2

variable (isCall) in
/-- Each function in its context has what the constructor needs. -/
def AllPlain : Prop := ∀ c, Context p c → ∀ b : p.Block, c.head? = some b.1 → Plain isCall c b

theorem Complete.inLoop {w x : Nat} {k : Option p.Block} (complete : Complete isCall m w) (slot : m.Slot w k x)
    {h b : p.Block} (loop : k = some h) (listed : b ∈ (m.node x).bbs) : p.InLoop h b := by
  subst loop
  rcases (complete.mem_bbs slot).mp listed with same | ⟨-,-,inside⟩
  · obtain rfl := Option.some.inj same
    exact loopHeader_iff_inLoop.mp (complete.header h x slot).1
  · exact (inLoop_enclosing inside).1

theorem Whole.right_of_plain (whole : Whole isCall m root) (plain : AllPlain (p := p) isCall) : Right m root where
  blocks := by
    intro w below function b inside
    obtain ⟨w',k,-,made,-,slot,-⟩ := whole.below below
    cases k with
    | none =>
      obtain rfl : w = w' := slot
      exact (whole.complete w made function).block inside
    | some h => exact absurd (function.symm.trans slot.2.1) (by simp)
  headers := by
    intro w below function h inside header
    obtain ⟨w',k,-,made,-,slot,-⟩ := whole.below below
    cases k with
    | none =>
      obtain rfl : w = w' := slot
      exact (whole.complete w made function).header_unique inside header function
    | some h => exact absurd (function.symm.trans slot.2.1) (by simp)
  loops := by
    intro y below x member loop
    obtain ⟨w,k,-,made,function,slot,-⟩ := whole.below below
    have key := (whole.complete w made function).child_key slot member loop
    cases k with
    | none =>
      obtain rfl : y = w := slot
      exact ⟨fun known => absurd (function.symm.trans known) (by simp),fun _ h => inLoop_of_none key⟩
    | some h =>
      rw [← slot.2.2.2] at key
      exact ⟨fun _ => (inLoop_enclosing key).2,fun known => absurd (slot.2.1.symm.trans known) (by simp)⟩
  parents := by
    intro y below x member
    obtain ⟨w,k,-,made,function,slot,context,-,c,same⟩ := whole.below below
    have complete := whole.complete w made function
    have self (b : p.Block) (inside : b.1 = (m.node w).cfg) : Plain isCall (m.context w) b :=
      plain _ context b (by rw [same,inside]; rfl)
    suffices top : k = none by
      subst top
      obtain rfl : y = w := slot
      exact ((complete.filled none y rfl).parents x member).2
    cases known : k with
    | none => rfl
    | some h =>
      exfalso
      cases loop : m.isLoop x with
      | true =>
        have child := complete.child slot member loop
        have key := complete.child_key slot member loop
        rw [known] at key
        obtain ⟨header,inside⟩ := complete.header _ x child
        have alone := (self _ inside).flat header h (inLoop_enclosing key).1
        exact (enclosing_header key).2.2 alone
      | false =>
        obtain ⟨b,listed,callee⟩ := complete.child_call slot member loop
        obtain ⟨called,fresh⟩ := mem_inlined callee
        exact fresh ((self b (complete.bbs_inside slot listed)).outside ⟨h,complete.inLoop slot known listed⟩ _ called)
  calls := by
    intro y below
    obtain ⟨w,k,-,made,function,slot,context,same,c,head⟩ := whole.below below
    have complete := whole.complete w made function
    have filled := complete.filled k y slot
    rw [filled.calls,← filled.bbs,same]
    refine .of_eq (List.flatMap_congr fun b listed => inlined_eq.mpr ?_)
    have self := plain _ context b (by rw [head,complete.bbs_inside slot listed]; rfl)
    exact ⟨self.order,self.marked⟩

section Converse
variable (whole : Whole isCall m root) (right : Right m root)
include whole right

theorem Whole.all_inlined {y : Nat} (below : Below m root y) :
    ∀ b ∈ (m.node y).bbs, inlined isCall (m.context y) b = (called b).filter (· ∉ m.context y) := by
  obtain ⟨w,k,-,made,function,slot,-,same,-⟩ := whole.below below
  have filled := (whole.complete w made function).filled k y slot
  refine flatMap_parts (fun b _ => inlined_sublist) ?_
  have calls := (right.calls y below).length_eq
  rw [filled.calls,← filled.bbs,← same] at calls
  exact calls

theorem Whole.function_of_context {c : List (Fin p.cfgs)} (context : Context p c) :
    ∃ w, Below m root w ∧ w < m.count ∧ m.isLoop w = false ∧ m.context w = c ∧ c.head? = some (m.node w).cfg := by
  have headed {w : Nat} (below : Below m root w) (function : m.isLoop w = false) :
      (m.context w).head? = some (m.node w).cfg := by
    obtain ⟨w',k,-,-,-,slot,-,-,c,same⟩ := whole.below below
    cases k with
    | none =>
      obtain rfl : w = w' := slot
      rw [same]
      rfl
    | some h => exact absurd (function.symm.trans slot.2.1) (by simp)
  induction context with
  | entry => exact ⟨root,.root,whole.made,whole.function,whole.context,whole.context ▸ headed .root whole.function⟩
  | @call c b callee context known fresh ih =>
    obtain ⟨w,below,made,function,same,head⟩ := ih
    have complete := whole.complete w made function
    obtain ⟨x,⟨above,listed⟩,-⟩ := complete.block (Option.some.inj head)
    obtain ⟨k,slot⟩ := complete.hierarchy_iff.mp above
    have belowX := below.hierarchy above
    have sameX := whole.context_slot slot
    have among : callee ∈ (m.node x).bbs.flatMap fun b => (called b).filter (· ∉ m.context x) := by
      refine List.mem_flatMap.mpr ⟨b,listed,List.mem_filter.mpr ⟨known,?_⟩⟩
      rw [sameX,same]
      exact decide_eq_true fresh
    obtain ⟨y,child,rfl⟩ := List.mem_map.mp ((right.calls x belowX).mem_iff.mpr among)
    obtain ⟨member,functionY⟩ := List.mem_filter.mp child
    have functionY : m.isLoop y = false := by simpa using functionY
    obtain ⟨madeY,parent⟩ := (complete.filled k x slot).parents y member
    have belowY := belowX.child member
    have contextY := Memory.context_function whole.ordered madeY functionY parent
    rw [same] at contextY
    exact ⟨y,belowY,madeY,functionY,contextY,contextY ▸ headed belowY functionY⟩

theorem Whole.plain_of_right : AllPlain (p := p) isCall := by
  intro c context b inside
  obtain ⟨w,below,made,function,rfl,head⟩ := whole.function_of_context right context
  have complete := whole.complete w made function
  have self : b.1 = (m.node w).cfg := Option.some.inj (inside.symm.trans head)
  obtain ⟨x,⟨above,listed⟩,-⟩ := complete.block self
  obtain ⟨k,slot⟩ := complete.hierarchy_iff.mp above
  have belowX := below.hierarchy above
  -- a child of a loop has the function as its parent, and not the loop
  have leaf {h : p.Block} {y : Nat} (slot : m.Slot w (some h) y) : (m.node y).children = [] := by
    refine List.eq_nil_iff_forall_not_mem.mpr fun z member => ?_
    have parent := ((complete.filled _ y slot).parents z member).2
    have belowY := below.hierarchy (complete.hierarchy_iff.mpr ⟨_,slot⟩)
    obtain rfl := Option.some.inj (parent.symm.trans (right.parents y belowY z member))
    exact absurd (function.symm.trans slot.2.1) (by simp)
  have all := whole.all_inlined right belowX b listed
  rw [whole.context_slot slot] at all
  refine ⟨fun header h around => ?_,?_,(inlined_eq.mp all).1,(inlined_eq.mp all).2⟩
  · cases enclosing : p.enclosing b with
    | none => exact inLoop_of_none enclosing around
    | some outer =>
      exfalso
      obtain ⟨outerHeader,same,-⟩ := enclosing_header enclosing
      obtain ⟨y,slotY,-⟩ := complete.loop outer outerHeader (same.trans self)
      have among : b ∈ loopsIn (blocks p (m.node w).cfg) (some outer) :=
        List.mem_filter.mpr ⟨mem_blocks.mpr self,by simp [header,enclosing]⟩
      rw [← (complete.filled _ y slotY).loops,leaf slotY] at among
      cases among
  · rintro ⟨h,around⟩ callee known
    by_contra fresh
    cases k with
    | none =>
      rcases (complete.mem_bbs slot).mp listed with same | ⟨-,plain,enclosing⟩
      · cases same
      · obtain rfl := inLoop_of_none enclosing around
        exact absurd (plain.symm.trans (loopHeader_iff_inLoop.mpr around)) (by simp)
    | some outer =>
      have among : callee ∈ inlined isCall (m.context w) b := by
        rw [all]
        exact List.mem_filter.mpr ⟨known,decide_eq_true fresh⟩
      have filled := complete.filled _ x slot
      have some_ : callee ∈ (m.node x).bbs.flatMap (inlined isCall (m.context w)) := List.mem_flatMap.mpr ⟨b,listed,among⟩
      rw [filled.bbs,← filled.calls,leaf slot] at some_
      cases some_

end Converse

end

/-- The construction ends, and the tree has the documented shape exactly when each function
    has what the constructor needs in each of its contexts. -/
theorem tree_right_iff (p : Program) (isCall : p.Block → Bool) {fuel : Nat} (enough : p.cfgs ≤ fuel) :
    ∃ m root, contextTree p isCall fuel = some (m,root) ∧ (Right m root ↔ AllPlain isCall) := by
  obtain ⟨m,built,constructed⟩ : ∃ m, construct p isCall fuel p.entryCFG none true (start p) = some (m,(start p).count) ∧
      Constructed isCall (start p) p.entryCFG none m := construct_spec
    ⟨fun i none => absurd none (Nat.not_lt_zero i),fun i none => absurd none (Nat.not_lt_zero i)⟩
    (fun _ none => nomatch none) List.nodup_nil List.not_mem_nil enough
  obtain ⟨function,self,parent⟩ := constructed.root
  have context : m.context 0 = [(m.node 0).cfg] := Memory.context_root function parent
  have whole : Whole isCall m 0 :=
    { ordered := constructed.ordered
      made := constructed.made
      function
      context := context.trans (congrArg (fun cfg => [cfg]) self)
      complete := fun w made plain => constructed.complete w (Nat.zero_le w) made plain }
  exact ⟨m,0,built,whole.plain_of_right,whole.right_of_plain⟩

private theorem dominance_of_scanned {n m : Nat} {g : CFG n m} (scanned : g.Scanned) : (processDominance g).isSome := by
  obtain ⟨info,processed,-⟩ := processDominance_exact scanned.connected
  rw [processed]
  rfl

private theorem loopInfo_of_scanned {n m : Nat} {g : CFG n m} (scanned : g.Scanned) :
    (processLoopInfo g ((processDominance g).get (dominance_of_scanned scanned))).isSome := by
  obtain ⟨dom,processed,exact_⟩ := processDominance_exact scanned.connected
  obtain ⟨info,found,-⟩ := processLoopInfo_picked exact_ scanned
  rw [Option.get_of_eq_some (dominance_of_scanned scanned) processed,found]
  rfl

abbrev uniform {n m : Nat} (cfgs : Nat) (entry : Fin cfgs) (g : CFG n m) (exit : Fin n) (scanned : g.Scanned)
    (calledCFG : Fin cfgs → Fin m → Option (Fin cfgs)) : Program where
  cfgs
  blocks _ := n
  edges _ := m
  cfg _ := g
  exit _ := exit
  calledCFG
  entryCFG := entry
  dom _ := (processDominance g).get (dominance_of_scanned scanned)
  loops _ := (processLoopInfo g ((processDominance g).get (dominance_of_scanned scanned))).get (loopInfo_of_scanned scanned)
  scanned _ := scanned
  dominance _ := (Option.some_get _).symm
  loopInfo _ := (Option.some_get _).symm

attribute [local instance] neZero_two neZero_three neZero_four neZero_five neZero_six

def twoCalls : CFG 3 4 :=
  ⟨0,![0,1,1,1],![1,2,0,0],![.virtual,.virtual,.call,.call]⟩

private theorem scanned_twoCalls : twoCalls.Scanned where
  entryFirst := by decide
  connected e _ := by
    have first : twoCalls.Reachable 1 := FlowGraph.reachable_root.step ⟨0,by decide,rfl,rfl⟩
    match e with
    | 0 => exact FlowGraph.reachable_root
    | 1 | 2 | 3 => exact first

abbrev callsItself : Program := uniform 2 0 twoCalls 2 scanned_twoCalls ![![none,none,some 0,some 1],fun _ => none]

private theorem callsItself_blocks (b : callsItself.Block) :
    callsItself.loopHeader b = false ∧ callsItself.enclosing b = none ∧
      (called b = [] ∨ b.1 = (0 : Fin 2) ∧ called b = ([1,0] : List (Fin 2))) := by
  have all : ∀ (f : Fin 2) (x : Fin 3), callsItself.loopHeader ⟨f,x⟩ = false ∧ callsItself.enclosing ⟨f,x⟩ = none ∧
      (called (p := callsItself) ⟨f,x⟩ = [] ∨ f = 0 ∧ called (p := callsItself) ⟨f,x⟩ = ([1,0] : List (Fin 2))) := by
    decide +kernel
  exact all b.1 b.2

private theorem callsItself_contexts {c : List (Fin callsItself.cfgs)} (context : Context callsItself c) :
    c = ([0] : List (Fin 2)) ∨ c = ([1,0] : List (Fin 2)) := by
  induction context with
  | entry => exact .inl rfl
  | @call c b callee context known fresh ih =>
    rcases (callsItself_blocks b).2.2 with none | ⟨self,both⟩
    · rw [none] at known
      cases known
    · rw [both] at known
      rcases ih with same | same
      · obtain ⟨-,rfl⟩ := List.cons.inj same
        rw [self] at fresh ⊢
        rcases List.mem_cons.mp known with rfl | known
        · exact .inr rfl
        · exact absurd (List.mem_singleton.mp known ▸ List.mem_cons_self) fresh
      · exact absurd (self.symm.trans (List.cons.inj same).1) (by decide)

theorem tree_right_iff_callsItself : ∃ m root, contextTree callsItself (fun _ => true) 2 = some (m,root) ∧ Right m root := by
  obtain ⟨m,root,built,iff⟩ := tree_right_iff callsItself (fun _ => true) (Nat.le_refl 2)
  refine ⟨m,root,built,iff.mpr fun c context b _ => ?_⟩
  obtain ⟨plain,none,calls⟩ := callsItself_blocks b
  have alone {h : callsItself.Block} (around : callsItself.InLoop h b) : h = b := inLoop_of_none none around
  refine ⟨fun _ h => alone,?_,?_,fun no => nomatch no⟩
  · rintro ⟨h,around⟩
    obtain rfl := alone around
    exact absurd (plain.symm.trans (loopHeader_iff_inLoop.mpr around)) (by simp)
  · rcases calls with none | ⟨-,both⟩
    · simp [none]
    · rw [both]
      rcases callsItself_contexts context with rfl | rfl <;> decide

abbrev nested : Program := uniform 1 0 twoLoops 4 scanned_twoLoops fun _ _ => none

/-- The tree of the inner loop is a child of the one of the outer loop, but its parent
    is the root. -/
theorem inner_parent_wrong : FlowGraph.Reducible twoLoops.Flow twoLoops.entry ∧
    ¬ ∀ fuel m root, contextTree nested (fun _ => false) fuel = some (m,root) → Right m root := by
  refine ⟨reducible_twoLoops,fun always => ?_⟩
  have runs : (contextTree nested (fun _ => false) 1).map (fun r =>
      ((r.1.node 0).children,(r.1.node 1).children,(r.1.node 2).parent,r.2)) = some ([1],[2],some 0,0) := by decide +kernel
  obtain ⟨⟨m,root⟩,built,shape⟩ := Option.map_eq_some_iff.mp runs
  simp only [Prod.mk.injEq] at shape
  obtain ⟨outer,inner,parent,rfl⟩ := shape
  have right := always 1 m 0 built
  have below : Below m 0 1 := .child .root (outer ▸ List.mem_cons_self)
  have wrong := right.parents 1 below 2 (inner ▸ List.mem_cons_self)
  rw [parent] at wrong
  cases wrong

end Otawa.ContextTree
