import Otawa.FastLoad
import Mathlib.Data.Fintype.Basic
import Mathlib.Data.Set.Insert

/-!
The states of `dfa::FastState` as they lie in the heap, with the addresses of their
register tables, register blocks and nodes, which `join`, `combine`, `equals` and `map`
compare instead of the contents. The contents must not depend on what is shared.
-/
namespace Otawa.FastState.Sharing
open Otawa.FastState (Address Domain lattice)

variable {V : Type} {k : Nat}

/-! ### Objects -/

structure Block (V : Type) where
  addr : Nat
  values : Fin 8 → V
  deriving DecidableEq

/-- `value_t **`: k register blocks. -/
structure Table (V : Type) (k : Nat) where
  addr : Nat
  blocks : Fin k → Block V

/-- `node_t`; a pointer to it is the list from it on. -/
structure Node (V : Type) where
  addr : Nat
  a : Address
  v : V
  deriving DecidableEq

def Ascending (mem : List (Node V)) : Prop := mem.Pairwise fun x y => x.a < y.a

/-- `state_t`. -/
structure State (V : Type) (k : Nat) where
  addr : Nat
  regs : Table V k
  mem : List (Node V)
  ascending : Ascending mem

def samePtr (l1 l2 : List (Node V)) : Bool := (l1.head?.map Node.addr) == (l2.head?.map Node.addr)

/-- The objects of two states that have one address are one object. -/
structure Consistent (s1 s2 : State V k) : Prop where
  state : s1.addr = s2.addr → s1 = s2
  table : s1.regs.addr = s2.regs.addr → s1.regs = s2.regs
  block : ∀ i j, (s1.regs.blocks i).addr = (s2.regs.blocks j).addr → s1.regs.blocks i = s2.regs.blocks j
  node : ∀ l1 l2, l1 <:+ s1.mem → l2 <:+ s2.mem → samePtr l1 l2 = true → l1 = l2

def Shared (states : Set (State V k)) : Prop := ∀ s1 ∈ states, ∀ s2 ∈ states, Consistent s1 s2

/-- `get`, with its assertion. -/
def State.get (s : State V k) (r : Nat) : Option V :=
  if inside : r < k * 8 then
    some ((s.regs.blocks ⟨r / 8,by omega⟩).values ⟨r % 8,Nat.mod_lt r (by decide)⟩)
  else none

def cells (mem : List (Node V)) : List (Address × V) := mem.map fun x => (x.a,x.v)

def State.SameContents (s1 s2 : State V k) : Prop :=
  (∀ i j, (s1.regs.blocks i).values j = (s2.regs.blocks i).values j) ∧ cells s1.mem = cells s2.mem

structure Manager (V : Type) (k : Nat) where
  dom : Domain V
  bot : State V k
  top : State V k

/-- `make`; its parameter is not read. -/
def make (dom : Domain V) (alloc : Nat) (_bot : Bool) : State V k :=
  ⟨alloc + k + 1,⟨alloc,fun i => ⟨alloc + 1 + i,fun _ => dom.bot⟩⟩,[],List.Pairwise.nil⟩

/-- The constructor, which makes `bot` and `top` one after the other. -/
def Manager.create (dom : Domain V) (alloc : Nat) : Manager V k := ⟨dom,make dom alloc true,make dom (alloc + k + 2) false⟩

/-- The search of `load`. -/
def find (dom : Domain V) (a : Address) : List (Node V) → V
  | [] => dom.top
  | cur :: rest => if cur.a = a then cur.v else find dom a rest

def Manager.load (man : Manager V k) (s : State V k) (a : Address) : V :=
  if s.addr = man.bot.addr then man.dom.bot else find man.dom a s.mem

def mergeMem (process : V → V → V) (alloc : Nat) (cur1 cur2 : List (Node V)) : List (Node V) :=
  if samePtr cur1 cur2 then cur1
  else
    match cur1,cur2 with
    | n1 :: rest1,n2 :: rest2 =>
      if n1.a = n2.a then ⟨alloc,n1.a,process n1.v n2.v⟩ :: mergeMem process (alloc + 1) rest1 rest2
      else if n1.a < n2.a then mergeMem process alloc rest1 (n2 :: rest2)
      else mergeMem process alloc (n1 :: rest1) rest2
    | _,_ => []
termination_by cur1.length + cur2.length

def mergeRegs (process : V → V → V) (alloc : Nat) (t1 t2 : Table V k) : Table V k :=
  if t1.addr = t2.addr then t1
  else ⟨alloc,fun i =>
    if (t1.blocks i).addr = (t2.blocks i).addr then t1.blocks i
    else ⟨alloc + 1 + i,fun j => process ((t1.blocks i).values j) ((t2.blocks i).values j)⟩⟩

theorem mem_mergeMem {process : V → V → V} {alloc : Nat} {cur1 cur2 : List (Node V)} {x : Node V}
    (member : x ∈ mergeMem process alloc cur1 cur2) : ∃ y ∈ cur1, y.a = x.a := by
  revert member
  fun_induction mergeMem process alloc cur1 cur2 with
  | case1 alloc cur1 cur2 same => exact fun member => ⟨x,member,rfl⟩
  | case2 alloc n1 rest1 n2 rest2 differ same ih =>
    intro member
    rcases List.mem_cons.mp member with rfl | member
    · exact ⟨n1,List.mem_cons_self,rfl⟩
    · obtain ⟨y,inside,equal⟩ := ih member
      exact ⟨y,List.mem_cons_of_mem _ inside,equal⟩
  | case3 alloc n1 rest1 n2 rest2 differ apart less ih =>
    intro member
    obtain ⟨y,inside,equal⟩ := ih member
    exact ⟨y,List.mem_cons_of_mem _ inside,equal⟩
  | case4 alloc n1 rest1 n2 rest2 differ apart less ih => exact ih
  | case5 => exact fun member => absurd member List.not_mem_nil

theorem ascending_mergeMem {process : V → V → V} {alloc : Nat} {cur1 cur2 : List (Node V)} (ascending : Ascending cur1) :
    Ascending (mergeMem process alloc cur1 cur2) := by
  fun_induction mergeMem process alloc cur1 cur2 with
  | case1 alloc cur1 cur2 same => exact ascending
  | case2 alloc n1 rest1 n2 rest2 differ same ih =>
    obtain ⟨above,tail⟩ := List.pairwise_cons.mp ascending
    refine List.pairwise_cons.mpr ⟨fun x member => ?_,ih tail⟩
    obtain ⟨y,inside,equal⟩ := mem_mergeMem member
    exact equal ▸ above y inside
  | case3 alloc n1 rest1 n2 rest2 differ apart less ih => exact ih (List.pairwise_cons.mp ascending).2
  | case4 alloc n1 rest1 n2 rest2 differ apart less ih => exact ih ascending
  | case5 => exact List.Pairwise.nil

/-- What `join` and `combine` do, new objects at the next addresses. -/
def Manager.merge (man : Manager V k) (process : V → V → V) (alloc : Nat) (s1 s2 : State V k) : State V k :=
  if s1.addr = s2.addr then s1
  else if s1.addr = man.top.addr ∨ s2.addr = man.top.addr then man.top
  else if s1.addr = man.bot.addr then s2
  else if s2.addr = man.bot.addr then s1
  else ⟨alloc,mergeRegs process (alloc + 1) s1.regs s2.regs,mergeMem process (alloc + k + 2) s1.mem s2.mem,
    ascending_mergeMem s1.ascending⟩

def Manager.join (man : Manager V k) (alloc : Nat) (s1 s2 : State V k) : State V k := man.merge man.dom.join alloc s1 s2

/-- `combine`, with `process` of the worker. -/
def Manager.combine (man : Manager V k) (process : V → V → V) (alloc : Nat) (s1 s2 : State V k) : State V k :=
  man.merge process alloc s1 s2

/-- The comparison of the lists in `equals`. -/
def equalsMem [DecidableEq V] : List (Node V) → List (Node V) → Bool
  | c1 :: rest1,c2 :: rest2 =>
    if c1.addr = c2.addr then true
    else if c1.a ≠ c2.a ∨ c1.v ≠ c2.v then false
    else equalsMem rest1 rest2
  | c1,c2 => samePtr c1 c2

/-- The comparison of the registers in `equals`. -/
def equalsRegs [DecidableEq V] (t1 t2 : Table V k) : Bool :=
  decide (t1.addr = t2.addr) || decide (∀ i, (t1.blocks i).addr = (t2.blocks i).addr ∨
    ∀ j, (t1.blocks i).values j = (t2.blocks i).values j)

def equals [DecidableEq V] (s1 s2 : State V k) : Bool :=
  decide (s1.addr = s2.addr) || equalsRegs s1.regs s2.regs && (samePtr s1.mem s2.mem || equalsMem s1.mem s2.mem)

section Contents
variable {states : Set (State V k)} {s1 s2 : State V k} {process : V → V → V} {alloc : Nat} {dom : Domain V}

theorem find_of_above {a : Address} {mem : List (Node V)} (above : ∀ x ∈ mem, a < x.a) : find dom a mem = dom.top := by
  induction mem with
  | nil => rfl
  | cons cur rest ih =>
    rw [find,if_neg (above cur List.mem_cons_self).ne']
    exact ih fun x member => above x (List.mem_cons_of_mem _ member)

theorem find_mergeMem {a : Address} {cur1 cur2 : List (Node V)} (shared : ∀ l1 l2, l1 <:+ cur1 → l2 <:+ cur2 → samePtr l1 l2 = true → l1 = l2)
    (ascending1 : Ascending cur1) (ascending2 : Ascending cur2) (idem : ∀ v, process v v = v) :
    find dom a (mergeMem process alloc cur1 cur2) = dom.top ∨
      find dom a (mergeMem process alloc cur1 cur2) = process (find dom a cur1) (find dom a cur2) := by
  fun_induction mergeMem process alloc cur1 cur2 with
  | case1 alloc cur1 cur2 same =>
    obtain rfl := shared cur1 cur2 (List.suffix_refl _) (List.suffix_refl _) same
    exact Or.inr (idem _).symm
  | case2 alloc n1 rest1 n2 rest2 same differ ih =>
    by_cases here : n1.a = a
    · right
      rw [find,find,find,if_pos here,if_pos here,if_pos (same ▸ here)]
    · rw [find,find,find,if_neg here,if_neg here,if_neg (fun other => here (same.trans other))]
      exact ih (fun l1 l2 suffix1 suffix2 => shared l1 l2 (suffix1.trans (List.suffix_cons ..)) (suffix2.trans (List.suffix_cons ..)))
        (List.pairwise_cons.mp ascending1).2 (List.pairwise_cons.mp ascending2).2
  | case3 alloc n1 rest1 n2 rest2 apart less differ ih =>
    obtain ⟨above1,tail1⟩ := List.pairwise_cons.mp ascending1
    obtain ⟨above2,tail2⟩ := List.pairwise_cons.mp ascending2
    have rest := ih (fun l1 l2 suffix => shared l1 l2 (suffix.trans (List.suffix_cons ..))) tail1 ascending2
    by_cases here : n1.a = a
    · left
      refine find_of_above fun x member => ?_
      obtain ⟨y,inside,equal⟩ := mem_mergeMem member
      rw [← here,← equal]
      exact above1 y inside
    · have skip : find dom a (n1 :: rest1) = find dom a rest1 := if_neg here
      rw [skip]
      exact rest
  | case4 alloc n1 rest1 n2 rest2 apart less differ ih =>
    obtain ⟨above1,tail1⟩ := List.pairwise_cons.mp ascending1
    obtain ⟨above2,tail2⟩ := List.pairwise_cons.mp ascending2
    have rest := ih (fun l1 l2 suffix1 suffix2 => shared l1 l2 suffix1 (suffix2.trans (List.suffix_cons ..))) ascending1 tail2
    have greater : n2.a < n1.a := lt_of_le_of_ne (not_lt.mp less) (Ne.symm apart)
    by_cases here : n2.a = a
    · left
      refine find_of_above fun x member => ?_
      obtain ⟨y,inside,equal⟩ := mem_mergeMem member
      rw [← here,← equal]
      rcases List.mem_cons.mp inside with rfl | inside
      · exact greater
      · exact greater.trans (above1 y inside)
    · have skip : find dom a (n2 :: rest2) = find dom a rest2 := if_neg here
      rw [skip]
      exact rest
  | case5 => exact Or.inl rfl

theorem values_mergeRegs {t1 t2 : Table V k} (table : t1.addr = t2.addr → t1 = t2)
    (block : ∀ i j, (t1.blocks i).addr = (t2.blocks j).addr → t1.blocks i = t2.blocks j) (idem : ∀ v, process v v = v)
    (i : Fin k) (j : Fin 8) : ((mergeRegs process alloc t1 t2).blocks i).values j =
      process ((t1.blocks i).values j) ((t2.blocks i).values j) := by
  unfold mergeRegs
  split
  next same => rw [table same,idem]
  next =>
    dsimp only
    split
    next same => rw [block i i same,idem]
    next => rfl

variable [DecidableEq V]

theorem equalsMem_iff {c1 c2 : List (Node V)} (shared : ∀ l1 l2, l1 <:+ c1 → l2 <:+ c2 → samePtr l1 l2 = true → l1 = l2) :
    equalsMem c1 c2 = true ↔ cells c1 = cells c2 := by
  induction c1 generalizing c2 with
  | nil => cases c2 <;> simp [equalsMem,samePtr,cells]
  | cons n1 rest1 ih =>
    cases c2 with
    | nil => simp [equalsMem,samePtr,cells]
    | cons n2 rest2 =>
      have rest := @ih rest2 fun l1 l2 suffix1 suffix2 =>
        shared l1 l2 (suffix1.trans (List.suffix_cons ..)) (suffix2.trans (List.suffix_cons ..))
      rw [equalsMem]
      split
      next same =>
        have equal := shared _ _ (List.suffix_refl _) (List.suffix_refl _) (by simp [samePtr,same])
        simp [equal]
      next =>
        split
        next differ =>
          refine iff_of_false Bool.false_ne_true fun equal => ?_
          obtain ⟨address,value⟩ := Prod.mk.inj (List.cons.inj equal).1
          exact differ.elim (absurd address) (absurd value)
        next same =>
          obtain ⟨address,value⟩ : n1.a = n2.a ∧ n1.v = n2.v := by simpa using same
          rw [rest]
          simp [cells,address,value]

theorem equalsRegs_iff {t1 t2 : Table V k} (table : t1.addr = t2.addr → t1 = t2)
    (block : ∀ i j, (t1.blocks i).addr = (t2.blocks j).addr → t1.blocks i = t2.blocks j) :
    equalsRegs t1 t2 = true ↔ ∀ i j, (t1.blocks i).values j = (t2.blocks i).values j := by
  simp only [equalsRegs,Bool.or_eq_true,decide_eq_true_eq]
  constructor
  · rintro (same | all) i j
    · rw [table same]
    · rcases all i with same | equal
      · rw [block i i same]
      · exact equal j
  · exact fun all => Or.inr fun i => Or.inr (all i)

theorem equals_iff (consistent : Consistent s1 s2) : equals s1 s2 = true ↔ s1.SameContents s2 := by
  have lists : (samePtr s1.mem s2.mem || equalsMem s1.mem s2.mem) = true ↔ cells s1.mem = cells s2.mem := by
    rw [Bool.or_eq_true,equalsMem_iff consistent.node]
    refine or_iff_right_of_imp fun same => ?_
    rw [consistent.node _ _ (List.suffix_refl _) (List.suffix_refl _) same]
  rw [equals,Bool.or_eq_true,decide_eq_true_eq,Bool.and_eq_true,lists,equalsRegs_iff consistent.table consistent.block,
    State.SameContents]
  refine or_iff_right_of_imp fun same => ?_
  rw [consistent.state same]
  exact ⟨fun _ _ => rfl,rfl⟩

end Contents

/-! ### The join -/

section Join
variable [SemilatticeSup V] [BoundedOrder V] [DecidableEq V] {man : Manager V k} {alloc base : Nat}
variable {states : Set (State V k)} {s1 s2 : State V k}

/-- The registers and the loads of a state are above those of two others. -/
def AboveBoth (man : Manager V k) (s s1 s2 : State V k) : Prop :=
  (∀ r v1 v2, s1.get r = some v1 → s2.get r = some v2 → ∃ v, s.get r = some v ∧ v1 ≤ v ∧ v2 ≤ v) ∧
    ∀ a, man.load s1 a ≤ man.load s a ∧ man.load s2 a ≤ man.load s a

/-- The join is above both states, `combine` gives the same values with the join of the
    domain, and `equals` compares the contents. -/
def JoinRight (man : Manager V k) (alloc : Nat) (s1 s2 : State V k) : Prop :=
  AboveBoth man (man.join alloc s1 s2) s1 s2 ∧
  (∀ process : V → V → V, (∀ v u, process v u = v ⊔ u) →
    (∀ r, (man.combine process alloc s1 s2).get r = (man.join alloc s1 s2).get r) ∧
      ∀ a, man.load (man.combine process alloc s1 s2) a = man.load (man.join alloc s1 s2) a) ∧
  (equals s1 s2 = true ↔ s1.SameContents s2)

/-- The top state is joined with itself or with registers that are all bottom. -/
def TopOnce (man : Manager V k) (s1 s2 : State V k) : Prop :=
  s1.addr = man.top.addr ∨ s2.addr = man.top.addr →
    s1.addr = s2.addr ∨ ∀ r v, s1.get r = some v ∨ s2.get r = some v → v = ⊥

omit [SemilatticeSup V] [BoundedOrder V] [DecidableEq V] in
theorem get_isSome (s s' : State V k) {r : Nat} {v : V} (known : s.get r = some v) : ∃ u, s'.get r = some u := by
  unfold State.get at *
  split at known
  next inside => exact ⟨_,dif_pos inside⟩
  next => cases known

omit [SemilatticeSup V] [BoundedOrder V] [DecidableEq V] in
theorem get_make {dom : Domain V} (bot : Bool) {r : Nat} {v : V} (known : (make dom alloc bot : State V k).get r = some v) :
    v = dom.bot := by
  unfold State.get at known
  split at known
  · exact (Option.some.inj known).symm
  · cases known

omit [DecidableEq V] in
theorem aboveBoth_merged (fresh : man.bot.addr ≠ alloc) (lattice_ : man.dom = lattice V) (consistent : Consistent s1 s2)
    (live1 : s1.addr ≠ man.bot.addr) (live2 : s2.addr ≠ man.bot.addr) :
    AboveBoth man ⟨alloc,mergeRegs man.dom.join (alloc + 1) s1.regs s2.regs,mergeMem man.dom.join (alloc + k + 2) s1.mem s2.mem,
      ascending_mergeMem s1.ascending⟩ s1 s2 := by
  have join (v u : V) : man.dom.join v u = v ⊔ u := by rw [lattice_]; rfl
  have idem (v : V) : man.dom.join v v = v := by rw [join,sup_idem]
  constructor
  · intro r v1 v2 known1 known2
    unfold State.get at *
    split at known1
    next inside =>
      rw [dif_pos inside] at known2 ⊢
      refine ⟨_,rfl,?_⟩
      rw [values_mergeRegs consistent.table consistent.block idem,join,← Option.some.inj known1,← Option.some.inj known2]
      exact ⟨le_sup_left,le_sup_right⟩
    next => cases known1
  · intro a
    simp only [Manager.load,if_neg live1,if_neg live2,if_neg fresh.symm]
    have top : man.dom.top = ⊤ := by rw [lattice_]; rfl
    have found : find man.dom a (mergeMem man.dom.join (alloc + k + 2) s1.mem s2.mem) = man.dom.top ∨
        find man.dom a (mergeMem man.dom.join (alloc + k + 2) s1.mem s2.mem) =
          man.dom.join (find man.dom a s1.mem) (find man.dom a s2.mem) :=
      find_mergeMem consistent.node s1.ascending s2.ascending idem
    rcases found with none | both
    · rw [none,top]
      exact ⟨le_top,le_top⟩
    · rw [both,join]
      exact ⟨le_sup_left,le_sup_right⟩

/-- Every state is in one heap with the first ones, at addresses below the next one. -/
structure Lives (man : Manager V k) (states : Set (State V k)) (alloc : Nat) : Prop where
  shared : Shared states
  bot : man.bot ∈ states
  top : man.top ∈ states
  below : ∀ s ∈ states, s.addr < alloc

theorem join_right_iff (lives : Lives (Manager.create (lattice V) base : Manager V k) states alloc) (in1 : s1 ∈ states)
    (in2 : s2 ∈ states) : JoinRight (Manager.create (lattice V) base : Manager V k) alloc s1 s2 ↔
      TopOnce (Manager.create (lattice V) base : Manager V k) s1 s2 := by
  set man : Manager V k := Manager.create (lattice V) base with create
  have combined : ∀ process : V → V → V, (∀ v u, process v u = v ⊔ u) → man.combine process alloc s1 s2 = man.join alloc s1 s2 := by
    intro process join
    have same : process = man.dom.join := by
      funext v u
      exact join v u
    rw [Manager.combine,same,Manager.join]
  have botGet {r : Nat} {v : V} (known : man.bot.get r = some v) : v = ⊥ := get_make true known
  have topGet {r : Nat} {v : V} (known : man.top.get r = some v) : v = ⊥ := get_make false known
  have apart : man.top.addr ≠ man.bot.addr := by
    show base + k + 2 + k + 1 ≠ base + k + 1
    omega
  have topLoad (a : Address) : man.load man.top a = ⊤ := if_neg apart
  have botLoad (a : Address) : man.load man.bot a = ⊥ := if_pos rfl
  have above : AboveBoth man (man.join alloc s1 s2) s1 s2 ↔ TopOnce man s1 s2 := by
    have self (s : State V k) : AboveBoth man s s s :=
      ⟨fun r v1 v2 known1 known2 => ⟨v1,known1,le_refl v1,(Option.some.inj (known2.symm.trans known1)).le⟩,
        fun a => ⟨le_refl _,le_refl _⟩⟩
    unfold TopOnce
    rw [Manager.join,Manager.merge]
    split
    next same =>
      obtain rfl := (lives.shared s1 in1 s2 in2).state same
      exact iff_of_true (self s1) fun _ => Or.inl rfl
    next differ =>
      split
      next some =>
        simp only [some,true_implies,differ,false_or]
        constructor
        · rintro ⟨registers,-⟩ r v known
          rcases known with known | known
          · obtain ⟨u,known2⟩ := get_isSome s1 s2 known
            obtain ⟨w,top,below,-⟩ := registers r v u known known2
            exact le_bot_iff.mp (topGet top ▸ below)
          · obtain ⟨u,known1⟩ := get_isSome s2 s1 known
            obtain ⟨w,top,-,below⟩ := registers r u v known1 known
            exact le_bot_iff.mp (topGet top ▸ below)
        · intro bottoms
          refine ⟨fun r v1 v2 known1 known2 => ?_,fun a => by rw [topLoad]; exact ⟨le_top,le_top⟩⟩
          obtain ⟨u,known⟩ := get_isSome s1 man.top known1
          refine ⟨u,known,?_,?_⟩
          · rw [bottoms r v1 (Or.inl known1)]; exact bot_le
          · rw [bottoms r v2 (Or.inr known2)]; exact bot_le
      next none =>
        refine iff_of_true ?_ fun some => absurd some none
        split
        next bot =>
          obtain rfl := (lives.shared s1 in1 man.bot lives.bot).state bot
          refine ⟨fun r v1 v2 known1 known2 => ⟨v2,known2,?_,le_refl v2⟩,fun a => ⟨?_,le_refl _⟩⟩
          · rw [botGet known1]; exact bot_le
          · rw [botLoad]; exact bot_le
        next live1 =>
          split
          next bot =>
            obtain rfl := (lives.shared s2 in2 man.bot lives.bot).state bot
            refine ⟨fun r v1 v2 known1 known2 => ⟨v1,known1,le_refl v1,?_⟩,fun a => ⟨le_refl _,?_⟩⟩
            · rw [botGet known2]; exact bot_le
            · rw [botLoad]; exact bot_le
          next live2 => exact aboveBoth_merged (lives.below _ lives.bot).ne rfl (lives.shared s1 in1 s2 in2) live1 live2
  rw [← above]
  refine and_iff_left ⟨fun process join => ?_,equals_iff (lives.shared s1 in1 s2 in2)⟩
  rw [combined process join]
  exact ⟨fun _ => rfl,fun _ => rfl⟩

end Join

theorem nodes_of_tails {mem1 mem2 : List (Node V)}
    (tails : ∀ l1 ∈ mem1.tails, ∀ l2 ∈ mem2.tails, samePtr l1 l2 = true → l1 = l2) :
    ∀ l1 l2, l1 <:+ mem1 → l2 <:+ mem2 → samePtr l1 l2 = true → l1 = l2 :=
  fun l1 l2 suffix1 suffix2 => tails l1 ((List.mem_tails ..).mpr suffix1) l2 ((List.mem_tails ..).mpr suffix2)

theorem consistent_self {s : State V k} (block : ∀ i j, (s.regs.blocks i).addr = (s.regs.blocks j).addr → i = j)
    (tails : ∀ l1 ∈ s.mem.tails, ∀ l2 ∈ s.mem.tails, samePtr l1 l2 = true → l1 = l2) : Consistent s s where
  state _ := rfl
  table _ := rfl
  block i j same := by rw [block i j same]
  node := nodes_of_tails tails

theorem consistent_apart {s1 s2 : State V k} (state : s1.addr ≠ s2.addr) (table : s1.regs.addr ≠ s2.regs.addr)
    (block : ∀ i j, (s1.regs.blocks i).addr = (s2.regs.blocks j).addr → s1.regs.blocks i = s2.regs.blocks j)
    (tails : ∀ l1 ∈ s1.mem.tails, ∀ l2 ∈ s2.mem.tails, samePtr l1 l2 = true → l1 = l2) : Consistent s1 s2 where
  state same := absurd same state
  table same := absurd same table
  block := block
  node := nodes_of_tails tails

/-- The second register block and the last node are those of both states. -/
def sharedBlock : Block Bool := ⟨10,fun r => r.val == 3⟩
def lastNode : Node Bool := ⟨13,8,false⟩
theorem fewTrue_ascending : Ascending [⟨12,4,false⟩,lastNode] := by unfold Ascending; decide
theorem allTrue_ascending : Ascending [⟨17,6,false⟩,lastNode] := by unfold Ascending; decide
def fewTrue : State Bool 2 :=
  ⟨11,⟨8,fun i => match i with | 0 => ⟨9,fun _ => false⟩ | 1 => sharedBlock⟩,[⟨12,4,false⟩,lastNode],fewTrue_ascending⟩
def allTrue : State Bool 2 :=
  ⟨18,⟨15,fun i => match i with | 0 => ⟨16,fun _ => true⟩ | 1 => sharedBlock⟩,[⟨17,6,false⟩,lastNode],allTrue_ascending⟩

def boolManager : Manager Bool 2 := Manager.create ⟨false,true,or⟩ 0

theorem shared_sharing : Shared {boolManager.bot,boolManager.top,fewTrue,allTrue} := by
  rintro s1 (rfl | rfl | rfl | rfl) s2 (rfl | rfl | rfl | rfl)
  all_goals
    first
    | exact consistent_self (by decide) (by decide)
    | exact consistent_apart (by decide) (by decide) (by decide) (by decide)

theorem lives_sharing : Lives boolManager {boolManager.bot,boolManager.top,fewTrue,allTrue} 19 where
  shared := shared_sharing
  bot := by simp
  top := by simp
  below := by
    rintro s (rfl | rfl | rfl | rfl)
    all_goals decide

/-- The registers of one block are joined, and the block and the node of both states are kept. -/
theorem join_right_iff_sharing : JoinRight boolManager 19 fewTrue allTrue ∧
    (boolManager.join 19 fewTrue allTrue).get 0 = some true ∧
      (boolManager.join 19 fewTrue allTrue).regs.blocks 1 = sharedBlock ∧ (boolManager.join 19 fewTrue allTrue).mem = [lastNode] := by
  refine ⟨(join_right_iff lives_sharing (by simp) (by simp)).mpr fun top => ?_,by decide,by decide,?_⟩
  · exact absurd top (by decide)
  · simp [Manager.join,Manager.merge,boolManager,Manager.create,make,fewTrue,allTrue,mergeMem,samePtr,lastNode]

/-- The registers of `top` are bottom, so that its join with a state loses the registers. -/
theorem top_loses_registers : ¬ ∀ (V : Type) [SemilatticeSup V] [BoundedOrder V] [DecidableEq V] (k base alloc : Nat)
    (states : Set (State V k)) (s1 s2 : State V k), Lives (Manager.create (lattice V) base : Manager V k) states alloc →
    s1 ∈ states → s2 ∈ states → JoinRight (Manager.create (lattice V) base : Manager V k) alloc s1 s2 := by
  intro always
  obtain ⟨⟨registers,-⟩,-⟩ := always Bool 2 0 19 _ allTrue boolManager.top lives_sharing (by simp) (by simp)
  obtain ⟨v,known,below,-⟩ := registers 0 true false rfl rfl
  obtain rfl : false = v := Option.some.inj known
  exact absurd below (by decide)

/-! ### Map -/

/-- The list that `pn` builds: the nodes linked before it, and what it points to. -/
structure Chain (V : Type) where
  linked : List (Node V)
  slot : List (Node V)

/-- `*pn = l`. -/
def Chain.assign (chain : Chain V) (l : List (Node V)) : Chain V := { chain with slot := l }

/-- `pn = &((*pn)->n)`. -/
def Chain.advance (chain : Chain V) : Chain V :=
  match chain.slot with
  | [] => chain
  | x :: n => ⟨chain.linked ++ [x],n⟩

section Map
variable [DecidableEq V] (f : V → V)

/-- The copy of the nodes from p up to cur, with the next address. -/
def copyNodes (cur : List (Node V)) : Nat → Chain V → List (Node V) → Nat × Chain V
  | alloc, chain, [] => (alloc,chain)
  | alloc, chain, x :: p =>
    if samePtr (x :: p) cur then (alloc,chain)
    else copyNodes cur (alloc + 1) (chain.assign [⟨alloc,x.a,x.v⟩]).advance p

/-- The loop on the nodes. The node that is added stays where `pn` points to. -/
def mapNodes : Nat → Chain V → List (Node V) → List (Node V) → List (Node V)
  | _, chain, last, [] => (chain.assign last).linked ++ (chain.assign last).slot
  | alloc, chain, last, cur :: n =>
    if cur.v = f cur.v then mapNodes alloc chain last n
    else
      let copied := copyNodes (cur :: n) alloc chain last
      mapNodes (copied.1 + 1) (copied.2.assign [⟨copied.1,cur.a,f cur.v⟩]) n n

def mapRegs (alloc : Nat) (t : Table V k) : Table V k :=
  if ∀ i j, f ((t.blocks i).values j) = (t.blocks i).values j then t
  else ⟨alloc,fun i =>
    if ∀ j, f ((t.blocks i).values j) = (t.blocks i).values j then t.blocks i
    else ⟨alloc + 1 + i,fun j => f ((t.blocks i).values j)⟩⟩

omit [DecidableEq V] in
theorem copyNodes_linked (c : Node V) (n between : List (Node V)) (alloc : Nat) (chain : Chain V) :
    ∃ copies, (copyNodes (c :: n) alloc chain (between ++ c :: n)).2.linked = chain.linked ++ copies ∧
      cells copies <+: cells between ∧ ((∀ x ∈ between, x.addr ≠ c.addr) → cells copies = cells between) := by
  induction between generalizing alloc chain with
  | nil =>
    have stop : samePtr (c :: n) (c :: n) = true := by simp [samePtr]
    refine ⟨[],?_,List.prefix_refl _,fun _ => rfl⟩
    rw [List.nil_append,copyNodes,if_pos stop,List.append_nil]
  | cons x between ih =>
    rw [List.cons_append,copyNodes]
    split
    next same =>
      refine ⟨[],(List.append_nil _).symm,List.nil_prefix,fun apart => ?_⟩
      exact absurd (by simpa [samePtr] using same) (apart x List.mem_cons_self)
    next =>
      obtain ⟨copies,linked,first,all⟩ := ih (alloc + 1) (chain.assign [⟨alloc,x.a,x.v⟩]).advance
      refine ⟨⟨alloc,x.a,x.v⟩ :: copies,?_,?_,fun apart => ?_⟩
      · rw [linked]
        simp [Chain.assign,Chain.advance]
      · exact List.prefix_cons_inj _ |>.mpr first
      · exact congrArg ((x.a,x.v) :: ·) (all fun y member => apart y (List.mem_cons_of_mem _ member))

omit [DecidableEq V] in
theorem fst_cells (mem : List (Node V)) : (cells mem).map Prod.fst = mem.map Node.a := by
  rw [cells,List.map_map]
  rfl

theorem mapNodes_sublist {alloc : Nat} {chain : Chain V} {between cur : List (Node V)} :
    ((mapNodes f alloc chain (between ++ cur) cur).map Node.a).Sublist
      (chain.linked.map Node.a ++ (between ++ cur).map Node.a) := by
  induction cur generalizing alloc chain between with
  | nil => simp [mapNodes,Chain.assign]
  | cons c n ih =>
    rw [mapNodes]
    split
    next =>
      have same : between ++ c :: n = (between ++ [c]) ++ n := by simp
      rw [same]
      exact ih
    next =>
      obtain ⟨copies,linked,first,-⟩ := copyNodes_linked c n between alloc chain
      generalize copyNodes (c :: n) alloc chain (between ++ c :: n) = copied at linked ⊢
      refine (@ih (copied.1 + 1) (copied.2.assign [⟨copied.1,c.a,f c.v⟩]) []).trans ?_
      have fewer : (copies.map Node.a).Sublist (between.map Node.a) := by
        rw [← fst_cells,← fst_cells]
        exact first.sublist.map Prod.fst
      simp only [Chain.assign,linked,List.map_append,List.append_assoc,List.nil_append]
      refine (List.Sublist.refl _).append (fewer.append ?_)
      exact List.sublist_cons_self ..

theorem cells_mapNodes {alloc : Nat} {chain : Chain V} {between cur : List (Node V)}
    (nodup : ((between ++ cur).map Node.addr).Nodup) (kept : ∀ x ∈ between, x.v = f x.v) :
    cells (mapNodes f alloc chain (between ++ cur) cur) =
      cells chain.linked ++ (cells (between ++ cur)).filter fun x => x.2 = f x.2 := by
  induction cur generalizing alloc chain between with
  | nil =>
    have all : (cells between).filter (fun x => x.2 = f x.2) = cells between := by
      refine List.filter_eq_self.mpr fun x member => ?_
      obtain ⟨y,inside,rfl⟩ := List.mem_map.mp member
      exact decide_eq_true (kept y inside)
    simp only [List.append_nil,mapNodes,Chain.assign,all]
    simp [cells]
  | cons c n ih =>
    rw [mapNodes]
    have same : between ++ c :: n = (between ++ [c]) ++ n := by simp
    split
    next unchanged =>
      rw [same] at nodup ⊢
      refine ih nodup fun x member => ?_
      rcases List.mem_append.mp member with member | member
      · exact kept x member
      · obtain rfl := List.mem_singleton.mp member
        exact unchanged
    next changed =>
      obtain ⟨copies,linked,-,all⟩ := copyNodes_linked c n between alloc chain
      rw [List.map_append,List.map_cons] at nodup
      obtain ⟨-,after,apart⟩ := List.nodup_append.mp nodup
      have complete := all fun x member same => apart _ (List.mem_map_of_mem member) _ List.mem_cons_self same
      generalize copyNodes (c :: n) alloc chain (between ++ c :: n) = copied at linked ⊢
      have rest := @ih (copied.1 + 1) (copied.2.assign [⟨copied.1,c.a,f c.v⟩]) [] (List.nodup_cons.mp after).2 (by simp)
      have before : (cells between).filter (fun x => x.2 = f x.2) = cells between := by
        refine List.filter_eq_self.mpr fun x member => ?_
        obtain ⟨y,inside,rfl⟩ := List.mem_map.mp member
        exact decide_eq_true (kept y inside)
      rw [List.nil_append] at rest
      rw [rest]
      have whole : cells (between ++ c :: n) = cells between ++ (c.a,c.v) :: cells n := by simp [cells]
      rw [whole,List.filter_append,before,List.filter_cons_of_neg (by simpa using changed)]
      simp only [Chain.assign,linked]
      rw [cells,List.map_append,← cells,← cells,complete,List.append_assoc]

theorem ascending_mapNodes {alloc : Nat} {mem : List (Node V)} (ascending : Ascending mem) :
    Ascending (mapNodes f alloc ⟨[],mem⟩ mem mem) := by
  have parts := @mapNodes_sublist V _ f alloc ⟨[],mem⟩ [] mem
  have ordered : (mem.map Node.a).Pairwise (· < ·) := List.pairwise_map.mpr ascending
  exact List.pairwise_map.mp (ordered.sublist parts)

/-- `map`, new objects at the next addresses. -/
def State.map (alloc : Nat) (s : State V k) : State V k :=
  if samePtr (mapNodes f (alloc + k + 2) ⟨[],s.mem⟩ s.mem s.mem) s.mem && (mapRegs f (alloc + 1) s.regs).addr == s.regs.addr then s
  else ⟨alloc,mapRegs f (alloc + 1) s.regs,mapNodes f (alloc + k + 2) ⟨[],s.mem⟩ s.mem s.mem,ascending_mapNodes f s.ascending⟩

theorem values_mapRegs (alloc : Nat) (t : Table V k) (i : Fin k) (j : Fin 8) :
    ((mapRegs f alloc t).blocks i).values j = f ((t.blocks i).values j) := by
  unfold mapRegs
  split
  next same => exact (same i j).symm
  next =>
    dsimp only
    split
    next same => exact (same j).symm
    next => rfl

variable {f}

theorem mapNodes_same {alloc : Nat} {chain : Chain V} {last cur : List (Node V)} (same : ∀ x ∈ cur, x.v = f x.v) :
    mapNodes f alloc chain last cur = chain.linked ++ last := by
  induction cur with
  | nil => rfl
  | cons c n ih =>
    rw [mapNodes,if_pos (same c List.mem_cons_self)]
    exact ih fun x member => same x (List.mem_cons_of_mem _ member)

end Map

theorem samePtr_comm (l1 l2 : List (Node V)) : samePtr l1 l2 = samePtr l2 l1 := Bool.beq_comm

theorem Consistent.symm {s1 s2 : State V k} (consistent : Consistent s1 s2) : Consistent s2 s1 where
  state same := (consistent.state same.symm).symm
  table same := (consistent.table same.symm).symm
  block i j same := (consistent.block j i same.symm).symm
  node l1 l2 suffix1 suffix2 same := (consistent.node l2 l1 suffix2 suffix1 (samePtr_comm l1 l2 ▸ same)).symm

theorem nodup_of_suffixes {mem : List (Node V)}
    (shared : ∀ l1 l2, l1 <:+ mem → l2 <:+ mem → samePtr l1 l2 = true → l1 = l2) : (mem.map Node.addr).Nodup := by
  induction mem with
  | nil => exact List.nodup_nil
  | cons x mem ih =>
    refine List.nodup_cons.mpr ⟨fun again => ?_,ih fun l1 l2 suffix1 suffix2 =>
      shared l1 l2 (suffix1.trans (List.suffix_cons ..)) (suffix2.trans (List.suffix_cons ..))⟩
    obtain ⟨y,member,same⟩ := List.mem_map.mp again
    obtain ⟨before,after,rfl⟩ := List.append_of_mem member
    have equal := shared (x :: (before ++ y :: after)) (y :: after) (List.suffix_refl _)
      ⟨x :: before,by simp⟩ (by simp [samePtr,same])
    have length := congrArg List.length equal
    simp at length
    omega

section MapRight
variable [DecidableEq V] {f : V → V} {alloc : Nat} {states : Set (State V k)} {s : State V k}

/-- Registers and nodes of the result are those of the state under the function, and the
    states that were in the heap are still in it. -/
def MapRight (f : V → V) (alloc : Nat) (states : Set (State V k)) (s : State V k) : Prop :=
  (∀ r, (s.map f alloc).get r = (s.get r).map f) ∧
    cells (s.map f alloc).mem = (cells s.mem).map (fun x => (x.1,f x.2)) ∧ Shared (insert (s.map f alloc) states)

/-- The objects of the states are below the next address. -/
structure Below (states : Set (State V k)) (alloc : Nat) : Prop where
  state : ∀ s ∈ states, s.addr < alloc
  table : ∀ s ∈ states, s.regs.addr < alloc
  block : ∀ s ∈ states, ∀ i, (s.regs.blocks i).addr < alloc

theorem mapRegs_addr {t : Table V k} (same : (mapRegs f alloc t).addr = t.addr) (fresh : t.addr ≠ alloc) :
    mapRegs f alloc t = t := by
  unfold mapRegs at *
  split
  next => rfl
  next changed =>
    rw [if_neg changed] at same
    exact absurd same.symm fresh

theorem get_map (fresh : s.regs.addr < alloc) (r : Nat) : (s.map f alloc).get r = (s.get r).map f := by
  have values (i : Fin k) (j : Fin 8) : ((s.map f alloc).regs.blocks i).values j = f ((s.regs.blocks i).values j) := by
    unfold State.map
    split
    next same =>
      rw [Bool.and_eq_true,beq_iff_eq] at same
      have mapped := values_mapRegs f (alloc + 1) s.regs i j
      rwa [mapRegs_addr same.2 (by omega)] at mapped
    next => exact values_mapRegs f _ _ i j
  unfold State.get
  split
  · rw [values]; rfl
  · rfl

theorem shared_map (shared : Shared states) (below : Below states alloc) (member : s ∈ states) (same : ∀ x ∈ s.mem, x.v = f x.v) :
    Shared (insert (s.map f alloc) states) := by
  have mem : mapNodes f (alloc + k + 2) ⟨[],s.mem⟩ s.mem s.mem = s.mem := (mapNodes_same same).trans (List.nil_append _)
  by_cases kept : (mapRegs f (alloc + 1) s.regs).addr = s.regs.addr
  · have old : s.map f alloc = s := by
      rw [State.map,if_pos]
      simp [mem,kept,samePtr]
    rw [old,Set.insert_eq_of_mem member]
    exact shared
  have new : (s.map f alloc).addr = alloc ∧ (s.map f alloc).regs = mapRegs f (alloc + 1) s.regs ∧ (s.map f alloc).mem = s.mem := by
    rw [State.map,if_neg (by simp [kept])]
    exact ⟨rfl,rfl,mem⟩
  obtain ⟨addr,regs,nodes⟩ := new
  have changed : ¬ ∀ i j, f ((s.regs.blocks i).values j) = (s.regs.blocks i).values j := by
    intro all
    rw [mapRegs,if_pos all] at kept
    exact kept rfl
  have table : (s.map f alloc).regs.addr = alloc + 1 := by
    rw [regs,mapRegs,if_neg changed]
  have block (i : Fin k) : (s.map f alloc).regs.blocks i = s.regs.blocks i ∨
      ((s.map f alloc).regs.blocks i).addr = alloc + 2 + i := by
    rw [regs,mapRegs,if_neg changed]
    dsimp only
    split
    · exact Or.inl rfl
    · right
      dsimp only
  have others : ∀ s2 ∈ states, Consistent (s.map f alloc) s2 := by
    intro s2 member2
    refine ⟨fun same => ?_,fun same => ?_,fun i j same => ?_,fun l1 l2 suffix1 suffix2 => ?_⟩
    · have := below.state s2 member2
      omega
    · have := below.table s2 member2
      omega
    · rcases block i with old | fresh
      · rw [old] at same ⊢
        exact (shared s member s2 member2).block i j same
      · have := below.block s2 member2 j
        omega
    · rw [nodes] at suffix1
      exact (shared s member s2 member2).node l1 l2 suffix1 suffix2
  rintro s1 (rfl | member1) s2 (rfl | member2)
  · refine ⟨fun _ => rfl,fun _ => rfl,fun i j same => ?_,fun l1 l2 suffix1 suffix2 => ?_⟩
    · have old := below.block s member
      rcases block i with kept1 | fresh1
      · rcases block j with kept2 | fresh2
        · rw [kept1,kept2] at same ⊢
          exact (shared s member s member).block i j same
        · rw [kept1,fresh2] at same
          have := old i
          omega
      · rcases block j with kept2 | fresh2
        · rw [fresh1,kept2] at same
          have := old j
          omega
        · have equal : i = j := Fin.ext (by omega)
          rw [equal]
    · rw [nodes] at suffix1 suffix2
      exact (shared s member s member).node l1 l2 suffix1 suffix2
  · exact others s2 member2
  · exact (others s1 member1).symm
  · exact shared s1 member1 s2 member2

/-- A node that the function changes is lost; when there is none the map is right. -/
theorem map_right_iff (shared : Shared states) (below : Below states alloc) (member : s ∈ states) :
    MapRight f alloc states s ↔ ∀ x ∈ s.mem, f x.v = x.v := by
  constructor
  · rintro ⟨-,mapped,-⟩
    by_contra changes
    obtain ⟨x,inside,changed⟩ := by simpa using changes
    have lost := @cells_mapNodes V _ f (alloc + k + 2) ⟨[],s.mem⟩ [] s.mem (nodup_of_suffixes (shared s member s member).node) (by simp)
    have unlike : (x.a,x.v) ∈ cells s.mem := List.mem_map_of_mem inside
    unfold State.map at mapped
    split at mapped
    · -- the state itself has the node unchanged
      have pairs := List.map_inj_left.mp (mapped.symm.trans (List.map_id _).symm)
      exact changed (congrArg Prod.snd (pairs (x.a,x.v) unlike))
    · dsimp only at mapped
      rw [List.nil_append] at lost
      have shorter := congrArg List.length (lost.symm.trans mapped)
      rw [List.length_map] at shorter
      have all := List.length_filter_eq_length_iff.mp (shorter.trans rfl)
      exact changed (of_decide_eq_true (all _ unlike)).symm
  · intro same
    have mem : mapNodes f (alloc + k + 2) ⟨[],s.mem⟩ s.mem s.mem = s.mem :=
      (mapNodes_same fun x inside => (same x inside).symm).trans (List.nil_append _)
    refine ⟨get_map (below.table s member),?_,shared_map shared below member fun x inside => (same x inside).symm⟩
    have nodes : (s.map f alloc).mem = s.mem := by
      unfold State.map
      split
      · rfl
      · exact mem
    rw [nodes,cells,List.map_map]
    refine List.map_congr_left fun x inside => ?_
    simp [same x inside]

end MapRight

theorem shared_pair : Shared {fewTrue,allTrue} := fun s1 in1 s2 in2 => shared_sharing s1 (by simp_all) s2 (by simp_all)

theorem below_pair : Below {fewTrue,allTrue} 19 where
  state := by rintro s (rfl | rfl) <;> decide
  table := by rintro s (rfl | rfl) <;> decide
  block := by rintro s (rfl | rfl) <;> decide

/-- Every register gets false, as the nodes are. -/
theorem map_right_iff_pair : MapRight (fun _ => false) 19 {fewTrue,allTrue} allTrue ∧
    (allTrue.map (fun _ => false) 19).mem = allTrue.mem ∧ (allTrue.map (fun _ => false) 19).get 3 = some false :=
  ⟨(map_right_iff shared_pair below_pair (by simp)).mpr (by decide),by decide,by decide⟩

/-- The nodes, whose values all change, are lost. -/
theorem map_loses_node : ¬ ∀ (V : Type) [DecidableEq V] (k : Nat) (f : V → V) (alloc : Nat) (states : Set (State V k)) (s : State V k),
    Shared states → Below states alloc → s ∈ states → MapRight f alloc states s := by
  intro always
  obtain ⟨-,mapped,-⟩ := always Bool 2 not 19 {fewTrue,allTrue} fewTrue shared_pair below_pair (by simp)
  exact absurd mapped (by decide)

end Otawa.FastState.Sharing
