import Otawa.ClpState

/-!
States of the analysis as the operations of `clp::State` build them, from fresh
states whose memory has a given default. Whatever the operations and their
arguments, the cells ascend and none is unconstrained or bottom (`Built.ordered`),
so that `get` reads back what `set` wrote and nothing else (`built_get_set`).

`equals` walks two states together without comparing the values of their cells;
`equals_same_iff` says on which states it can be relied on.
-/
namespace Otawa.Clp
open Otawa.SortedAssoc (find store intersect Sorted)

namespace State

def copy (_ state : State) : State := state

/-- `clear()`, which leaves the default of memory. -/
def reset (s : State) : State := { s with cells := [], registers := [], tmpreg := [] }

/-- The states built from fresh ones, `State(def)`, by any operations. -/
inductive Built (defaults : Value → Prop) : State → Prop
  | fresh {value : Value} (start : defaults value) : Built defaults ⟨value,[],[],[]⟩
  | copy {s t : State} (old : Built defaults s) (state : Built defaults t) : Built defaults (s.copy t)
  | reset {s : State} (old : Built defaults s) : Built defaults s.reset
  | clear {s : State} (old : Built defaults s) (base size : Word) : Built defaults (s.clear base size)
  | set {s : State} (old : Built defaults s) (addr val : Value) : Built defaults (s.set addr val)
  | join {s t u : State} (old : Built defaults s) (state : Built defaults t) (joined : s.join t = some u) :
      Built defaults u
  | widening {s t u : State} (old : Built defaults s) (state : Built defaults t) (loopBound : Word)
      (widened : s.widening t loopBound = some u) : Built defaults u

/-- Cells ascend, and none of them is unconstrained or bottom. -/
structure Ordered (s : State) : Prop where
  sorted : Sorted s.cells
  cells : ∀ c ∈ s.cells, c.2.kind ≠ .ALL ∧ c.2 ≠ Value.none

end State

namespace Value

theorem join_ne_none {v w u : Value} (left : v ≠ none) (joined : v.join w = some u) : u ≠ none := by
  unfold join at joined
  split at joined
  · cases joined; exact left
  split at joined
  · cases joined; simp [none]
  split at joined
  · cases joined; simp [none]
  split at joined
  · cases joined; exact left
  split at joined
  · cases joined; simp [none]
  split at joined
  · cases joined
  · cases joined; simp [none]

private theorem widenStep_ne_zero {v w : Value} (near far : Word) (spread : ¬ (v.isConst ∧ w.isConst)) :
    widenStep v w near far ≠ 0 := by
  unfold widenStep
  split
  · decide
  · rename_i same
    intro zero
    have equal : abs v.delta = abs w.delta := not_not.mp fun other => same (.inl other)
    have still {x : Word} (abs_zero : abs x = 0) : x = 0 := by
      unfold abs at abs_zero
      split at abs_zero
      · exact neg_eq_zero.mp abs_zero
      · exact abs_zero
    refine spread ⟨?_,?_⟩
    · simp [isConst,still zero]
    · simp [isConst,still (equal ▸ zero)]

theorem widening_ne_none {v w : Value} (left : v ≠ none) : v.widening w ≠ none := by
  unfold widening
  split
  · exact left
  split
  · simp [all,none]
  split
  · exact left
  split
  · simp [none,umax]
  rename_i spread
  have moves (near far : Word) : -widenStep v w near far ≠ 0 := neg_ne_zero.mpr (widenStep_ne_zero near far spread)
  split
  · intro bottom
    exact moves _ _ (congrArg Value.delta bottom)
  split
  · intro bottom
    exact widenStep_ne_zero _ _ spread (congrArg Value.delta bottom)
  · simp [all,none]

theorem ffwidening_ne_none {v w u : Value} {loopBound : Word} (left : v ≠ none)
    (widened : v.ffwidening w loopBound = some u) : u ≠ none := by
  unfold ffwidening at widened
  repeat' split at widened
  all_goals cases widened
  all_goals first | exact left | simp [none]

end Value

namespace State

theorem Ordered.set {s : State} (old : Ordered s) (addr val : Value) : Ordered (s.set addr val) := by
  unfold State.set
  split
  · exact old
  split
  · exact ⟨SortedAssoc.sorted_nil,by simp [EMPTY]⟩
  rename_i bounded
  split
  · split <;> exact ⟨old.sorted,old.cells⟩
  split
  · exact ⟨SortedAssoc.sorted_nil,by simp⟩
  refine ⟨SortedAssoc.store_sorted old.sorted _ _,?_⟩
  intro c member
  rcases SortedAssoc.mem_store member with ⟨entry,_⟩ | before
  · split at entry
    · rename_i constrained
      cases entry
      exact ⟨constrained,bounded⟩
    · simp at entry
  · exact old.cells c before

theorem Ordered.clear {s : State} (old : Ordered s) (base size : Word) : Ordered (s.clear base size) := by
  unfold State.clear
  split
  · exact old
  · exact ⟨old.sorted.filter _,fun c member => old.cells c (List.mem_of_mem_filter member)⟩

theorem Ordered.merge {op : Value → Value → Option Value} {s t u : State} (left : Ordered s) (right : Ordered t)
    (keeps : ∀ {v w z}, v ≠ Value.none → op v w = some z → z ≠ Value.none) (merged : State.merge op s t = some u) :
    Ordered u := by
  rcases merge_cases merged with rfl | rfl | ⟨leftLive,rightLive⟩
  · exact left
  · exact right
  obtain ⟨registers,tmpreg,cells,_,_,memory,rfl⟩ := merge_parts leftLive rightLive merged
  obtain ⟨sorted,made⟩ := merged_cells left.sorted right.sorted memory
  refine ⟨sorted,fun c member => ?_⟩
  obtain ⟨constrained,v,w,inside,combined⟩ := made c member
  exact ⟨constrained,keeps (left.cells _ inside).2 combined⟩

theorem Built.ordered {defaults : Value → Prop} {s : State} (built : Built defaults s) : Ordered s := by
  induction built with
  | fresh start => exact ⟨SortedAssoc.sorted_nil,by simp⟩
  | copy _ _ _ ih => exact ih
  | reset _ _ => exact ⟨SortedAssoc.sorted_nil,by simp [State.reset]⟩
  | clear _ base size ih => exact ih.clear base size
  | set _ addr val ih => exact ih.set addr val
  | join _ _ joined left right => exact left.merge right Value.join_ne_none joined
  | widening _ _ loopBound widened left right =>
    refine left.merge right ?_ widened
    intro v w z nonempty combined
    split at combined
    · cases combined
      exact Value.widening_ne_none nonempty
    · exact Value.ffwidening_ne_none nonempty combined

theorem merge_first {op : Value → Value → Option Value} {s t u : State} (merged : merge op s t = some u) :
    u.first = s.first ∨ u.first = t.first := by
  rcases merge_cases merged with rfl | rfl | ⟨leftLive,rightLive⟩
  · exact .inl rfl
  · exact .inr rfl
  obtain ⟨_,_,_,_,_,_,rfl⟩ := merge_parts leftLive rightLive merged
  exact .inl rfl

theorem Built.first {defaults : Value → Prop} {s : State} (built : Built defaults s) :
    s.first = Value.none ∨ defaults s.first := by
  induction built with
  | fresh start => exact .inr start
  | copy _ _ _ ih => exact ih
  | reset _ ih => exact ih
  | clear _ base size ih =>
    unfold State.clear
    split <;> exact ih
  | set _ addr val ih =>
    unfold State.set
    split
    · exact ih
    split
    · exact .inl rfl
    repeat' split
    all_goals exact ih
  | join _ _ joined left right =>
    rcases merge_first joined with same | same <;> rw [same]
    · exact left
    · exact right
  | widening _ _ _ widened left right =>
    rcases merge_first widened with same | same <;> rw [same]
    · exact left
    · exact right

theorem built_full : Built (· = Value.all) FULL := .fresh rfl

/-- Two cells and a register on one side, where one cell is forgotten, a cell and a register
    on the other. -/
def leftRun : State :=
  (((FULL.set (Location.cell 0x104).addr (Value.const 7)).set (Location.cell 0x100).addr (Value.const 1)).set
    (Location.reg 2).addr (Value.const 4)).clear 0x104 4

def rightRun : State := (FULL.set (Location.cell 0x100).addr (Value.const 3)).set (Location.reg 2).addr (Value.const 8)

/-- The runs joined, and the result widened by the second one. -/
def mergedRun : State := ⟨Value.all,[(0x100,⟨.VAL,1,1,umax⟩)],[Value.all,Value.all,⟨.VAL,4,1,umax⟩],[]⟩

theorem built_mergedRun : Built (· = Value.all) mergedRun := by
  have left : Built (· = Value.all) leftRun := (((built_full.set _ _).set _ _).set _ _).clear _ _
  have right : Built (· = Value.all) rightRun := (built_full.set _ _).set _ _
  have leftCells : leftRun = ⟨Value.all,[(0x100,Value.const 1)],[Value.all,Value.all,Value.const 4],[]⟩ := by
    simp [leftRun,set,State.clear,FULL,record,store,Location.addr,Value.const,Value.all,Value.none]
  have rightCells : rightRun = ⟨Value.all,[(0x100,Value.const 3)],[Value.all,Value.all,Value.const 8],[]⟩ := by
    simp [rightRun,set,FULL,record,store,Location.addr,Value.const,Value.all,Value.none]
  have joined : leftRun.join rightRun =
      some ⟨Value.all,[(0x100,⟨.VAL,1,2,1⟩)],[Value.all,Value.all,⟨.VAL,4,4,1⟩],[]⟩ := by
    rw [leftCells,rightCells]
    simp [State.join,merge,mergeRegisters,intersect,mergeCell,Value.join,Value.const,Value.all,Value.none,Value.isConst,
      min,abs]
  have widened : State.widening ⟨Value.all,[(0x100,⟨.VAL,1,2,1⟩)],[Value.all,Value.all,⟨.VAL,4,4,1⟩],[]⟩ rightRun (-1) =
      some mergedRun := by
    rw [rightCells]
    simp [State.widening,merge,mergeRegisters,intersect,mergeCell,Value.const,Value.all,Value.none]
    decide
  exact (left.join right joined).widening right (-1) widened

/-- The walk of `equals` over memory. The value compared with `cur->val` is `cur->val`. -/
def sameCells : List (Word × Value) → List (Word × Value) → Bool
  | (addr,val) :: cur,(addr2,_) :: cur2 =>
    if addr ≠ addr2 then false
    else if val ≠ val then false
    else sameCells cur cur2
  | [],[] => true
  | _,_ => false

/-- `equals`. Temporaries are not compared. -/
def equals (s state : State) : Bool :=
  if s.registers.length ≠ state.registers.length then false
  else if (s.registers.zip state.registers).any fun r => r.1 ≠ r.2 then false
  else if s.first.kind ≠ state.first.kind then false
  else sameCells s.cells state.cells

def addresses (s : State) : List Word := s.cells.map Prod.fst

theorem sameCells_iff (cur cur2 : List (Word × Value)) :
    sameCells cur cur2 = true ↔ cur.map Prod.fst = cur2.map Prod.fst := by
  induction cur, cur2 using sameCells.induct with
  | case1 addr val cur addr2 _ cur2 other => simp [sameCells,other]
  | case2 addr val cur addr2 _ cur2 same other => exact absurd rfl other
  | case3 addr val cur addr2 _ cur2 same _ ih =>
    rw [not_not] at same
    simp [sameCells,same,ih]
  | case4 => simp [sameCells]
  | case5 cur cur2 unpaired unended =>
    cases cur with
    | nil =>
      cases cur2 with
      | nil => exact absurd rfl (unended rfl)
      | cons d rest => simp [sameCells]
    | cons c rest =>
      cases cur2 with
      | nil => simp [sameCells]
      | cons d rest' => exact absurd rfl (unpaired c.1 c.2 rest d.1 d.2 rest' rfl)

private theorem zip_any_ne {vs ws : List Value} (counts : vs.length = ws.length) :
    ((vs.zip ws).any fun r => r.1 ≠ r.2) = true ↔ vs ≠ ws := by
  induction vs generalizing ws with
  | nil =>
    cases ws with
    | nil => simp
    | cons w ws => simp at counts
  | cons v vs ih =>
    cases ws with
    | nil => simp at counts
    | cons w ws =>
      have tails := ih (Nat.succ.inj counts)
      by_cases same : v = w
      · simpa [same] using tails
      · simp [same]

theorem equals_iff (s t : State) :
    s.equals t = true ↔ s.registers = t.registers ∧ s.first.kind = t.first.kind ∧ s.addresses = t.addresses := by
  unfold equals
  split
  · rename_i counts
    refine iff_of_false (by simp) ?_
    rintro ⟨same,-⟩
    exact counts (congrArg List.length same)
  rename_i counts
  rw [not_not] at counts
  split
  · rename_i different
    refine iff_of_false (by simp) ?_
    rintro ⟨same,-⟩
    exact (zip_any_ne counts).mp different same
  rename_i same
  rw [zip_any_ne counts,not_not] at same
  split
  · rename_i kinds
    exact iff_of_false (by simp) fun both => kinds both.2.1
  · rename_i kinds
    rw [not_not] at kinds
    simp [sameCells_iff,same,kinds,addresses]

private theorem cells_ext {cur cur2 : List (Word × Value)} (same : cur.map Prod.fst = cur2.map Prod.fst)
    (values : ∀ a v w, (a,v) ∈ cur → (a,w) ∈ cur2 → v = w) : cur = cur2 := by
  induction cur generalizing cur2 with
  | nil => exact (List.map_eq_nil_iff.mp same.symm).symm
  | cons c rest ih =>
    cases cur2 with
    | nil => simp at same
    | cons d rest2 =>
      obtain ⟨a,v⟩ := c
      obtain ⟨b,w⟩ := d
      simp only [List.map_cons,List.cons.injEq] at same
      obtain ⟨rfl,tails⟩ := same
      have value : v = w := values a v w List.mem_cons_self List.mem_cons_self
      have later : rest = rest2 := ih tails fun k x y left right =>
        values k x y (List.mem_cons_of_mem _ left) (List.mem_cons_of_mem _ right)
      rw [value,later]

/-- What `equals` cannot tell apart: the addresses are the same but a value is not,
    in a cell or as the default of an address without a cell. -/
def Confused (s t : State) : Prop :=
  s.registers = t.registers ∧ s.first.kind = t.first.kind ∧ s.addresses = t.addresses ∧
    (s.cells ≠ t.cells ∨ s.first ≠ t.first ∧ ∃ a, a ∉ s.addresses)

/-- The same values are read in the real registers and in memory. -/
def SameReads (s t : State) : Prop :=
  (∀ r : Word, ¬ r.slt 0 = true → s.get (Location.reg r).addr = t.get (Location.reg r).addr) ∧
    ∀ a, s.get (Location.cell a).addr = t.get (Location.cell a).addr

private theorem find_none {s : State} (ordered : Ordered s) {a : Word} (absent : a ∉ s.addresses) :
    find s.cells a = none := by
  rw [Option.eq_none_iff_forall_ne_some]
  intro v found
  exact absent (List.mem_map.mpr ⟨(a,v),(SortedAssoc.find_eq_some_iff ordered.sorted).mp found,rfl⟩)

private theorem not_confused_of_sameReads {s t : State} (left : Ordered s) (right : Ordered t)
    (reads : SameReads s t) : ¬ Confused s t := by
  rintro ⟨-,-,addresses,different⟩
  have cell (a : Word) : (find s.cells a).getD s.first = (find t.cells a).getD t.first := reads.2 a
  rcases different with cells | ⟨defaults,a,absent⟩
  · refine cells (cells_ext addresses ?_)
    intro a v w vMem wMem
    have here := cell a
    rwa [(SortedAssoc.find_eq_some_iff left.sorted).mpr vMem,
      (SortedAssoc.find_eq_some_iff right.sorted).mpr wMem] at here
  · have here := cell a
    rw [find_none left absent,find_none right (addresses ▸ absent)] at here
    exact defaults here

private theorem sameReads_of_not_confused {s t : State} (right : Ordered t) (equal : s.equals t = true) (clear : ¬ Confused s t) :
    SameReads s t := by
  obtain ⟨registers,kinds,addresses⟩ := (equals_iff s t).mp equal
  have values : ¬ (s.cells ≠ t.cells ∨ s.first ≠ t.first ∧ ∃ a, a ∉ s.addresses) :=
    fun different => clear ⟨registers,kinds,addresses,different⟩
  obtain ⟨cells,defaults⟩ := not_or.mp values
  rw [not_not] at cells
  constructor
  · intro r real
    rw [get_eq,get_eq]
    simp only [recorded,default,if_neg real,registers]
  · intro a
    rw [get_eq,get_eq]
    simp only [recorded,default,cells]
    cases found : find t.cells a with
    | some v => rfl
    | none =>
      by_contra different
      refine defaults ⟨different,a,?_⟩
      intro member
      obtain ⟨⟨b,v⟩,recorded,rfl⟩ := List.mem_map.mp (addresses ▸ member)
      rw [(SortedAssoc.find_eq_some_iff right.sorted).mpr recorded] at found
      cases found

/-- States that `equals` calls equal are read alike, exactly when they are not confused. -/
theorem equals_same_iff {p q : Value → Prop} {s t : State} (left : Built p s) (right : Built q t) :
    (s.equals t = true → SameReads s t) ↔ ¬ Confused s t := by
  constructor
  · intro sound confused
    have equal : s.equals t = true := (equals_iff s t).mpr ⟨confused.1,confused.2.1,confused.2.2.1⟩
    exact not_confused_of_sameReads left.ordered right.ordered (sound equal) confused
  · intro clear equal
    exact sameReads_of_not_confused right.ordered equal clear

def stored (k : Word) : State := FULL.set (Location.cell 0).addr (Value.const k)

theorem built_stored (k : Word) : Built (· = Value.all) (stored k) := built_full.set _ _

theorem equals_same_iff_stored :
    ((stored 1).equals (stored 2) = true → SameReads (stored 1) (stored 2)) ↔ ¬ Confused (stored 1) (stored 2) :=
  equals_same_iff (built_stored 1) (built_stored 2)

/-- A stored 1 and a stored 2 make equal states. -/
theorem equals_ignores_values :
    ¬ ∀ s t : State, Built (· = Value.all) s → Built (· = Value.all) t → s.equals t = true → SameReads s t := by
  intro sound
  have reads := sound (stored 1) (stored 2) (built_stored 1) (built_stored 2) (by decide)
  exact absurd (reads.2 0) (by decide)

end State
end Otawa.Clp
