import Otawa.ClpUnion
import Otawa.SortedAssoc

/-!
Abstract states of the analysis (`clp::State`). Real and temporary registers are
kept in vectors that grow on demand; memory is a list of cells sorted by address,
seen here as a sparse map. What a state does not record is unconstrained.

`join` and `widening` share one walk, `merge`, over an operation on values.
`merge_sound_iff` says exactly when its result covers both operands, and
`join_widening_iff` instantiates it.
-/
namespace Otawa.Clp
open Otawa.SortedAssoc (find store intersect Sorted)

/-- `class State`: the default of memory, the cells, the registers and the temporaries. -/
structure State where
  first : Value
  cells : List (Word × Value)
  registers : List Value
  tmpreg : List Value
  deriving DecidableEq

/-- `Vector::set`, growing the vector with unconstrained registers up to the index. -/
def record (regs : List Value) (i : Nat) (val : Value) : List Value :=
  if i < regs.length then regs.set i val
  else regs ++ List.replicate (i - regs.length) Value.all ++ [val]

/-- The walk of `join` and `widening` over two vectors of registers. -/
def mergeRegisters (op : Value → Value → Option Value) : List Value → List Value → Option (List Value)
  | v :: vs,w :: ws => do
    let u ← op v w
    let rest ← mergeRegisters op vs ws
    some (u :: rest)
  | vs,[] => some vs
  | [],ws => some ws

def mergeCell (op : Value → Value → Option Value) (v w : Value) : Option (Option Value) :=
  (op v w).map fun u => if u.kind = .ALL then none else some u

namespace State

/-- `State::EMPTY`, the bottom state. -/
def EMPTY : State := ⟨Value.none,[],[],[]⟩
/-- `State::FULL`, without any constraint. -/
def FULL : State := ⟨Value.all,[],[],[]⟩

def get (s : State) (addr : Value) : Value :=
  if addr.kind = .REG then
    if addr.lower.slt 0 then s.tmpreg.getD (-addr.lower).toNat Value.all
    else s.registers.getD addr.lower.toNat Value.all
  else (find s.cells addr.lower).getD s.first

def set (s : State) (addr val : Value) : State :=
  if s.first = Value.none then s
  else if val = Value.none then EMPTY
  else if addr.kind = .REG then
    if addr.lower.slt 0 then { s with tmpreg := record s.tmpreg (-addr.lower).toNat val }
    else { s with registers := record s.registers addr.lower.toNat val }
  else if addr = Value.all then { s with cells := [] }
  else { s with cells := store s.cells addr.lower (if val.kind ≠ .ALL then some val else none) }

/-- `clear(base, size)`: forget an area of memory. -/
def clear (s : State) (base size : Word) : State :=
  if s.first = Value.none then s
  else { s with cells := s.cells.filter fun c => !(decide (base ≤ c.1) && decide (c.1 < base + size)) }

/-- The common body of `join` and `widening`; `none` when a division traps. -/
def merge (op : Value → Value → Option Value) (s t : State) : Option State :=
  if t.first = Value.none then some s
  else if s.first = Value.none then some t
  else do
    let registers ← mergeRegisters op s.registers t.registers
    let tmpreg ← mergeRegisters op s.tmpreg t.tmpreg
    let cells ← intersect (mergeCell op) s.cells t.cells
    some ⟨s.first,cells,registers,tmpreg⟩

def join (s t : State) : Option State := merge Value.join s t
/-- `widening`: the operation on values depends on the sign of the loop bound. -/
def widening (s t : State) (loopBound : Word) : Option State :=
  merge (fun v w => if loopBound.slt 0 then some (v.widening w) else v.ffwidening w loopBound) s t

end State

/-! ### Machine states -/

/-- A register, temporary when its number is negative, or a word of memory. -/
inductive Location where
  | reg (r : Word)
  | cell (a : Word)
  deriving DecidableEq

/-- The value that names a location in `get` and `set`. -/
def Location.addr : Location → Value
  | reg r => ⟨.REG,r,0,0⟩
  | cell a => ⟨.VAL,a,0,0⟩

/-- The words held by the registers and by the memory of a machine. -/
abbrev Machine := Location → Word

namespace State

/-- Each location holds a word that the state allows. -/
def Covers (s : State) (m : Machine) : Prop := ∀ l, m l ∈ s.get l.addr

def recorded (s : State) : Location → Option Value
  | .reg r => if r.slt 0 then s.tmpreg[(-r).toNat]? else s.registers[r.toNat]?
  | .cell a => find s.cells a

/-- What `get` answers for a location that is not recorded. -/
def default (s : State) : Location → Value
  | .reg _ => Value.all
  | .cell _ => s.first

theorem get_eq (s : State) (l : Location) : s.get l.addr = (s.recorded l).getD (s.default l) := by
  cases l with
  | reg r =>
    simp only [get,Location.addr,recorded,default,if_true,List.getD_eq_getElem?_getD]
    by_cases temporary : r.slt 0
    · rw [if_pos temporary,if_pos temporary]
    · rw [if_neg temporary,if_neg temporary]
  | cell a => simp [get,Location.addr,recorded,default]

/-- What the operations preserve: recorded values are progressions, or every word
    in a register; cells ascend; the unused temporary of number 0 is unconstrained;
    vectors hold the registers of a signed number; and bottom records nothing. -/
structure WellFormed (s : State) : Prop where
  first : s.first = Value.none ∨ s.first = Value.all
  registers : ∀ v ∈ s.registers, v.Recorded
  temporaries : ∀ v ∈ s.tmpreg, v.Recorded
  cells : ∀ c ∈ s.cells, c.2.kind = .VAL
  sorted : Sorted s.cells
  spare : ∀ v, s.tmpreg[0]? = some v → v = Value.all
  registerCount : s.registers.length ≤ 2 ^ 31
  temporaryCount : s.tmpreg.length ≤ 2 ^ 31 + 1
  bottom : s.first = Value.none → s = EMPTY

theorem wellFormed_empty : WellFormed EMPTY where
  first := .inl rfl
  registers := by simp [EMPTY]
  temporaries := by simp [EMPTY]
  cells := by simp [EMPTY]
  sorted := SortedAssoc.sorted_nil
  spare := by simp [EMPTY]
  registerCount := by simp [EMPTY]
  temporaryCount := by simp [EMPTY]
  bottom := fun _ => rfl

theorem wellFormed_full : WellFormed FULL where
  first := .inr rfl
  registers := by simp [FULL]
  temporaries := by simp [FULL]
  cells := by simp [FULL]
  sorted := SortedAssoc.sorted_nil
  spare := by simp [FULL]
  registerCount := by simp [FULL]
  temporaryCount := by simp [FULL]
  bottom := by intro empty; exact absurd empty (by decide)

theorem WellFormed.recorded {s : State} (wf : WellFormed s) {l : Location} {v : Value}
    (member : s.recorded l = some v) : v.Recorded := by
  cases l with
  | reg r =>
    simp only [State.recorded] at member
    split at member
    · exact wf.temporaries v (List.mem_of_getElem? member)
    · exact wf.registers v (List.mem_of_getElem? member)
  | cell a => exact .inl (wf.cells (a,v) ((SortedAssoc.find_eq_some_iff wf.sorted).mp member))

theorem WellFormed.default_all {s : State} (wf : WellFormed s) (live : s.first ≠ Value.none) (l : Location) :
    s.default l = Value.all := by
  cases l with
  | reg r => rfl
  | cell a => exact wf.first.resolve_left live

theorem not_covers_of_bottom {s : State} (wf : WellFormed s) (empty : s.first = Value.none) (m : Machine) :
    ¬ Covers s m := by
  intro covered
  have member := covered (.cell 0)
  rw [wf.bottom empty] at member
  exact Value.mem_none rfl member

theorem record_getElem (regs : List Value) (i j : Nat) (val : Value) :
    ((record regs i val)[j]?).getD Value.all = if j = i then val else (regs[j]?).getD Value.all := by
  unfold record
  split
  · rename_i inside
    rw [List.getElem?_set]
    by_cases same : j = i
    · subst same; simp [inside]
    · simp [same,Ne.symm same]
  · rename_i outside
    rcases Nat.lt_trichotomy j i with less | same | greater
    · rw [if_neg less.ne,List.getElem?_append_left (by simp; omega)]
      by_cases old : j < regs.length
      · rw [List.getElem?_append_left old]
      · rw [List.getElem?_append_right (by omega),List.getElem?_replicate,if_pos (by omega),
          List.getElem?_eq_none (by omega)]
        rfl
    · subst same
      rw [List.getElem?_append_right (by simp; omega)]
      simp [show j - (regs.length + (j - regs.length)) = 0 by omega]
    · rw [if_neg greater.ne',List.getElem?_eq_none (by simp; omega),List.getElem?_eq_none (by omega)]

variable {val : Value} {vs ws us : List Value}

theorem set_reg {s : State} (live : s.first ≠ Value.none) (r : Word) (some : val ≠ Value.none) :
    s.set (Location.reg r).addr val =
      if r.slt 0 then { s with tmpreg := record s.tmpreg (-r).toNat val }
      else { s with registers := record s.registers r.toNat val } := by
  rw [set,if_neg live,if_neg some]
  rfl

theorem set_cell {s : State} (live : s.first ≠ Value.none) (a : Word) (some : val ≠ Value.none) :
    s.set (Location.cell a).addr val =
      { s with cells := store s.cells a (if val.kind ≠ .ALL then Option.some val else none) } := by
  have somewhere : (Location.cell a).addr ≠ Value.all := by simp [Location.addr,Value.all]
  simp only [set,if_neg live,if_neg some,if_neg somewhere]
  simp [Location.addr]

theorem get_set_other {s : State} (sorted : Sorted s.cells) (live : s.first ≠ Value.none) {k l : Location}
    (other : l ≠ k) (some : val ≠ Value.none) : (s.set k.addr val).get l.addr = s.get l.addr := by
  rw [get_eq,get_eq]
  cases k with
  | reg r =>
    rw [set_reg live r some]
    cases l with
    | cell a => split <;> rfl
    | reg q =>
      have apart : q ≠ r := fun same => other (congrArg Location.reg same)
      by_cases temporary : r.slt 0
      · rw [if_pos temporary]
        simp only [recorded,default]
        split
        · rw [record_getElem,if_neg fun same => apart (neg_inj.mp (BitVec.toNat_inj.mp same))]
        · rfl
      · rw [if_neg temporary]
        simp only [recorded,default]
        split
        · rfl
        · rw [record_getElem,if_neg fun same => apart (BitVec.toNat_inj.mp same)]
  | cell a =>
    rw [set_cell live a some]
    cases l with
    | reg q => rfl
    | cell b =>
      have apart : b ≠ a := fun same => other (congrArg Location.cell same)
      simp only [recorded,default]
      rw [SortedAssoc.find_store_other _ apart sorted]

theorem get_set_reg {s : State} (live : s.first ≠ Value.none) (r : Word) (some : val ≠ Value.none) :
    (s.set (Location.reg r).addr val).get (Location.reg r).addr = val := by
  rw [set_reg live r some,get_eq]
  simp only [recorded,default]
  by_cases temporary : r.slt 0
  · rw [if_pos temporary,if_pos temporary,record_getElem,if_pos rfl]
  · rw [if_neg temporary,if_neg temporary,record_getElem,if_pos rfl]

theorem get_set_cell {s : State} (sorted : Sorted s.cells) (live : s.first ≠ Value.none) (a : Word)
    (some : val ≠ Value.none) :
    (s.set (Location.cell a).addr val).get (Location.cell a).addr = if val.kind = .ALL then s.first else val := by
  rw [set_cell live a some,get_eq]
  simp only [recorded,default]
  rw [SortedAssoc.find_store_self sorted]
  by_cases unconstrained : val.kind = .ALL
  · simp [unconstrained]
  · simp [unconstrained]

theorem mem_record {regs : List Value} {i : Nat} {val v : Value} (member : v ∈ record regs i val) :
    v = val ∨ v = Value.all ∨ v ∈ regs := by
  unfold record at member
  split at member
  · rcases List.mem_or_eq_of_mem_set member with old | new
    · exact .inr (.inr old)
    · exact .inl new
  · rw [List.mem_append,List.mem_append,List.mem_singleton] at member
    rcases member with (old | filler) | new
    · exact .inr (.inr old)
    · exact .inr (.inl (List.eq_of_mem_replicate filler))
    · exact .inl new

theorem record_length (regs : List Value) (i : Nat) (val : Value) :
    (record regs i val).length = Max.max regs.length (i + 1) := by
  unfold record
  split
  · rw [List.length_set]; omega
  · simp; omega

private theorem toNat_nonneg {r : Word} (real : ¬ r.slt 0 = true) : r.toNat < 2 ^ 31 := by
  have range := r.isLt
  have cond := BitVec.toInt_eq_toNat_cond r
  have zero : (0 : Word).toInt = 0 := by decide
  simp only [BitVec.slt_eq_decide,decide_eq_true_eq,zero] at real
  split at cond <;> omega

private theorem toNat_neg_bounds {r : Word} (temporary : r.slt 0 = true) :
    0 < (-r).toNat ∧ (-r).toNat ≤ 2 ^ 31 := by
  have range := r.isLt
  have cond := BitVec.toInt_eq_toNat_cond r
  have zero : (0 : Word).toInt = 0 := by decide
  simp only [BitVec.slt_eq_decide,decide_eq_true_eq,zero] at temporary
  rw [BitVec.toNat_neg]
  split at cond <;> omega

private theorem wellFormed_set_reg {s : State} (wf : WellFormed s) (live : s.first ≠ Value.none) (r : Word)
    (recorded : val.Recorded) :
    WellFormed (if r.slt 0 then { s with tmpreg := record s.tmpreg (-r).toNat val }
      else { s with registers := record s.registers r.toNat val }) := by
  have member (regs : List Value) (old : ∀ v ∈ regs, v.Recorded) (i : Nat) :
      ∀ v ∈ record regs i val, v.Recorded := by
    intro v inside
    rcases mem_record inside with rfl | rfl | before
    · exact recorded
    · exact .inr rfl
    · exact old v before
  split
  · rename_i temporary
    obtain ⟨positive,bound⟩ := toNat_neg_bounds temporary
    refine { wf with
      temporaries := member _ wf.temporaries _
      spare := ?_
      temporaryCount := ?_
      bottom := fun empty => absurd empty live }
    · intro v first
      have other := record_getElem s.tmpreg (-r).toNat 0 val
      rw [if_neg positive.ne] at other
      simp only [first,Option.getD_some] at other
      rw [other]
      cases spare : s.tmpreg[0]? with
      | none => rfl
      | some w => exact wf.spare w spare
    · have count := wf.temporaryCount
      simp only [record_length]
      omega
  · rename_i real
    have bound := toNat_nonneg real
    refine { wf with
      registers := member _ wf.registers _
      registerCount := ?_
      bottom := fun empty => absurd empty live }
    have count := wf.registerCount
    simp only [record_length]
    omega

theorem WellFormed.set {s : State} (wf : WellFormed s) (addr : Value) (recorded : val.Recorded) :
    WellFormed (s.set addr val) := by
  unfold State.set
  by_cases empty : s.first = Value.none
  · rw [if_pos empty]; exact wf
  rw [if_neg empty]
  by_cases nothing : val = Value.none
  · rw [if_pos nothing]; exact wellFormed_empty
  rw [if_neg nothing]
  by_cases register : addr.kind = .REG
  · rw [if_pos register]
    exact wellFormed_set_reg wf empty addr.lower recorded
  rw [if_neg register]
  by_cases everywhere : addr = Value.all
  · rw [if_pos everywhere]
    exact { wf with
      cells := by simp
      sorted := SortedAssoc.sorted_nil
      bottom := fun none => absurd none empty }
  rw [if_neg everywhere]
  refine { wf with
    cells := ?_
    sorted := SortedAssoc.store_sorted wf.sorted _ _
    bottom := fun none => absurd none empty }
  intro c member
  rcases SortedAssoc.mem_store member with ⟨entry,_⟩ | old
  · split at entry
    · rename_i bounded
      cases entry; exact recorded.resolve_right bounded
    · simp at entry
  · exact wf.cells c old

/-! ### Merging -/

def align (op : Value → Value → Option Value) : Option Value → Option Value → Option Value
  | some v,some w => op v w
  | some v,none => some v
  | none,other => other

theorem mergeRegisters_getElem {op : Value → Value → Option Value} {vs ws us : List Value}
    (merged : mergeRegisters op vs ws = some us) (i : Nat) : us[i]? = align op vs[i]? ws[i]? := by
  induction vs, ws using mergeRegisters.induct generalizing us i with
  | case1 v vs w ws ih =>
    simp only [mergeRegisters,Option.bind_eq_bind,Option.bind_eq_some_iff,Option.some.injEq] at merged
    obtain ⟨u,combined,rest,tail,rfl⟩ := merged
    cases i with
    | zero => simp [align,combined]
    | succ i => simpa using ih tail i
  | case2 vs =>
    rw [mergeRegisters.eq_2] at merged
    cases merged
    cases vs[i]? <;> simp [align]
  | case3 ws nonempty =>
    rw [mergeRegisters.eq_3 _ _ nonempty] at merged
    cases merged
    simp [align]

theorem mergeRegisters_total {op : Value → Value → Option Value} {vs ws : List Value}
    (total : ∀ (i : Nat) v w, vs[i]? = some v → ws[i]? = some w → op v w ≠ none) :
    ∃ us, mergeRegisters op vs ws = some us := by
  induction vs, ws using mergeRegisters.induct with
  | case1 v vs w ws ih =>
    obtain ⟨rest,tail⟩ := ih fun i => by simpa using total (i + 1)
    obtain ⟨u,combined⟩ := Option.ne_none_iff_exists'.mp (total 0 v w rfl rfl)
    exact ⟨u :: rest,by simp [mergeRegisters,combined,tail]⟩
  | case2 vs => exact ⟨vs,mergeRegisters.eq_2 _ _⟩
  | case3 ws nonempty => exact ⟨ws,mergeRegisters.eq_3 _ _ nonempty⟩

theorem mergeRegisters_defined {op : Value → Value → Option Value}
    (merged : mergeRegisters op vs ws = some us) {i : Nat} {v w : Value} (left : vs[i]? = some v)
    (right : ws[i]? = some w) : ∃ u, op v w = some u := by
  induction vs, ws using mergeRegisters.induct generalizing us i with
  | case1 x vs y ws ih =>
    simp only [mergeRegisters,Option.bind_eq_bind,Option.bind_eq_some_iff,Option.some.injEq] at merged
    obtain ⟨u,combined,rest,tail,rfl⟩ := merged
    cases i with
    | zero => cases left; cases right; exact ⟨u,combined⟩
    | succ i => exact ih tail left right
  | case2 vs => simp at right
  | case3 ws nonempty => simp at left

private theorem recorded_register (s : State) {i : Nat} (bound : i < 2 ^ 31) :
    s.recorded (.reg (BitVec.ofNat 32 i)) = s.registers[i]? := by
  have index : (BitVec.ofNat 32 i).toNat = i := by rw [BitVec.toNat_ofNat]; omega
  have real : ¬ (BitVec.ofNat 32 i).slt 0 = true := by
    have zero : (0 : Word).toInt = 0 := by decide
    rw [BitVec.slt_eq_decide,decide_eq_true_eq,zero,BitVec.toInt_eq_toNat_cond,index,if_pos (by omega)]
    omega
  rw [recorded,if_neg real,index]

private theorem recorded_temporary (s : State) {i : Nat} (positive : 0 < i) (bound : i ≤ 2 ^ 31) :
    s.recorded (.reg (-BitVec.ofNat 32 i)) = s.tmpreg[i]? := by
  have index : (BitVec.ofNat 32 i).toNat = i := by rw [BitVec.toNat_ofNat]; omega
  have opposite : (-BitVec.ofNat 32 i).toNat = 2 ^ 32 - i := by rw [BitVec.toNat_neg,index]; omega
  have temporary : (-BitVec.ofNat 32 i).slt 0 = true := by
    have zero : (0 : Word).toInt = 0 := by decide
    rw [BitVec.slt_eq_decide,decide_eq_true_eq,zero,BitVec.toInt_eq_toNat_cond,opposite,if_neg (by omega)]
    omega
  rw [recorded,if_pos temporary,neg_neg,index]

private theorem lt_of_getElem? {vs : List Value} {i : Nat} {v : Value} (member : vs[i]? = some v) : i < vs.length :=
  (List.getElem?_eq_some_iff.mp member).1

/-- The operation does not trap on any location recorded on both sides. -/
def Total (op : Value → Value → Option Value) (s t : State) : Prop :=
  ∀ l v w, s.recorded l = some v → t.recorded l = some w → ∃ u, op v w = some u

/-- A merge is one of the states, or both of them have parts to merge. -/
theorem merge_cases {op : Value → Value → Option Value} {s t u : State} (merged : merge op s t = some u) :
    u = s ∨ u = t ∨ s.first ≠ Value.none ∧ t.first ≠ Value.none := by
  by_cases rightLive : t.first = Value.none
  · rw [merge,if_pos rightLive] at merged
    exact .inl (Option.some.inj merged).symm
  by_cases leftLive : s.first = Value.none
  · rw [merge,if_neg rightLive,if_pos leftLive] at merged
    exact .inr (.inl (Option.some.inj merged).symm)
  · exact .inr (.inr ⟨leftLive,rightLive⟩)

/-- The merged cells ascend, and each is made of two cells and constrained. -/
theorem merged_cells {op : Value → Value → Option Value} {xs ys cells : List (Word × Value)} (left : Sorted xs)
    (right : Sorted ys) (memory : intersect (mergeCell op) xs ys = some cells) :
    Sorted cells ∧ ∀ c ∈ cells, c.2.kind ≠ .ALL ∧ ∃ v w, (c.1,v) ∈ xs ∧ op v w = some c.2 := by
  have spec := SortedAssoc.intersect_spec (mergeCell op) left right
  rw [memory] at spec
  refine ⟨spec.1,?_⟩
  rintro ⟨a,r⟩ member
  obtain ⟨v,w,inside,_,kept⟩ := (spec.2.1 a r).mp member
  simp only [mergeCell,Option.map_eq_some_iff] at kept
  obtain ⟨z,combined,entry⟩ := kept
  split at entry
  · cases entry
  · rename_i bounded
    cases entry
    exact ⟨bounded,v,w,inside,combined⟩

section Merge
variable {op : Value → Value → Option Value} {s t : State}
variable (left : WellFormed s) (right : WellFormed t)
variable (leftLive : s.first ≠ Value.none) (rightLive : t.first ≠ Value.none)
include leftLive rightLive

theorem merge_parts {u : State} (merged : merge op s t = some u) :
    ∃ registers tmpreg cells, mergeRegisters op s.registers t.registers = some registers ∧
      mergeRegisters op s.tmpreg t.tmpreg = some tmpreg ∧ intersect (mergeCell op) s.cells t.cells = some cells ∧
      u = ⟨s.first,cells,registers,tmpreg⟩ := by
  simp only [merge,if_neg leftLive,if_neg rightLive,Option.bind_eq_bind,Option.bind_eq_some_iff,
    Option.some.injEq] at merged
  obtain ⟨registers,real,tmpreg,temporary,cells,memory,rfl⟩ := merged
  exact ⟨registers,tmpreg,cells,real,temporary,memory,rfl⟩

include left right

theorem merge_defined {u : State} (merged : merge op s t = some u) : Total op s t := by
  obtain ⟨registers,tmpreg,cells,real,temporary,memory,rfl⟩ := merge_parts leftLive rightLive merged
  intro l v w vRecorded wRecorded
  cases l with
  | reg r =>
    simp only [recorded] at vRecorded wRecorded
    split at vRecorded <;> rename_i sign
    · rw [if_pos sign] at wRecorded
      exact mergeRegisters_defined temporary vRecorded wRecorded
    · rw [if_neg sign] at wRecorded
      exact mergeRegisters_defined real vRecorded wRecorded
  | cell a =>
    have spec := SortedAssoc.intersect_spec (mergeCell op) left.sorted right.sorted
    rw [memory] at spec
    have kept := spec.2.2 a v w ((SortedAssoc.find_eq_some_iff left.sorted).mp vRecorded)
      ((SortedAssoc.find_eq_some_iff right.sorted).mp wRecorded)
    rw [mergeCell,Ne,Option.map_eq_none_iff] at kept
    exact Option.ne_none_iff_exists'.mp kept

theorem merge_total (spare : ∃ u, op Value.all Value.all = some u) (total : Total op s t) :
    ∃ u, merge op s t = some u := by
  obtain ⟨registers,real⟩ : ∃ us, mergeRegisters op s.registers t.registers = some us := by
    apply mergeRegisters_total
    intro i v w vMem wMem
    have bound : i < 2 ^ 31 := (lt_of_getElem? vMem).trans_le left.registerCount
    rw [← recorded_register s bound] at vMem
    rw [← recorded_register t bound] at wMem
    exact Option.ne_none_iff_exists'.mpr (total _ v w vMem wMem)
  obtain ⟨tmpreg,temporary⟩ : ∃ us, mergeRegisters op s.tmpreg t.tmpreg = some us := by
    apply mergeRegisters_total
    intro i v w vMem wMem
    rcases Nat.eq_zero_or_pos i with rfl | positive
    · rw [left.spare v vMem,right.spare w wMem]
      exact Option.ne_none_iff_exists'.mpr spare
    · have bound : i ≤ 2 ^ 31 := Nat.lt_succ_iff.mp ((lt_of_getElem? vMem).trans_le left.temporaryCount)
      rw [← recorded_temporary s positive bound] at vMem
      rw [← recorded_temporary t positive bound] at wMem
      exact Option.ne_none_iff_exists'.mpr (total _ v w vMem wMem)
  obtain ⟨cells,memory⟩ : ∃ us, intersect (mergeCell op) s.cells t.cells = some us := by
    have spec := SortedAssoc.intersect_spec (mergeCell op) left.sorted right.sorted
    cases result : intersect (mergeCell op) s.cells t.cells with
    | some us => exact ⟨us,rfl⟩
    | none =>
      rw [result] at spec
      obtain ⟨a,v,w,vMem,wMem,failed⟩ := spec
      obtain ⟨u,combined⟩ := total (.cell a) v w ((SortedAssoc.find_eq_some_iff left.sorted).mpr vMem)
        ((SortedAssoc.find_eq_some_iff right.sorted).mpr wMem)
      simp [mergeCell,combined] at failed
  exact ⟨_,by simp [merge,leftLive,rightLive,real,temporary,memory]; rfl⟩

/-- The words that a merged state allows at a location, from what both sides record. -/
def MergedMem (op : Value → Value → Option Value) : Location → Option Value → Option Value → Word → Prop
  | _,some v,some w,x => ∃ u, op v w = some u ∧ x ∈ u
  | .reg _,some v,none,x => x ∈ v
  | .reg _,none,some w,x => x ∈ w
  | _,_,_,_ => True

theorem mem_merge {u : State} (merged : merge op s t = some u) (l : Location) (x : Word) :
    x ∈ u.get l.addr ↔ MergedMem op l (s.recorded l) (t.recorded l) x := by
  have defined := merge_defined left right leftLive rightLive merged l
  obtain ⟨registers,tmpreg,cells,real,temporary,memory,rfl⟩ := merge_parts leftLive rightLive merged
  rw [get_eq]
  cases l with
  | reg r =>
    have aligned : State.recorded ⟨s.first,cells,registers,tmpreg⟩ (.reg r) =
        align op (s.recorded (.reg r)) (t.recorded (.reg r)) := by
      simp only [recorded]
      split
      · exact mergeRegisters_getElem temporary _
      · exact mergeRegisters_getElem real _
    rw [aligned]
    cases vRecorded : s.recorded (.reg r) with
    | none =>
      cases wRecorded : t.recorded (.reg r) with
      | none => simpa [align,MergedMem,default] using Value.mem_all rfl
      | some w => simp [align,MergedMem]
    | some v =>
      cases wRecorded : t.recorded (.reg r) with
      | none => simp [align,MergedMem]
      | some w =>
        obtain ⟨u,combined⟩ := defined v w vRecorded wRecorded
        simp [align,MergedMem,combined]
  | cell a =>
    have spec := SortedAssoc.intersect_spec (mergeCell op) left.sorted right.sorted
    rw [memory] at spec
    obtain ⟨sorted,entries,_⟩ := spec
    have found (r : Value) : find cells a = some r ↔
        ∃ v w, s.recorded (.cell a) = some v ∧ t.recorded (.cell a) = some w ∧ mergeCell op v w = some (some r) := by
      rw [SortedAssoc.find_eq_some_iff sorted,entries]
      simp only [recorded,SortedAssoc.find_eq_some_iff left.sorted,SortedAssoc.find_eq_some_iff right.sorted]
    have top : x ∈ s.first := by rw [left.first.resolve_left leftLive]; exact Value.mem_all rfl
    have forgotten (none : ∀ r, find cells a ≠ some r) :
        x ∈ (State.recorded ⟨s.first,cells,registers,tmpreg⟩ (.cell a)).getD s.first := by
      rw [recorded,Option.eq_none_iff_forall_ne_some.mpr none]
      exact top
    cases vRecorded : s.recorded (.cell a) with
    | none =>
      refine iff_of_true (forgotten fun r => ?_) (by simp [MergedMem])
      simp [found,vRecorded]
    | some v =>
      cases wRecorded : t.recorded (.cell a) with
      | none =>
        refine iff_of_true (forgotten fun r => ?_) (by simp [MergedMem])
        simp [found,wRecorded]
      | some w =>
        obtain ⟨u,combined⟩ := defined v w vRecorded wRecorded
        by_cases unconstrained : u.kind = .ALL
        · refine iff_of_true (forgotten fun r => ?_) ⟨u,combined,Value.mem_all unconstrained⟩
          intro kept
          obtain ⟨v',w',vSame,wSame,same⟩ := (found r).mp kept
          cases vRecorded.symm.trans vSame
          cases wRecorded.symm.trans wSame
          simp [mergeCell,combined,unconstrained] at same
        · have kept : find cells a = some u := by
            rw [found]
            exact ⟨v,w,vRecorded,wRecorded,by simp [mergeCell,combined,unconstrained]⟩
          simp [recorded,kept,MergedMem,combined]

end Merge

private theorem align_some {op : Value → Value → Option Value} {v w : Option Value} {u : Value}
    (aligned : align op v w = some u) :
    (∃ x y, v = some x ∧ w = some y ∧ op x y = some u) ∨ v = some u ∨ w = some u := by
  cases v with
  | none => exact .inr (.inr aligned)
  | some x =>
    cases w with
    | none => exact .inr (.inl aligned)
    | some y => exact .inl ⟨x,y,rfl,rfl,aligned⟩

private theorem mem_merged {op : Value → Value → Option Value}
    (merged : mergeRegisters op vs ws = some us) {i : Nat} {u : Value} (member : us[i]? = some u) :
    (∃ x ∈ vs, ∃ y, op x y = some u) ∨ u ∈ vs ∨ u ∈ ws := by
  rw [mergeRegisters_getElem merged i] at member
  rcases align_some member with ⟨x,y,left,_,combined⟩ | left | right
  · exact .inl ⟨x,List.mem_of_getElem? left,y,combined⟩
  · exact .inr (.inl (List.mem_of_getElem? left))
  · exact .inr (.inr (List.mem_of_getElem? right))

private theorem merged_length {op : Value → Value → Option Value} {n : Nat}
    (merged : mergeRegisters op vs ws = some us) (left : vs.length ≤ n) (right : ws.length ≤ n) : us.length ≤ n := by
  by_contra longer
  have last := mergeRegisters_getElem merged n
  rw [List.getElem?_eq_none left,List.getElem?_eq_none right,List.getElem?_eq_some_iff.mpr ⟨by omega,rfl⟩] at last
  cases last

theorem WellFormed.merge {op : Value → Value → Option Value} {s t u : State} (left : WellFormed s)
    (right : WellFormed t) (records : ∀ v w z, v.Recorded → op v w = some z → z.Recorded)
    (spare : op Value.all Value.all = some Value.all) (merged : State.merge op s t = some u) : WellFormed u := by
  rcases merge_cases merged with rfl | rfl | ⟨leftLive,rightLive⟩
  · exact left
  · exact right
  obtain ⟨registers,tmpreg,cells,real,temporary,memory,rfl⟩ := merge_parts leftLive rightLive merged
  obtain ⟨sorted,made⟩ := merged_cells left.sorted right.sorted memory
  have recordedIn {vs ws us : List Value} (vectors : mergeRegisters op vs ws = some us)
      (vsRecorded : ∀ v ∈ vs, v.Recorded) (wsRecorded : ∀ w ∈ ws, w.Recorded) : ∀ z ∈ us, z.Recorded := by
    intro z member
    obtain ⟨i,here⟩ := List.mem_iff_getElem?.mp member
    rcases mem_merged vectors here with ⟨x,inside,y,combined⟩ | inside | inside
    · exact records x y z (vsRecorded x inside) combined
    · exact vsRecorded z inside
    · exact wsRecorded z inside
  refine {
    first := left.first
    registers := recordedIn real left.registers right.registers
    temporaries := recordedIn temporary left.temporaries right.temporaries
    cells := ?_
    sorted := sorted
    spare := ?_
    registerCount := merged_length real left.registerCount right.registerCount
    temporaryCount := merged_length temporary left.temporaryCount right.temporaryCount
    bottom := fun empty => absurd empty leftLive }
  · intro c member
    obtain ⟨bounded,v,w,inside,combined⟩ := made c member
    exact (records v w c.2 (.inl (left.cells _ inside)) combined).resolve_right bounded
  · intro z member
    rw [mergeRegisters_getElem temporary 0] at member
    rcases align_some member with ⟨x,y,leftSpare,rightSpare,combined⟩ | leftSpare | rightSpare
    · rw [left.spare x leftSpare,right.spare y rightSpare,spare] at combined
      exact (Option.some.inj combined).symm
    · exact left.spare z leftSpare
    · exact right.spare z rightSpare

theorem WellFormed.join {s t u : State} (left : WellFormed s) (right : WellFormed t) (joined : s.join t = some u) :
    WellFormed u :=
  left.merge right (fun _ _ _ => Value.join_recorded) (by simp [Value.join]) joined

theorem WellFormed.widening {s t u : State} (left : WellFormed s) (right : WellFormed t) {loopBound : Word}
    (widened : s.widening t loopBound = some u) : WellFormed u := by
  refine left.merge right ?_ ?_ widened
  · intro v w z recorded combined
    split at combined
    · cases combined; exact Value.widening_recorded recorded
    · exact Value.ffwidening_recorded recorded combined
  · split <;> rfl

theorem WellFormed.clear {s : State} (wf : WellFormed s) (base size : Word) : WellFormed (s.clear base size) := by
  unfold State.clear
  split
  · exact wf
  · rename_i live
    exact { wf with
      cells := fun c member => wf.cells c (List.mem_of_mem_filter member)
      sorted := wf.sorted.filter _
      bottom := fun empty => absurd empty live }

def Sound (result : Option State) (s t : State) : Prop :=
  ∃ u, result = some u ∧ ∀ m, Covers s m ∨ Covers t m → Covers u m

/-- What merging needs: the operation keeps both values wherever both sides record
    one, and a register that only one side records is unconstrained in it. -/
def MergeKeeps (keeps : Value → Value → Prop) (s t : State) : Prop :=
  ∀ l, match l,s.recorded l,t.recorded l with
    | _,some v,some w => keeps v w
    | .reg _,some v,none => ∀ x, x ∈ v
    | .reg _,none,some w => ∀ x, x ∈ w
    | _,_,_ => True

private theorem inhabited {v : Value} (recorded : v.Recorded) : ∃ x, x ∈ v := by
  rcases recorded with kind | kind
  · exact ⟨v.lower,(Value.mem_val kind).mpr (Progression.base_mem _ _ _)⟩
  · exact ⟨0,Value.mem_all kind⟩

theorem WellFormed.get_recorded {s : State} (wf : WellFormed s) (live : s.first ≠ Value.none) (l : Location) :
    (s.get l.addr).Recorded := by
  rw [get_eq,wf.default_all live]
  cases found : s.recorded l with
  | none => exact .inr rfl
  | some v => exact wf.recorded found

theorem exists_machine {s : State} (wf : WellFormed s) (live : s.first ≠ Value.none) (l : Location) {x : Word}
    (member : x ∈ s.get l.addr) : ∃ m, Covers s m ∧ m l = x := by
  choose word allowed using fun k : Location => inhabited (wf.get_recorded live k)
  refine ⟨fun k => if k = l then x else word k,?_,by simp⟩
  intro k
  by_cases same : k = l
  · subst same; simpa using member
  · simpa [same] using allowed k

section Soundness
variable {op : Value → Value → Option Value} {s t : State}
variable (left : WellFormed s) (right : WellFormed t)
variable (leftLive : s.first ≠ Value.none) (rightLive : t.first ≠ Value.none)
include left right leftLive rightLive

private theorem keeps_of_sound (sound : Sound (merge op s t) s t) :
    MergeKeeps (fun v w => Value.Keeps (op v w) v w) s t := by
  obtain ⟨u,merged,covered⟩ := sound
  have member (l : Location) (x : Word) (allowed : x ∈ s.get l.addr ∨ x ∈ t.get l.addr) :
      MergedMem op l (s.recorded l) (t.recorded l) x := by
    rw [← mem_merge left right leftLive rightLive merged]
    rcases allowed with allowed | allowed
    · obtain ⟨m,cover,rfl⟩ := exists_machine left leftLive l allowed
      exact covered m (.inl cover) l
    · obtain ⟨m,cover,rfl⟩ := exists_machine right rightLive l allowed
      exact covered m (.inr cover) l
  intro l
  have total := merge_defined left right leftLive rightLive merged l
  have here := member l
  simp only [get_eq,left.default_all leftLive,right.default_all rightLive] at here
  cases vRecorded : s.recorded l with
  | none =>
    cases wRecorded : t.recorded l with
    | none => cases l <;> trivial
    | some w =>
      rw [vRecorded,wRecorded] at here
      cases l with
      | reg r => exact fun x => here x (.inl (Value.mem_all rfl))
      | cell a => trivial
  | some v =>
    cases wRecorded : t.recorded l with
    | none =>
      rw [vRecorded,wRecorded] at here
      cases l with
      | reg r => exact fun x => here x (.inr (Value.mem_all rfl))
      | cell a => trivial
    | some w =>
      obtain ⟨z,combined⟩ := total v w vRecorded wRecorded
      rw [vRecorded,wRecorded] at here
      have both : Value.Keeps (op v w) v w := by
        rw [combined,Value.keeps_some]
        simp only [MergedMem,combined,Option.some.injEq,exists_eq_left'] at here
        exact ⟨fun x allowed => here x (.inl allowed),fun x allowed => here x (.inr allowed)⟩
      cases l <;> exact both

private theorem sound_of_keeps (spare : ∃ u, op Value.all Value.all = some u)
    (keeps : MergeKeeps (fun v w => Value.Keeps (op v w) v w) s t) : Sound (merge op s t) s t := by
  have both {l : Location} {v w : Value} (vRecorded : s.recorded l = some v) (wRecorded : t.recorded l = some w) :
      Value.Keeps (op v w) v w := by
    have here := keeps l
    rw [vRecorded,wRecorded] at here
    cases l <;> exact here
  obtain ⟨u,merged⟩ := merge_total left right leftLive rightLive spare fun l v w vRecorded wRecorded =>
    have ⟨z,combined,_⟩ := both vRecorded wRecorded
    ⟨z,combined⟩
  refine ⟨u,merged,?_⟩
  intro m covered l
  rw [mem_merge left right leftLive rightLive merged]
  have allowed : m l ∈ s.get l.addr ∨ m l ∈ t.get l.addr := covered.imp (· l) (· l)
  have here := keeps l
  rw [get_eq,get_eq] at allowed
  cases vRecorded : s.recorded l with
  | none =>
    cases wRecorded : t.recorded l with
    | none => cases l <;> trivial
    | some w =>
      rw [vRecorded,wRecorded] at here
      cases l with
      | reg r => exact here (m (.reg r))
      | cell a => trivial
  | some v =>
    cases wRecorded : t.recorded l with
    | none =>
      rw [vRecorded,wRecorded] at here
      cases l with
      | reg r => exact here (m (.reg r))
      | cell a => trivial
    | some w =>
      obtain ⟨z,combined,vKept,wKept⟩ := both vRecorded wRecorded
      simp only [vRecorded,wRecorded,Option.getD_some] at allowed
      have kept : ∃ z, op v w = some z ∧ m l ∈ z := ⟨z,combined,allowed.elim (vKept _) (wKept _)⟩
      cases l <;> exact kept

end Soundness

theorem merge_sound_iff {op : Value → Value → Option Value} {s t : State} (left : WellFormed s) (right : WellFormed t)
    (spare : ∃ u, op Value.all Value.all = some u) :
    Sound (merge op s t) s t ↔ s.first = Value.none ∨ t.first = Value.none ∨
      MergeKeeps (fun v w => Value.Keeps (op v w) v w) s t := by
  by_cases rightLive : t.first = Value.none
  · refine iff_of_true ⟨s,if_pos rightLive,?_⟩ (.inr (.inl rightLive))
    rintro m (covered | covered)
    · exact covered
    · exact absurd covered (not_covers_of_bottom right rightLive m)
  by_cases leftLive : s.first = Value.none
  · refine iff_of_true ⟨t,by rw [merge,if_neg rightLive,if_pos leftLive],?_⟩ (.inl leftLive)
    rintro m (covered | covered)
    · exact absurd covered (not_covers_of_bottom left leftLive m)
    · exact covered
  simp only [leftLive,rightLive,false_or]
  exact ⟨keeps_of_sound left right leftLive rightLive,sound_of_keeps left right leftLive rightLive spare⟩

theorem mergeKeeps_congr {s t : State} (left : WellFormed s) (right : WellFormed t) {p q : Value → Value → Prop}
    (same : ∀ v w, v.Recorded → w.Recorded → (p v w ↔ q v w)) : MergeKeeps p s t ↔ MergeKeeps q s t := by
  apply forall_congr'
  intro l
  cases vRecorded : s.recorded l with
  | none => cases t.recorded l <;> cases l <;> exact Iff.rfl
  | some v =>
    cases wRecorded : t.recorded l with
    | none => cases l <;> exact Iff.rfl
    | some w =>
      have here := same v w (left.recorded vRecorded) (right.recorded wRecorded)
      cases l <;> exact here

theorem join_sound_iff {s t : State} (left : WellFormed s) (right : WellFormed t) :
    Sound (s.join t) s t ↔ s.first = Value.none ∨ t.first = Value.none ∨ MergeKeeps Value.JoinKept s t := by
  rw [join,merge_sound_iff left right ⟨Value.all,by simp [Value.join]⟩,
    mergeKeeps_congr left right fun v w vRecorded wRecorded =>
      Value.join_contains_iff vRecorded.ne_reg wRecorded.ne_reg]
  rfl

/-- `join` and `widening` cover both operands exactly when one of them is bottom,
    or they record the same constrained registers and, at every location recorded
    on both sides, the two values fit the operation. -/
theorem join_widening_iff {s t : State} (left : WellFormed s) (right : WellFormed t) :
    (Sound (s.join t) s t ↔ s.first = Value.none ∨ t.first = Value.none ∨ MergeKeeps Value.JoinKept s t) ∧
      ∀ loopBound : Word, (Sound (s.widening t loopBound) s t ↔ s.first = Value.none ∨ t.first = Value.none ∨
        MergeKeeps (Value.WideningKept loopBound) s t) := by
  constructor
  · exact join_sound_iff left right
  · intro loopBound
    have spare : ∃ u, (if loopBound.slt 0 then some (Value.all.widening Value.all)
        else Value.all.ffwidening Value.all loopBound) = some u := by
      split <;> exact ⟨_,rfl⟩
    rw [widening,merge_sound_iff left right spare,mergeKeeps_congr left right fun v w vRecorded wRecorded => ?_]
    simp only [Value.WideningKept]
    split
    · exact Value.widening_contains_iff vRecorded.ne_reg wRecorded.ne_reg
    · exact Value.ffwidening_contains_iff loopBound vRecorded.ne_reg wRecorded.ne_reg

theorem full_covers (m : Machine) : Covers FULL m := by
  intro l
  have nothing : FULL.recorded l = none := by cases l <;> simp [recorded,FULL,find]
  rw [get_eq,nothing,wellFormed_full.default_all (by decide)]
  exact Value.mem_all rfl

/-- A register known to be 5 on one side only: the other side leaves it
    unconstrained, and both merges answer 5. -/
theorem join_forgets_unconstrained :
    ¬ ((∀ s t : State, WellFormed s → WellFormed t → Sound (s.join t) s t) ∧
      ∀ s t : State, WellFormed s → WellFormed t → ∀ loopBound, Sound (s.widening t loopBound) s t) := by
  rintro ⟨sound,-⟩
  have five : (Value.const 5).Recorded := .inl rfl
  have known : WellFormed (FULL.set ⟨.REG,0,0,0⟩ (Value.const 5)) := wellFormed_full.set _ five
  obtain ⟨u,joined,covered⟩ := sound FULL _ wellFormed_full known
  have result : u = ⟨Value.all,[],[Value.const 5],[]⟩ := by
    have computed : FULL.join (FULL.set ⟨.REG,0,0,0⟩ (Value.const 5)) = some ⟨Value.all,[],[Value.const 5],[]⟩ := by
      simp [join,merge,set,FULL,record,mergeRegisters,intersect,Value.const,Value.none,Value.all]
    rw [computed] at joined
    exact (Option.some.inj joined).symm
  have lost := covered (fun _ => 0) (.inl (full_covers _)) (.reg 0)
  rw [result] at lost
  have same : (0 : Word) = 5 := (Progression.mem_const (.inl rfl)).mp lost
  exact absurd same (by decide)

/-- Register 0 and the cell 0x100 are known. -/
def twoKnown (v w : Value) : State := ⟨Value.all,[(0x100,w)],[v],[]⟩

theorem wellFormed_twoKnown {v w : Value} (register : v.Recorded) (cell : w.kind = .VAL) : WellFormed (twoKnown v w) where
  first := .inr rfl
  registers := by simpa [twoKnown] using register
  temporaries := by simp [twoKnown]
  cells := by simpa [twoKnown] using cell
  sorted := List.pairwise_singleton _ _
  spare := by simp [twoKnown]
  registerCount := by simp [twoKnown]
  temporaryCount := by simp [twoKnown]
  bottom := by simp [twoKnown,Value.all,Value.none]

theorem mergeKeeps_twoKnown {keeps : Value → Value → Prop} {v w v' w' : Value} (register : keeps v v')
    (cell : keeps w w') : MergeKeeps keeps (twoKnown v w) (twoKnown v' w') := by
  intro l
  cases l with
  | reg r =>
    by_cases zero : r = 0
    · subst zero
      exact register
    · have other : r.toNat ≠ 0 := fun same => zero (BitVec.eq_of_toNat_eq same)
      have nothing (v w : Value) : (twoKnown v w).recorded (.reg r) = none := by
        cases index : r.toNat with
        | zero => exact absurd index other
        | succ n => simp [recorded,twoKnown,index]
      rw [nothing,nothing]
      trivial
  | cell a =>
    by_cases same : a = 0x100
    · subst same
      exact cell
    · have nothing (v w : Value) : (twoKnown v w).recorded (.cell a) = none := by
        have other : ¬ (256#32 : Word) = a := fun other => same other.symm
        simp [recorded,twoKnown,find,other]
      rw [nothing,nothing]
      trivial

/-- Register 0 walks over 0, 4, 8, 12 and over 16, 20, 24, 28, the cell holds 1 and 3. -/
theorem join_widening_iff_walks :
    Sound ((twoKnown ⟨.VAL,0,4,3⟩ (Value.const 1)).join (twoKnown ⟨.VAL,16,4,3⟩ (Value.const 3)))
        (twoKnown ⟨.VAL,0,4,3⟩ (Value.const 1)) (twoKnown ⟨.VAL,16,4,3⟩ (Value.const 3)) ∧
      Sound ((twoKnown ⟨.VAL,0,4,3⟩ (Value.const 1)).widening (twoKnown ⟨.VAL,16,4,3⟩ (Value.const 3)) (-1))
        (twoKnown ⟨.VAL,0,4,3⟩ (Value.const 1)) (twoKnown ⟨.VAL,16,4,3⟩ (Value.const 3)) := by
  have both := join_widening_iff (wellFormed_twoKnown (v := ⟨.VAL,0,4,3⟩) (w := Value.const 1) (.inl rfl) rfl)
    (wellFormed_twoKnown (v := ⟨.VAL,16,4,3⟩) (w := Value.const 3) (.inl rfl) rfl)
  constructor
  · refine both.1.mpr (.inr (.inr (mergeKeeps_twoKnown (fun _ _ => Value.joinFits_walks) fun _ _ => .inr ?_)))
    rw [if_pos (by decide)]
    decide
  · refine (both.2 (-1)).mpr (.inr (.inr (mergeKeeps_twoKnown (fun _ _ => ?_) fun _ _ => ?_)))
    · exact Value.wideningFits_walks
    · refine .inr ?_
      rw [if_pos (by decide)]
      exact fun _ => rfl

end State
end Otawa.Clp
