import Otawa.ClpState

/-!
Interpretation of the semantic instructions by the analysis (`ClpProblem::update`).
A store through a known set of addresses records the stored value in every cell of
the set; `store_covers_iff` says when the state obtained so covers the machines in
which only one of the cells was written.
-/
namespace Otawa.Clp

/-- `sem::type_t`, the types of loads and stores. -/
inductive MemType where
  | NO_TYPE | INT8 | INT16 | INT32 | INT64 | UINT8 | UINT16 | UINT32 | UINT64 | FLOAT32 | FLOAT64
  deriving DecidableEq

/-- `sem::inst`. `other` stands for the opcodes that the analysis does not interpret
    (NEG, NOT, AND, XOR, MUL, MULU, DIV, DIVU, MOD, MODU and SPEC). -/
inductive Inst where
  | NOP | TRAP | CONT
  | BRANCH (d : BitVec 16)
  | IF (cond sr jump : BitVec 16)
  | LOAD (d a : BitVec 16) (type : MemType)
  | STORE (d a : BitVec 16) (type : MemType)
  | SCRATCH (d : BitVec 16)
  | SET (d a : BitVec 16)
  | SETI (d : BitVec 16) (cst : Word)
  | SETP (d : BitVec 16) (cst : Word)
  | CMP (d a b : BitVec 16)
  | CMPU (d a b : BitVec 16)
  | ADD (d a b : BitVec 16)
  | SUB (d a b : BitVec 16)
  | SHL (d a b : BitVec 16)
  | SHR (d a b : BitVec 16)
  | ASR (d a b : BitVec 16)
  | OR (d a b : BitVec 16)
  | other (d : BitVec 16)

/-- What the analysis reads of the program: its data, the interval of its constant
    data and the address and the size of the symbol at an address. -/
structure Process where
  get8 : Word → BitVec 8
  get16 : Word → BitVec 16
  get32 : Word → BitVec 32
  dataMin : Word
  dataMax : Word
  findSymbolAt : Word → Option (Word × Word)

/-- `class ClpProblem`: the position in the current block, the paths left to follow
    and whether a condition was met. -/
structure ClpProblem where
  length : Int
  pc : Int
  todo : List (Int × State)
  hasIf : Bool

def regAddr (i : BitVec 16) : Value := ⟨.REG,i.signExtend 32,0,0⟩

def readFromMem (process : Process) (address : Word) : MemType → Value
  | .INT8 => Value.const ((process.get8 address).signExtend 32)
  | .INT16 => Value.const ((process.get16 address).signExtend 32)
  | .INT32 => Value.const (process.get32 address)
  | .UINT8 => Value.const ((process.get8 address).zeroExtend 32)
  | .UINT16 => Value.const ((process.get16 address).zeroExtend 32)
  | .UINT32 => Value.const (process.get32 address)
  | _ => Value.all

/-- The address of rank `m` of a set of addresses. -/
def addrAt (addrclp : Value) (m : Nat) : Value := Value.const (addrclp.lower + addrclp.delta * BitVec.ofNat 32 m)

def loadRest (d : BitVec 16) (addrclp : Value) : List Nat → State → Option State
  | [],state => some state
  | m :: rest,state => do
    let val ← (state.get (regAddr d)).join (state.get (addrAt addrclp m))
    loadRest d addrclp rest (state.set (regAddr d) val)

def loadCells (state : State) (d : BitVec 16) (addrclp : Value) : Option State :=
  if addrclp = Value.all then some (state.set (regAddr d) addrclp)
  else if addrclp.mtimes < 42 then
    loadRest d addrclp (List.range' 1 addrclp.mtimes.toNat)
      (state.set (regAddr d) (state.get (Value.const addrclp.lower)))
  else some (state.set (regAddr d) Value.all)

/-- `case sem::LOAD`: an unknown word of the constant data is read from the program. -/
def updateLoad (process : Process) (state : State) (d a : BitVec 16) (type : MemType) : Option State :=
  let addrclp := state.get (regAddr a)
  (loadCells state d addrclp).map fun loaded =>
    if loaded.get (regAddr d) = Value.all ∧ addrclp.isConst ∧ process.dataMin ≤ addrclp.start ∧
        addrclp.start < process.dataMax then
      loaded.set (regAddr d) (readFromMem process addrclp.lower type)
    else loaded

def storeAll (d : BitVec 16) (addrclp : Value) : List Nat → State → State
  | [],state => state
  | m :: rest,state => storeAll d addrclp rest (state.set (addrAt addrclp m) (state.get (regAddr d)))

/-- `case sem::STORE`. -/
def updateStore (process : Process) (state : State) (d a : BitVec 16) : State :=
  let addrclp := state.get (regAddr a)
  if addrclp = Value.all then state.set addrclp (state.get (regAddr d))
  else if 42 ≤ addrclp.mtimes then
    if addrclp.mtimes < umax then
      (state.set Value.all (state.get (regAddr d))).clear addrclp.start (abs addrclp.delta * addrclp.mtimes)
    else
      match process.findSymbolAt addrclp.lower with
      | none => state
      | some (offset,size) => state.clear offset size
  else storeAll d addrclp (List.range (addrclp.mtimes.toNat + 1)) state

/-- `update(State *)`: interpret one instruction; `none` when a division traps. -/
def update (process : Process) (p : ClpProblem) (state : State) (i : Inst) : Option (ClpProblem × State) :=
  let next : ClpProblem := { p with pc := p.pc + 1 }
  let stop : ClpProblem := { p with pc := p.length + 1 }
  let set (d : BitVec 16) (v : Value) : Option (ClpProblem × State) := some (next,state.set (regAddr d) v)
  let get (r : BitVec 16) : Value := state.get (regAddr r)
  match i with
  | .BRANCH _ => some (stop,state)
  | .TRAP => some (stop,state)
  | .CONT => some (stop,state)
  | .IF _ _ jump =>
    some ({ next with todo := (p.pc + jump.toInt + 1,state) :: p.todo, hasIf := true },state)
  | .NOP => some (next,state)
  | .LOAD d a type => (updateLoad process state d a type).map (next,·)
  | .STORE d a _ => some (next,updateStore process state d a)
  | .SETP d _ => set d Value.all
  | .CMP d _ _ => set d Value.all
  | .CMPU d _ _ => set d Value.all
  | .SCRATCH d => set d Value.all
  | .SET d a => set d (get a)
  | .SETI d cst => set d (Value.const cst)
  | .ADD d a b => set d ((get a).add (get b))
  | .SUB d a b => set d ((get a).sub (get b))
  | .SHL d a b => set d ((get a).shl (get b))
  | .SHR d a b => set d ((get a).shr (get b))
  | .ASR d a b => set d ((get a).shr (get b))
  | .OR d a b => set d ((get a).or (get b))
  | .other d => set d Value.all

namespace State

theorem mem_get_set {s : State} (wf : WellFormed s) (live : s.first ≠ Value.none) (k l : Location) {val : Value}
    (recorded : val.Recorded) (x : Word) :
    x ∈ (s.set k.addr val).get l.addr ↔ if l = k then x ∈ val else x ∈ s.get l.addr := by
  have some := recorded.ne_none
  by_cases same : l = k
  · subst same
    rw [if_pos rfl]
    cases l with
    | reg r => rw [get_set_reg live r some]
    | cell a =>
      rw [get_set_cell wf.sorted live a some]
      split
      · rename_i unconstrained
        have everywhere : x ∈ s.first := by rw [wf.first.resolve_left live]; exact Value.mem_all rfl
        exact iff_of_true everywhere (Value.mem_all unconstrained)
      · exact Iff.rfl
  · rw [if_neg same,get_set_other wf.sorted live same some]

theorem set_live {s : State} (live : s.first ≠ Value.none) (addr : Value) {val : Value} (recorded : val.Recorded) :
    (s.set addr val).first ≠ Value.none := by
  have some := recorded.ne_none
  unfold set
  rw [if_neg live,if_neg some]
  repeat' split
  all_goals exact live

end State

theorem Value.arithmetic_recorded {v w : Value} (left : v.Recorded) (right : w.Recorded) :
    (v.add w).Recorded ∧ (v.sub w).Recorded ∧ (v.shl w).Recorded ∧ (v.shr w).Recorded ∧ (v.or w).Recorded := by
  have some : ¬ (v.kind = .NONE ∧ w.kind = .NONE) := by
    rintro ⟨nothing,-⟩
    rcases left with kind | kind <;> rw [nothing] at kind <;> cases kind
  refine ⟨?_,?_,?_,?_,?_⟩
  · unfold add; simp only [if_neg some]
    split <;> split <;> first | exact .inl rfl | exact .inr rfl | (split <;> first | exact left | exact .inl rfl)
  · unfold sub; simp only [if_neg some]
    split <;> split <;> first | exact .inl rfl | exact .inr rfl | (split <;> first | exact left | exact .inl rfl)
  · unfold shl
    repeat' split
    all_goals first | exact left | exact .inl rfl | exact .inr rfl
  · unfold shr
    repeat' split
    all_goals first | exact left | exact .inl rfl | exact .inr rfl
  · unfold or
    repeat' split
    all_goals first | exact left | exact right | exact .inr rfl

open State

theorem State.WellFormed.set_of_live {s : State} (wf : WellFormed s) (addr : Value) {val : Value}
    (recorded : s.first ≠ Value.none → val.Recorded) : WellFormed (s.set addr val) := by
  by_cases live : s.first = Value.none
  · rw [State.set,if_pos live]; exact wf
  · exact wf.set addr (recorded live)

theorem reg_bottom {s : State} (wf : WellFormed s) (empty : s.first = Value.none) (i : BitVec 16) :
    (s.get (regAddr i)).kind = .ALL := by
  have nothing : EMPTY.recorded (.reg (i.signExtend 32)) = none := by simp [recorded,EMPTY]
  rw [wf.bottom empty,show regAddr i = (Location.reg (i.signExtend 32)).addr from rfl,get_eq,nothing]
  rfl

theorem reg_recorded {s : State} (wf : WellFormed s) (i : BitVec 16) : (s.get (regAddr i)).Recorded := by
  by_cases live : s.first = Value.none
  · exact .inr (reg_bottom wf live i)
  · exact wf.get_recorded live (.reg (i.signExtend 32))

private theorem cell_recorded {s : State} (wf : WellFormed s) (live : s.first ≠ Value.none) (address : Word) :
    (s.get (Value.const address)).Recorded := wf.get_recorded live (.cell address)

private theorem readFromMem_recorded (process : Process) (address : Word) (type : MemType) :
    (readFromMem process address type).Recorded := by
  cases type <;> first | exact .inl rfl | exact .inr rfl

theorem loadRest_wellFormed {d : BitVec 16} {addrclp : Value} {ranks : List Nat} {s t : State} (wf : WellFormed s)
    (loaded : loadRest d addrclp ranks s = some t) : WellFormed t := by
  induction ranks generalizing s with
  | nil => cases loaded; exact wf
  | cons m rest ih =>
    simp only [loadRest,Option.bind_eq_bind,Option.bind_eq_some_iff] at loaded
    obtain ⟨val,joined,tail⟩ := loaded
    exact ih (wf.set _ (Value.join_recorded (reg_recorded wf d) joined)) tail

theorem updateLoad_wellFormed {process : Process} {s t : State} {d a : BitVec 16} {type : MemType} (wf : WellFormed s)
    (loaded : updateLoad process s d a type = some t) : WellFormed t := by
  simp only [updateLoad,Option.map_eq_some_iff] at loaded
  obtain ⟨first,cells,rfl⟩ := loaded
  have firstWf : WellFormed first := by
    unfold loadCells at cells
    split at cells
    · cases cells; exact wf.set _ (reg_recorded wf a)
    split at cells
    · exact loadRest_wellFormed (wf.set_of_live _ fun live => cell_recorded wf live _) cells
    · cases cells; exact wf.set _ (.inr rfl)
  split
  · exact firstWf.set _ (readFromMem_recorded ..)
  · exact firstWf

theorem storeAll_wellFormed {s : State} (wf : WellFormed s) (d : BitVec 16) (addrclp : Value) (ranks : List Nat) :
    WellFormed (storeAll d addrclp ranks s) := by
  induction ranks generalizing s with
  | nil => exact wf
  | cons m rest ih => exact ih (wf.set _ (reg_recorded wf d))

theorem updateStore_wellFormed {s : State} (wf : WellFormed s) (process : Process) (d a : BitVec 16) :
    WellFormed (updateStore process s d a) := by
  unfold updateStore
  have value := reg_recorded wf d
  dsimp only
  split
  · exact wf.set _ value
  split
  · split
    · exact (wf.set _ value).clear _ _
    · split
      · exact wf
      · exact wf.clear _ _
  · exact storeAll_wellFormed wf d _ _

theorem update_wellFormed {process : Process} {p q : ClpProblem} {s t : State} {i : Inst} (wf : WellFormed s)
    (executed : update process p s i = some (q,t)) : WellFormed t := by
  have value (r : BitVec 16) := reg_recorded wf r
  have arithmetic (a b : BitVec 16) := Value.arithmetic_recorded (value a) (value b)
  cases i with
  | NOP | TRAP | CONT | BRANCH | IF => cases executed; exact wf
  | LOAD d a type =>
    obtain ⟨loaded,run,same⟩ := Option.map_eq_some_iff.mp executed
    cases same
    exact updateLoad_wellFormed wf run
  | STORE d a type => cases executed; exact updateStore_wellFormed wf process d a
  | SCRATCH | SETP | CMP | CMPU | other => cases executed; exact wf.set _ (.inr rfl)
  | SETI d cst => cases executed; exact wf.set _ (.inl rfl)
  | SET d a => cases executed; exact wf.set _ (value a)
  | ADD d a b => cases executed; exact wf.set _ (arithmetic a b).1
  | SUB d a b => cases executed; exact wf.set _ (arithmetic a b).2.1
  | SHL d a b => cases executed; exact wf.set _ (arithmetic a b).2.2.1
  | SHR d a b | ASR d a b => cases executed; exact wf.set _ (arithmetic a b).2.2.2.1
  | OR d a b => cases executed; exact wf.set _ (arithmetic a b).2.2.2.2

/-- The states that an analysis makes, by its instructions and its merges. -/
inductive Reached (process : Process) : State → Prop
  | bottom : Reached process EMPTY
  | full : Reached process FULL
  | set {s : State} {val : Value} (old : Reached process s) (addr : Value) (recorded : val.Recorded) :
      Reached process (s.set addr val)
  | clear {s : State} (old : Reached process s) (base size : Word) : Reached process (s.clear base size)
  | join {s t u : State} (left : Reached process s) (right : Reached process t) (joined : s.join t = some u) :
      Reached process u
  | widening {s t u : State} {loopBound : Word} (left : Reached process s) (right : Reached process t)
      (widened : s.widening t loopBound = some u) : Reached process u
  | update {p q : ClpProblem} {s t : State} {i : Inst} (old : Reached process s)
      (executed : update process p s i = some (q,t)) : Reached process t

theorem Reached.wellFormed {process : Process} {s : State} (reached : Reached process s) : WellFormed s := by
  induction reached with
  | bottom => exact wellFormed_empty
  | full => exact wellFormed_full
  | set _ addr recorded ih => exact ih.set addr recorded
  | clear _ base size ih => exact ih.clear base size
  | join _ _ joined left right => exact left.join right joined
  | widening _ _ widened left right => exact left.widening right widened
  | update _ executed ih => exact update_wellFormed ih executed

def Machine.write (m : Machine) (address word : Word) : Machine := fun l => if l = .cell address then word else m l

def regLoc (i : BitVec 16) : Location := .reg (i.signExtend 32)

theorem regLoc_addr (i : BitVec 16) : (regLoc i).addr = regAddr i := rfl

theorem mem_storeAll {s : State} (wf : WellFormed s) (live : s.first ≠ Value.none) (d : BitVec 16) (addrclp : Value)
    (ranks : List Nat) (l : Location) (x : Word) :
    x ∈ (storeAll d addrclp ranks s).get l.addr ↔
      if ∃ m ∈ ranks, l = .cell (addrclp.lower + addrclp.delta * BitVec.ofNat 32 m) then x ∈ s.get (regAddr d)
      else x ∈ s.get l.addr := by
  induction ranks generalizing s with
  | nil => simp [storeAll]
  | cons k rest ih =>
    have value := wf.get_recorded live (regLoc d)
    have one (l' : Location) (y : Word) := mem_get_set wf live (.cell (addrclp.lower + addrclp.delta * BitVec.ofNat 32 k))
      l' value y
    have stepped := ih (wf.set (addrAt addrclp k) value) (set_live live (addrAt addrclp k) value)
    rw [storeAll]
    rw [regLoc_addr] at stepped one
    -- the register keeps the stored value while the cells are set
    have kept : x ∈ (s.set (addrAt addrclp k) (s.get (regAddr d))).get (regAddr d) ↔ x ∈ s.get (regAddr d) := by
      have unchanged := one (regLoc d) x
      rwa [if_neg (by simp [regLoc])] at unchanged
    rw [stepped,kept]
    by_cases later : ∃ m ∈ rest, l = .cell (addrclp.lower + addrclp.delta * BitVec.ofNat 32 m)
    · have listed : ∃ m ∈ k :: rest, l = .cell (addrclp.lower + addrclp.delta * BitVec.ofNat 32 m) := by
        obtain ⟨m,member,same⟩ := later
        exact ⟨m,List.mem_cons_of_mem _ member,same⟩
      rw [if_pos later,if_pos listed]
    · rw [if_neg later]
      refine (one l x).trans ?_
      by_cases now : l = .cell (addrclp.lower + addrclp.delta * BitVec.ofNat 32 k)
      · rw [if_pos now,if_pos ⟨k,List.mem_cons_self,now⟩]
      · rw [if_neg now,if_neg]
        rintro ⟨m,member,same⟩
        rcases List.mem_cons.mp member with rfl | inside
        · exact now same
        · exact later ⟨m,inside,same⟩

section Store
variable {s : State} {d a : BitVec 16}

private theorem listed_iff {addrclp : Value} (kind : addrclp.kind = .VAL) (l : Location) :
    (∃ m ∈ List.range (addrclp.mtimes.toNat + 1), l = .cell (addrclp.lower + addrclp.delta * BitVec.ofNat 32 m)) ↔
      ∃ address ∈ addrclp, l = .cell address := by
  simp only [Value.mem_val kind,Progression.mem_progression,List.mem_range,Nat.lt_succ_iff]
  have product (m : Nat) : m • addrclp.delta = addrclp.delta * BitVec.ofNat 32 m := by
    rw [nsmul_eq_mul,mul_comm]
    rfl
  constructor
  · rintro ⟨m,bound,rfl⟩
    exact ⟨_,⟨m,bound,by rw [product]⟩,rfl⟩
  · rintro ⟨_,⟨m,bound,rfl⟩,rfl⟩
    exact ⟨m,bound,by rw [product]⟩

theorem mem_updateStore (wf : WellFormed s) (live : s.first ≠ Value.none) (process : Process)
    (kind : (s.get (regAddr a)).kind = .VAL) (few : (s.get (regAddr a)).mtimes < 42) (x : Word) :
    (∀ address ∈ s.get (regAddr a),
        x ∈ (updateStore process s d a).get (Location.cell address).addr ↔ x ∈ s.get (regAddr d)) ∧
      ∀ l : Location, (∀ address ∈ s.get (regAddr a), l ≠ .cell address) →
        (x ∈ (updateStore process s d a).get l.addr ↔ x ∈ s.get l.addr) := by
  have known : s.get (regAddr a) ≠ Value.all := by
    intro top; rw [top] at kind; cases kind
  simp only [updateStore,if_neg known,if_neg (not_le.mpr few)]
  constructor
  · intro address member
    rw [mem_storeAll wf live,if_pos ((listed_iff kind _).mpr ⟨address,member,rfl⟩)]
  · intro l apart
    rw [mem_storeAll wf live,if_neg]
    intro listed
    obtain ⟨address,member,same⟩ := (listed_iff kind l).mp listed
    exact apart address member same

/-- A store through a set of addresses is covered, whichever of them was written,
    exactly when the set is a single address or the stored value covers the old
    content of every address of the set: the cells that were not written are
    overwritten by the analysis too. -/
theorem store_covers_iff (wf : WellFormed s) (process : Process) (p : ClpProblem) (type : MemType)
    (known : (s.get (regAddr a)).kind ≠ .ALL) (few : (s.get (regAddr a)).mtimes < 42) :
    ∃ t, update process p s (.STORE d a type) = some ({ p with pc := p.pc + 1 },t) ∧
      ((∀ m, Covers s m → ∀ address ∈ s.get (regAddr a), Covers t (m.write address (m (regLoc d)))) ↔
        (∀ address ∈ s.get (regAddr a), ∀ other ∈ s.get (regAddr a), address = other) ∨
          ∀ address ∈ s.get (regAddr a), ∀ x ∈ s.get (Value.const address), x ∈ s.get (regAddr d)) := by
  have live : s.first ≠ Value.none := by
    intro empty
    rw [wf.bottom empty] at known
    apply known
    have unrecorded : EMPTY.get (regLoc a).addr = Value.all := by
      rw [get_eq]; simp [recorded,regLoc,EMPTY,State.default]
    rw [← regLoc_addr,unrecorded]
    rfl
  have kind : (s.get (regAddr a)).kind = .VAL := (wf.get_recorded live (regLoc a)).resolve_right known
  refine ⟨updateStore process s d a,rfl,?_⟩
  have after := mem_updateStore (d := d) wf live process kind few
  constructor
  · intro covered
    by_cases single : ∀ address ∈ s.get (regAddr a), ∀ other ∈ s.get (regAddr a), address = other
    · exact .inl single
    · right
      push Not at single
      obtain ⟨first,firstMem,second,secondMem,different⟩ := single
      intro address member x allowed
      -- some other address of the set may be the one that is written
      obtain ⟨other,otherMem,apart⟩ : ∃ other ∈ s.get (regAddr a), address ≠ other := by
        by_cases same : address = first
        · exact ⟨second,secondMem,same ▸ different⟩
        · exact ⟨first,firstMem,same⟩
      obtain ⟨m,cover,rfl⟩ := exists_machine wf live (.cell address) allowed
      have here := covered m cover other otherMem (.cell address)
      rw [(after _).1 address member] at here
      simpa [Machine.write,apart] using here
  · intro condition m cover address member l
    by_cases written : l = .cell address
    · subst written
      rw [(after _).1 address member]
      have stored : m.write address (m (regLoc d)) (.cell address) = m (regLoc d) := if_pos rfl
      rw [stored]
      exact cover (regLoc d)
    have old : m.write address (m (regLoc d)) l = m l := if_neg written
    rw [old]
    by_cases overwritten : ∃ other ∈ s.get (regAddr a), l = .cell other
    · obtain ⟨other,otherMem,rfl⟩ := overwritten
      rw [(after _).1 other otherMem]
      rcases condition with single | absorbed
      · exact absurd (single other otherMem address member) fun same => written (by rw [same])
      · exact absorbed other otherMem _ (cover (.cell other))
    · push Not at overwritten
      rw [(after _).2 l overwritten]
      exact cover l

end Store

/-- Register 1 holds one of the addresses 0x1000 and 0x1004, register 2 holds 7 and
    the cell 0x1004 holds 3. -/
def twoCells : State := ⟨Value.all,[(0x1004,Value.const 3)],[Value.all,⟨.VAL,0x1000,4,1⟩,Value.const 7],[]⟩

theorem wellFormed_twoCells : WellFormed twoCells where
  first := .inr rfl
  registers := by simp [twoCells,Value.Recorded,Value.all,Value.const]
  temporaries := by simp [twoCells]
  cells := by simp [twoCells,Value.const]
  sorted := List.pairwise_singleton _ _
  spare := by simp [twoCells]
  registerCount := by simp [twoCells]
  temporaryCount := by simp [twoCells]
  bottom := by intro empty; exact absurd empty (by decide)

theorem twoCells_address : twoCells.get (regAddr 1) = ⟨.VAL,0x1000,4,1⟩ := by decide
theorem twoCells_stored : twoCells.get (regAddr 2) = Value.const 7 := by decide

/-- The cell 0x1004, that holds 3 and was not written, is recorded as 7. -/
theorem store_loses_neighbour :
    ¬ ∀ (s : State) (process : Process) (p : ClpProblem) (d a : BitVec 16) (type : MemType), WellFormed s →
      (s.get (regAddr a)).kind ≠ .ALL → (s.get (regAddr a)).mtimes < 42 →
      ∃ t, update process p s (.STORE d a type) = some ({ p with pc := p.pc + 1 },t) ∧
        ∀ m, Covers s m → ∀ address ∈ s.get (regAddr a), Covers t (m.write address (m (regLoc d))) := by
  intro sound
  obtain ⟨t,executed,covered⟩ := sound twoCells ⟨fun _ => 0,fun _ => 0,fun _ => 0,0,0,fun _ => none⟩
    ⟨1,0,[],false⟩ 2 1 .UINT32 wellFormed_twoCells (by decide) (by decide)
  cases executed
  have live : twoCells.first ≠ Value.none := by decide
  have three : (3 : Word) ∈ twoCells.get (Location.cell 0x1004).addr := Progression.base_mem _ _ _
  obtain ⟨m,cover,held⟩ := exists_machine wellFormed_twoCells live _ three
  have written : (0x1000 : Word) ∈ twoCells.get (regAddr 1) := by
    rw [twoCells_address]; exact Progression.base_mem _ _ _
  have neighbour : (0x1004 : Word) ∈ twoCells.get (regAddr 1) := by
    rw [twoCells_address]; exact ⟨1,by decide,by decide⟩
  have lost := covered m cover 0x1000 written (.cell 0x1004)
  rw [(mem_updateStore wellFormed_twoCells live _ (by decide) (by decide) _).1 _ neighbour,twoCells_stored] at lost
  have same := (Progression.mem_const (.inl rfl)).mp lost
  rw [Machine.write,if_neg (by decide),held] at same
  exact absurd same (by decide)

theorem store_covers_iff_twoCells :
    ∃ t, update ⟨fun _ => 0,fun _ => 0,fun _ => 0,0,0,fun _ => none⟩ ⟨1,0,[],false⟩ twoCells (.STORE 2 1 .UINT32) =
        some (⟨1,1,[],false⟩,t) ∧
      ((∀ m, Covers twoCells m → ∀ address ∈ twoCells.get (regAddr 1), Covers t (m.write address (m (regLoc 2)))) ↔
        (∀ address ∈ twoCells.get (regAddr 1), ∀ other ∈ twoCells.get (regAddr 1), address = other) ∨
          ∀ address ∈ twoCells.get (regAddr 1), ∀ x ∈ twoCells.get (Value.const address),
            x ∈ twoCells.get (regAddr 2)) :=
  store_covers_iff wellFormed_twoCells _ ⟨1,0,[],false⟩ .UINT32 (by decide) (by decide)

end Otawa.Clp
