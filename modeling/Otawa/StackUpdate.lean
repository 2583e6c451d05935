import Otawa.StackProblem

/-!
What the state of the stack analysis covers after an instruction. The interpretation is
right along the runs whose steps all meet `Config.Sound` (`update_covers`); the opcodes
without a case, the stores that may hit what is known and the temporaries that two paths
share do not meet it.
-/
namespace Otawa.Stack
open Otawa.Clp (MemType)

/-! ### The machine -/

/-- The registers, the temporaries of the current instruction and the memory. -/
structure Core where
  reg : Word → Word
  tmp : Fin 16 → Word
  bytes : Memory

namespace Core

def machine (m : Core) (proc : Process) : Machine := ⟨m.reg,m.bytes.word proc.bigEndian⟩

def get (m : Core) : Var → Word
  | .reg i => m.reg (BitVec.ofNat 32 i)
  | .tmp i => m.tmp i

def set (m : Core) (d : Var) (x : Word) : Core :=
  match d with
  | .reg i => {m with reg := Function.update m.reg (BitVec.ofNat 32 i) x}
  | .tmp i => {m with tmp := Function.update m.tmp i x}

end Core

/-- What a load of a type may give; the items of eight bytes do not fit in a register. -/
def Memory.Loads (bytes : Memory) (bigEndian : Bool) (a : Word) (x : Word) : MemType → Prop
  | .INT8 => x = (bytes a).signExtend 32
  | .UINT8 => x = (bytes a).setWidth 32
  | .INT16 => x = (bytes.half bigEndian a).signExtend 32
  | .UINT16 => x = (bytes.half bigEndian a).setWidth 32
  | .INT32 | .UINT32 | .FLOAT32 => x = bytes.word bigEndian a
  | .INT64 | .UINT64 | .FLOAT64 | .NO_TYPE => True

def Memory.Stores (bytes bytes' : Memory) (bigEndian : Bool) (a x : Word) (type : MemType) : Prop :=
  (∀ p, (∀ i < typeSize type, p ≠ a + BitVec.ofNat 32 i) → bytes' p = bytes p) ∧
    match type with
    | .INT8 | .UINT8 => bytes' a = x.setWidth 8
    | .INT16 | .UINT16 => bytes'.half bigEndian a = x.setWidth 16
    | .INT32 | .UINT32 | .FLOAT32 => bytes'.word bigEndian a = x
    | .INT64 | .UINT64 | .FLOAT64 | .NO_TYPE => True

/-- The effect of a semantic instruction that is not the end of a path. A comparison and a
    division by zero may give any word, and so may a shift by more than the width; a
    special instruction may do anything. -/
def Effect (bigEndian : Bool) (m m' : Core) : Inst → Prop
  | .NOP | .TRAP | .CONT | .BRANCH _ | .IF _ _ _ => m' = m
  | .LOAD d a type => ∃ x, m.bytes.Loads bigEndian (m.get a) x type ∧ m' = m.set d x
  | .STORE d a type => ∃ bytes, m.bytes.Stores bytes bigEndian (m.get a) (m.get d) type ∧ m' = {m with bytes := bytes}
  | .SCRATCH d | .SETP d _ | .CMP d _ _ | .CMPU d _ _ => ∃ x, m' = m.set d x
  | .SET d a => m' = m.set d (m.get a)
  | .SETI d cst => m' = m.set d cst
  | .ADD d a b => m' = m.set d (m.get a + m.get b)
  | .SUB d a b => m' = m.set d (m.get a - m.get b)
  | .SHL d a b => ∃ x, ((m.get b).toNat < 32 → x = m.get a <<< (m.get b).toNat) ∧ m' = m.set d x
  | .SHR d a b => ∃ x, ((m.get b).toNat < 32 → x = m.get a >>> (m.get b).toNat) ∧ m' = m.set d x
  | .ASR d a b => ∃ x, ((m.get b).toNat < 32 → x = (m.get a).sshiftRight (m.get b).toNat) ∧ m' = m.set d x
  | .NEG d a => m' = m.set d (-m.get a)
  | .NOT d a => m' = m.set d (~~~m.get a)
  | .AND d a b => m' = m.set d (m.get a &&& m.get b)
  | .OR d a b => m' = m.set d (m.get a ||| m.get b)
  | .XOR d a b => m' = m.set d (m.get a ^^^ m.get b)
  | .MUL d a b | .MULU d a b => m' = m.set d (m.get a * m.get b)
  | .DIV d a b => ∃ x, (m.get b ≠ 0 → x = (m.get a).sdiv (m.get b)) ∧ m' = m.set d x
  | .DIVU d a b => ∃ x, (m.get b ≠ 0 → x = (m.get a).udiv (m.get b)) ∧ m' = m.set d x
  | .MOD d a b => ∃ x, (m.get b ≠ 0 → x = (m.get a).srem (m.get b)) ∧ m' = m.set d x
  | .MODU d a b => ∃ x, (m.get b ≠ 0 → x = (m.get a).umod (m.get b)) ∧ m' = m.set d x
  | .SPEC _ _ => True

/-- The executions along the semantic paths, whose conditions may hold or not. -/
inductive Exec (bigEndian : Bool) : List Inst → Core → Core → Prop
  | done {m} : Exec bigEndian [] m m
  | stop {i rest m} : Config.stops i = true → Exec bigEndian (i :: rest) m m
  | skip {cond sr jump rest m m'} : Exec bigEndian (rest.drop jump) m m' →
      Exec bigEndian (.IF cond sr jump :: rest) m m'
  | next {i rest m m₁ m'} : Config.stops i = false → Effect bigEndian m m₁ i → Exec bigEndian rest m₁ m' →
      Exec bigEndian (i :: rest) m m'

/-- What the analysis reads. -/
def Inst.reads : Inst → List Var
  | .LOAD _ a _ | .SET _ a => [a]
  | .STORE d a _ => [d,a]
  | .ADD _ a b | .SUB _ a b | .SHL _ a b | .SHR _ a b => [a,b]
  | _ => []

def Inst.dest : Inst → Option Var
  | .LOAD d _ _ | .SCRATCH d | .SET d _ | .SETI d _ | .SETP d _ | .CMP d _ _ | .CMPU d _ _ | .ADD d _ _ | .SUB d _ _
  | .SHL d _ _ | .SHR d _ _ | .ASR d _ _ | .NEG d _ | .NOT d _ | .AND d _ _ | .OR d _ _ | .XOR d _ _ | .MUL d _ _
  | .MULU d _ _ | .DIV d _ _ | .DIVU d _ _ | .MOD d _ _ | .MODU d _ _ => some d
  | .NOP | .TRAP | .CONT | .BRANCH _ | .IF _ _ _ | .STORE _ _ _ | .SPEC _ _ => none

/-- A path of the block reads a temporary that it has not written. -/
inductive Live (k : Fin 16) : List Inst → Prop
  | reads {i rest} : .tmp k ∈ i.reads → Live k (i :: rest)
  | skip {cond sr jump rest} : Live k (rest.drop jump) → Live k (.IF cond sr jump :: rest)
  | next {i rest} : Config.stops i = false → i.dest ≠ some (.tmp k) → Live k rest → Live k (i :: rest)

/-- The word at an address has no byte among those of an item. -/
def Apart (a : Word) (size : Nat) (p : Word) : Prop :=
  ∀ i < size, ∀ j < 4, p + BitVec.ofNat 32 j ≠ a + BitVec.ofNat 32 i

namespace Config
variable (proc : Process) (base : Word) (c : Config)

/-- The loads that are right: words, unknown items, and signed items that are read from
    the image and are not negative. The analysis takes the code of the type for a size. -/
def LoadSound (addr : Value) (type : MemType) : Prop :=
  let v := c.state.get proc addr (typeCode type)
  match type with
  | .INT32 | .UINT32 | .FLOAT32 => True
  | .INT8 => v.kind = .all ∨ SortedAssoc.find c.state.nodes addr = none ∧ v.value.getLsbD 7 = false
  | .INT16 => v.kind = .all ∨ SortedAssoc.find c.state.nodes addr = none ∧ v.value.getLsbD 15 = false
  | _ => v.kind = .all

/-- The stores that are right. Through an unknown address, no word of the memory may be
    known. Through another one, the item is a word or is unknown, an unknown one is not
    in the image, and no other word that is known has a byte in it. -/
def StoreSound (addr val : Value) (type : MemType) : Prop :=
  match addr.kind with
  | .all => (∀ p : Value, p.kind = .sp → (c.state.get proc p 4).kind = .all) ∧ ∀ p, proc.inImage p = false
  | _ => (typeSize type = 4 ∨ val.kind = .all) ∧ (val.kind = .all → addr.kind = .cst → proc.inImage addr.value = false) ∧
    ∀ p : Value, p.kind = .sp ∨ p.kind = .cst → p ≠ addr → (c.state.get proc p 4).kind ≠ .all →
      ∀ x y, Value.Has base addr x → Value.Has base p y → Apart x (typeSize type) y

def Handles : Inst → Prop
  | .LOAD _ a type => c.LoadSound proc (c.get proc a) type
  | .STORE d a type => c.StoreSound proc base (c.get proc a) (c.get proc d) type
  | .ADD _ a b => ¬((c.get proc a).kind = .cst ∧ (c.get proc b).kind = .sp ∧ base ≠ 0)
  | .SHL _ a b | .SHR _ a b => (c.get proc a).kind = .cst → (c.get proc b).kind = .cst → (c.get proc b).value.toNat < 32
  | .NEG d _ | .NOT d _ | .AND d _ _ | .OR d _ _ | .XOR d _ _ | .MUL d _ _ | .MULU d _ _ | .DIV d _ _ | .DIVU d _ _
  | .MOD d _ _ | .MODU d _ _ => (c.get proc d).kind = .all
  | .SPEC _ _ => (∀ p : Value, p.IsPlace → (c.state.get proc p 4).kind = .all) ∧ ∀ k, (c.tmp k).kind = .all
  | .NOP | .TRAP | .CONT | .BRANCH _ | .IF _ _ _ | .SCRATCH _ | .SET _ _ | .SETI _ _ | .SETP _ _ | .CMP _ _ _
  | .CMPU _ _ _ | .SUB _ _ _ | .ASR _ _ _ => True

/-- The steps that are right: an instruction is, and the temporaries that a path left for
    later reads keep their values or become unknown; the end of a path loses nothing in
    the join with the paths before it. -/
def Sound (b : List Inst) : Prop :=
  match b[c.pc]? with
  | some i => c.Handles proc base i ∧ ∀ path ∈ c.todo, ∀ k, Live k (b.drop path.1) →
      (c.interpret proc i).tmp k = c.tmp k ∨ ((c.interpret proc i).tmp k).kind = .all
  | none => ∀ s, c.own = some s →
      ((∃ m : Core, State.Covers proc base c.out (m.machine proc)) → State.Kept proc base c.out s) ∧
      ((∃ m : Core, State.Covers proc base s (m.machine proc)) → State.Kept proc base s c.out)

end Config
theorem append_inj {v w : Nat} {x x' : BitVec v} {y y' : BitVec w} (same : x ++ y = x' ++ y') : x = x' ∧ y = y' := by
  have high := congrArg (BitVec.extractLsb' w v) same
  have low := congrArg (BitVec.extractLsb' 0 w) same
  rw [BitVec.extractLsb'_append_eq_left,BitVec.extractLsb'_append_eq_left] at high
  rw [BitVec.extractLsb'_append_eq_right,BitVec.extractLsb'_append_eq_right] at low
  exact ⟨high,low⟩

namespace Memory
variable {bytes bytes' : Memory} {a : Word}

theorem word_congr (bigEndian : Bool) (same : ∀ j < 4, bytes' (a + BitVec.ofNat 32 j) = bytes (a + BitVec.ofNat 32 j)) :
    bytes'.word bigEndian a = bytes.word bigEndian a := by
  have first : bytes' a = bytes a := by simpa using same 0 (by decide)
  have second : bytes' (a + 1) = bytes (a + 1) := same 1 (by decide)
  have third : bytes' (a + 2) = bytes (a + 2) := same 2 (by decide)
  have last : bytes' (a + 2 + 1) = bytes (a + 2 + 1) := by
    rw [BitVec.add_assoc]
    exact same 3 (by decide)
  unfold word half
  rw [first,second,third,last]

theorem first_of_word {bigEndian : Bool} (same : bytes'.word bigEndian a = bytes.word bigEndian a) :
    bytes' a = bytes a ∧ bytes'.half bigEndian a = bytes.half bigEndian a := by
  cases bigEndian with
  | false =>
    have half : bytes'.half false a = bytes.half false a := (append_inj same).2
    exact ⟨(append_inj half).2,half⟩
  | true =>
    have half : bytes'.half true a = bytes.half true a := (append_inj same).1
    exact ⟨(append_inj half).1,half⟩

end Memory

namespace State
variable {proc : Process} {s : State} {a p v : Value}

theorem first_set (s : State) (a v : Value) : (s.set a v).first = s.first := by
  unfold set
  split
  · rfl
  · split <;> rfl

theorem get_set_self (live : s.first ≠ Value.none) (exact : a.kind ≠ .all) (size : Nat) :
    (s.set a v).get proc a size = if v.kind ≠ .all then v else s.unrecorded proc a size := by
  rw [set,dif_neg live,dif_neg exact]
  simp only [get,record,SortedAssoc.find_store_self s.sorted]
  by_cases known : v.kind = .all
  · simp only [known,ne_eq,not_true_eq_false,if_false]
    rfl
  · simp [known]

theorem get_set_other (live : s.first ≠ Value.none) (exact : a.kind ≠ .all) (other : p ≠ a) (size : Nat) :
    (s.set a v).get proc p size = s.get proc p size := by
  rw [set,dif_neg live,dif_neg exact]
  simp only [get,record,SortedAssoc.find_store_other _ other s.sorted]
  rfl

theorem unrecorded_all (live : s.first ≠ Value.none) (size : Nat) (outside : a.kind = .cst → proc.inImage a.value = false) :
    (s.unrecorded proc a size).kind = .all := by
  rw [unrecorded,if_neg]
  · rw [live_all live]; rfl
  · rintro ⟨kind,inside⟩
    rw [outside kind] at inside
    cases inside

theorem regAddr_exact (i : Fin (2 ^ 15)) : (regAddr i).kind ≠ .all := by simp [regAddr]

theorem get_reg (s : State) (i : Fin (2 ^ 15)) (size : Nat) : s.get proc (regAddr i) size = s.get proc (regAddr i) 0 := by
  simp [get,regAddr]

end State

theorem Value.has_of_all {base x : Word} {v : Value} (unknown : v.kind = .all) : Value.Has base v x := by
  simp [Value.Has,unknown]

/-! ### One instruction -/

/-- The state covers the machine, and so do the temporaries that the rest of the path reads. -/
structure Related (proc : Process) (base : Word) (s : State) (tmp : Fin 16 → Value) (rest : List Inst) (m : Core) : Prop where
  covers : State.Covers proc base s (m.machine proc)
  live : ∀ k, Live k rest → Value.Has base (tmp k) (m.tmp k)

namespace Related
open Config
variable {proc : Process} {base x : Word} {c : Config} {i : Inst} {rest : List Inst} {m : Core} {d r : Var} {v : Value}

theorem get (related : Related proc base c.state c.tmp (i :: rest) m) (read : r ∈ i.reads) :
    Value.Has base (c.get proc r) (m.get r) := by
  cases r with
  | tmp k => exact related.live k (.reads read)
  | reg j =>
    have word := related.covers (regAddr j) (.inl rfl)
    rw [State.get_reg] at word
    exact word

theorem after (related : Related proc base c.state c.tmp (i :: rest) m) (goes : stops i = false) (k : Fin 16)
    (other : i.dest ≠ some (.tmp k)) (live : Live k rest) : Value.Has base (c.tmp k) (m.tmp k) :=
  related.live k (.next goes other live)

private theorem machine_set (m : Core) (d : Var) {a : Value} (place : a.IsPlace) (other : ∀ j, d = .reg j → a ≠ regAddr j) :
    ((m.set d x).machine proc).read base a = (m.machine proc).read base a := by
  obtain ⟨kind,k⟩ := a
  cases d with
  | tmp j => rcases place with rfl | rfl | rfl <;> rfl
  | reg j =>
    have different := other j rfl
    rcases place with kinds | kinds | kinds <;> obtain rfl : kind = _ := kinds
    · have index : k ≠ BitVec.ofNat 32 j := fun same => different (by rw [same]; rfl)
      simp [Core.machine,Core.set,Machine.read,index]
    · rfl
    · rfl

private theorem read_set (m : Core) (j : Fin (2 ^ 15)) :
    ((m.set (.reg j) x).machine proc).read base (regAddr j) = x := by
  simp [Core.machine,Core.set,Machine.read,regAddr]

theorem set (related : Related proc base c.state c.tmp (i :: rest) m) (goes : stops i = false) (dest : i.dest = some d)
    (has : Value.Has base v x) : Related proc base (c.set d v).state (c.set d v).tmp rest (m.set d x) := by
  have live := State.live_of_covers related.covers
  cases d with
  | tmp j =>
    refine ⟨fun a place => ?_,fun k used => ?_⟩
    · rw [machine_set m _ place (by simp)]
      exact related.covers a place
    · by_cases same : k = j
      · subst same
        simpa [Config.set,Core.set] using has
      · have other : i.dest ≠ some (.tmp k) := by simp [dest,Ne.symm same]
        simpa [Config.set,Core.set,same] using related.after goes k other used
  | reg j =>
    refine ⟨fun a place => ?_,fun k used => ?_⟩
    · by_cases same : a = regAddr j
      · subst same
        simp only [Config.set,put_state,read_set,State.get_set_self live (State.regAddr_exact j)]
        split
        · exact has
        · exact Value.has_of_all (State.unrecorded_all live 4 (fun kind => by cases kind))
      · rw [machine_set m _ place (fun _ same' => by cases same'; exact same)]
        simp only [Config.set,put_state,State.get_set_other live (State.regAddr_exact j) same]
        exact related.covers a place
    · simpa [Config.set,Core.set] using related.after goes k (by simp [dest]) used

theorem keep (related : Related proc base c.state c.tmp (i :: rest) m) (goes : stops i = false) (dest : i.dest = some d)
    (unknown : (c.get proc d).kind = .all) : Related proc base c.state c.tmp rest (m.set d x) := by
  refine ⟨fun a place => ?_,fun k used => ?_⟩
  · by_cases same : ∃ j, d = .reg j ∧ a = regAddr j
    · obtain ⟨j,rfl,rfl⟩ := same
      rw [State.get_reg]
      exact Value.has_of_all unknown
    · rw [machine_set m d place (fun j reg equal => same ⟨j,reg,equal⟩)]
      exact related.covers a place
  · by_cases same : d = .tmp k
    · subst same
      exact Value.has_of_all unknown
    · have value := related.after goes k (by simp [dest,same]) used
      cases d with
      | reg j => exact value
      | tmp j => simpa [Core.set,show k ≠ j from fun equal => same (equal ▸ rfl)] using value

theorem skip (related : Related proc base c.state c.tmp (i :: rest) m) (goes : stops i = false) (dest : i.dest = none) :
    Related proc base c.state c.tmp rest m :=
  ⟨related.covers,fun k used => related.after goes k (by simp [dest]) used⟩

theorem word_at (covers : State.Covers proc base c.state (m.machine proc)) {a : Value} {y : Word} (has : Value.Has base a y) :
    a.kind = .all ∨ (a.kind = .sp ∨ a.kind = .cst) ∧
      Value.Has base (c.state.get proc a 4) (m.bytes.word proc.bigEndian y) := by
  obtain ⟨kind,k⟩ := a
  cases kind with
  | none => exact has.elim
  | reg => exact has.elim
  | sp => exact .inr ⟨.inl rfl,(Value.has_sp.mp has) ▸ covers ⟨.sp,k⟩ (.inr (.inl rfl))⟩
  | cst => exact .inr ⟨.inr rfl,(Value.has_cst.mp has) ▸ covers ⟨.cst,k⟩ (.inr (.inr rfl))⟩
  | all => exact .inl rfl

variable (proc) in
private theorem unrecorded_cases {s : State} (live : s.first ≠ Value.none) {a : Value} (absent : SortedAssoc.find s.nodes a = none) :
    (∀ size, (s.get proc a size).kind = .all) ∨
      a.kind = .cst ∧ ∀ size, s.get proc a size = s.fromImage proc a.value size := by
  by_cases inside : a.kind = .cst ∧ proc.inImage a.value = true
  · exact .inr ⟨inside.1,fun size => by simp [State.get,absent,inside]⟩
  · refine .inl fun size => ?_
    simp only [State.get,absent,if_neg inside,State.live_all live]
    rfl

private theorem signed_eq {w : Nat} (small : w ≤ 32) (b : BitVec w) (positive : (b.setWidth 32).getLsbD (w - 1) = false) :
    b.signExtend 32 = b.setWidth 32 := by
  refine BitVec.signExtend_eq_setWidth_of_msb_false ?_
  rw [BitVec.msb_eq_getLsbD_last]
  rw [BitVec.getLsbD_setWidth] at positive
  simpa [show w - 1 < 32 by omega] using positive

theorem load_has {a : Value} {y : Word} {type : MemType} (covers : State.Covers proc base c.state (m.machine proc))
    (has : Value.Has base a y) (sound : c.LoadSound proc a type) (loads : m.bytes.Loads proc.bigEndian y x type) :
    Value.Has base (c.state.get proc a (typeCode type)) x := by
  have live := State.live_of_covers covers
  rcases word_at covers has with unknown | ⟨kind,word⟩
  · -- nothing is recorded at an unknown address
    have absent (v : Value) : (a,v) ∉ c.state.nodes := fun member => (c.state.known _ member).1 unknown
    rw [State.get_unrecorded absent]
    exact Value.has_of_all (State.unrecorded_all live _ (by simp [unknown]))
  cases recorded : SortedAssoc.find c.state.nodes a with
  | some v =>
    have same (size : Nat) : c.state.get proc a size = v := by simp [State.get,recorded]
    have known : v.kind ≠ .all := (c.state.known _ ((SortedAssoc.find_eq_some_iff c.state.sorted).mp recorded)).2
    rw [same] at word ⊢
    cases type <;> simp_all [LoadSound,Memory.Loads]
  | none =>
    rcases unrecorded_cases proc live recorded with unknown | ⟨absolute,image⟩
    · exact Value.has_of_all (unknown _)
    obtain rfl : y = a.value := by simpa [Value.Has,absolute] using has
    rw [image] at word ⊢
    obtain ⟨byte,half⟩ := Memory.first_of_word (show m.bytes.word proc.bigEndian a.value = _ from Value.has_cst.mp word)
    have unknown : c.state.first.kind = .all := by rw [State.live_all live]; rfl
    cases type with
    | INT8 =>
      rcases sound with top | ⟨-,bit⟩
      · rw [image] at top
        cases top
      · rw [image] at bit
        exact loads.trans (by rw [byte]; exact signed_eq (w := 8) (by decide) _ bit)
    | INT16 =>
      rcases sound with top | ⟨-,bit⟩
      · rw [image] at top
        cases top
      · rw [image] at bit
        exact loads.trans (by rw [half]; exact signed_eq (w := 16) (by decide) _ bit)
    | INT64 =>
      have top := sound
      simp only [LoadSound,image,typeCode] at top
      cases top
    | NO_TYPE | INT32 | UINT8 | UINT16 | UINT32 | UINT64 | FLOAT32 | FLOAT64 => exact Value.has_of_all unknown

private theorem word_stored {bytes : Memory} {bigEndian : Bool} {y : Word} {type : MemType}
    (stores : m.bytes.Stores bytes bigEndian y x type) (size : typeSize type = 4) : bytes.word bigEndian y = x := by
  cases type with
  | INT32 | UINT32 | FLOAT32 => exact stores.2
  | NO_TYPE | INT8 | INT16 | INT64 | UINT8 | UINT16 | UINT64 | FLOAT64 => simp [typeSize] at size

private theorem word_of_apart {bytes : Memory} {bigEndian : Bool} {y p : Word} {type : MemType}
    (stores : m.bytes.Stores bytes bigEndian y x type) (apart : Apart y (typeSize type) p) :
    bytes.word bigEndian p = m.bytes.word bigEndian p :=
  Memory.word_congr bigEndian fun j small => stores.1 _ fun i inside => apart i inside j small

/-- The words that are known have not been reached by a store through an unknown address. -/
private theorem forget_covers {s : State} {a v : Value} {bytes : Memory} (covers : State.Covers proc base s (m.machine proc))
    (unknown : a.kind = .all) (offsets : ∀ p : Value, p.kind = .sp → (s.get proc p 4).kind = .all)
    (image : ∀ p, proc.inImage p = false) : State.Covers proc base (s.set a v) (({m with bytes := bytes} : Core).machine proc) := by
  have live := State.live_of_covers covers
  intro p place
  by_cases recorded : ∃ w, (p,w) ∈ (s.set a v).nodes
  · obtain ⟨w,member⟩ := recorded
    rw [State.get_recorded member]
    rw [State.set,dif_neg live,dif_pos unknown] at member
    have old : (p,w) ∈ s.nodes := (List.takeWhile_sublist _).subset member
    have kind := List.all_eq_true.mp List.all_takeWhile _ member
    rcases place with reg | offset | absolute
    · have word := covers p (.inl reg)
      rw [State.get_recorded old] at word
      simpa [Machine.read,reg,Core.machine] using word
    · have top := offsets p offset
      rw [State.get_recorded old] at top
      exact absurd top (s.known _ old).2
    · simp [absolute,Kind.index] at kind
  · rw [State.get_unrecorded fun w member => recorded ⟨w,member⟩]
    exact Value.has_of_all (State.unrecorded_all (by rwa [State.first_set]) 4 fun _ => image p.value)

theorem store_covers {a v : Value} {y : Word} {type : MemType} {bytes : Memory}
    (covers : State.Covers proc base c.state (m.machine proc)) (hasAddr : Value.Has base a y) (hasVal : Value.Has base v x)
    (sound : c.StoreSound proc base a v type) (stores : m.bytes.Stores bytes proc.bigEndian y x type) :
    State.Covers proc base (c.state.set a v) (({m with bytes := bytes} : Core).machine proc) := by
  have live := State.live_of_covers covers
  rcases word_at covers hasAddr with unknown | ⟨kind,-⟩
  · simp only [StoreSound,unknown] at sound
    exact forget_covers covers unknown sound.1 sound.2
  have exact : a.kind ≠ .all := by rcases kind with kind | kind <;> simp [kind]
  have known : (typeSize type = 4 ∨ v.kind = .all) ∧ (v.kind = .all → a.kind = .cst → proc.inImage a.value = false) ∧
      ∀ p : Value, p.kind = .sp ∨ p.kind = .cst → p ≠ a → (c.state.get proc p 4).kind ≠ .all →
        ∀ x y, Value.Has base a x → Value.Has base p y → Apart x (typeSize type) y := by
    rcases kind with kind | kind <;> simpa only [StoreSound,kind] using sound
  obtain ⟨word,image,others⟩ := known
  -- the word at a place of the memory
  have memory (p : Value) (place : p.kind = .sp ∨ p.kind = .cst) : ∃ z, Value.Has base p z ∧
      ∀ m : Core, (m.machine proc).read base p = m.bytes.word proc.bigEndian z := by
    obtain ⟨kind,k⟩ := p
    rcases place with kinds | kinds <;> obtain rfl : kind = _ := kinds
    · exact ⟨base + k,rfl,fun _ => rfl⟩
    · exact ⟨k,rfl,fun _ => rfl⟩
  intro p place
  by_cases same : p = a
  · subst same
    rw [State.get_set_self live exact]
    split
    case isFalse unknown =>
      exact Value.has_of_all (State.unrecorded_all live 4 (image (not_not.mp unknown)))
    case isTrue known =>
      obtain ⟨z,has,read⟩ := memory p kind
      obtain rfl := hasAddr.unique has exact
      rw [read,word_stored stores (word.resolve_right known)]
      exact hasVal
  · rw [State.get_set_other live exact same]
    have before := covers p place
    rcases place with reg | place
    · simpa [Machine.read,reg,Core.machine] using before
    · by_cases known : (c.state.get proc p 4).kind = .all
      · exact Value.has_of_all known
      · obtain ⟨z,has,read⟩ := memory p place
        rw [read] at before ⊢
        rw [word_of_apart stores (others p place same known y z hasAddr has)]
        exact before

private theorem shift_has {shift : Value → Value → Value} {op : Word → Nat → Word} {v w : Value} {y z : Word}
    (has : Value.Has base v y → Value.Has base w z → Value.Has base (shift v w) (op y z.toNat))
    (unknown : ¬(v.kind = .cst ∧ w.kind = .cst) → v.kind ≠ .none → (shift v w).kind = .all)
    (left : Value.Has base v y) (right : Value.Has base w z)
    (small : v.kind = .cst → w.kind = .cst → w.value.toNat < 32) (shifted : z.toNat < 32 → x = op y z.toNat) :
    Value.Has base (shift v w) x := by
  by_cases words : v.kind = .cst ∧ w.kind = .cst
  · have amount : z = w.value := by simpa [Value.Has,words.2] using right
    rw [shifted (amount ▸ small words.1 words.2)]
    exact has left right
  · refine Value.has_of_all (unknown words fun nothing => ?_)
    simp [Value.Has,nothing] at left

theorem interpret {m₁ : Core} (related : Related proc base c.state c.tmp (i :: rest) m) (goes : stops i = false)
    (handles : c.Handles proc base i) (effect : Effect proc.bigEndian m m₁ i) :
    Related proc base (c.interpret proc i).state (c.interpret proc i).tmp rest m₁ := by
  have all (x : Word) : Value.Has base Value.all x := trivial
  cases i with
  | NOP =>
    obtain rfl := effect
    exact related.skip goes rfl
  | IF cond sr jump =>
    obtain rfl := effect
    exact related.skip goes rfl
  | TRAP | CONT | BRANCH d => cases goes
  | LOAD d a type =>
    obtain ⟨x,loads,rfl⟩ := effect
    exact related.set goes rfl (load_has related.covers (related.get (by simp [Inst.reads])) handles loads)
  | STORE d a type =>
    obtain ⟨bytes,stores,rfl⟩ := effect
    refine ⟨?_,fun k used => ?_⟩
    · simp only [Config.interpret,put_state]
      exact store_covers related.covers (related.get (by simp [Inst.reads])) (related.get (by simp [Inst.reads])) handles stores
    · simp only [Config.interpret,put_tmp]
      exact related.after goes k (by simp [Inst.dest]) used
  | SCRATCH d =>
    obtain ⟨x,rfl⟩ := effect
    exact related.set goes rfl (all x)
  | SETP d cst =>
    obtain ⟨x,rfl⟩ := effect
    exact related.set goes rfl (all x)
  | CMP d a b | CMPU d a b =>
    obtain ⟨x,rfl⟩ := effect
    exact related.set goes rfl (all x)
  | ASR d a b =>
    obtain ⟨x,-,rfl⟩ := effect
    exact related.set goes rfl (all x)
  | SET d a =>
    obtain rfl := effect
    exact related.set goes rfl (related.get (by simp [Inst.reads]))
  | SETI d cst =>
    obtain rfl := effect
    exact related.set goes rfl (Value.has_cst.mpr rfl)
  | ADD d a b =>
    obtain rfl := effect
    exact related.set goes rfl
      (Value.has_add (related.get (by simp [Inst.reads])) (related.get (by simp [Inst.reads])) handles)
  | SUB d a b =>
    obtain rfl := effect
    exact related.set goes rfl (Value.has_sub (related.get (by simp [Inst.reads])) (related.get (by simp [Inst.reads])))
  | SHL d a b =>
    obtain ⟨x,shifted,rfl⟩ := effect
    exact related.set goes rfl (shift_has Value.has_shl (fun words present => by simp [Value.shl,words,present])
      (related.get (by simp [Inst.reads])) (related.get (by simp [Inst.reads])) handles shifted)
  | SHR d a b =>
    obtain ⟨x,shifted,rfl⟩ := effect
    exact related.set goes rfl (shift_has Value.has_shr (fun words present => by simp [Value.shr,words,present])
      (related.get (by simp [Inst.reads])) (related.get (by simp [Inst.reads])) handles shifted)
  | NEG d a | NOT d a =>
    obtain rfl := effect
    exact related.keep goes rfl handles
  | AND d a b | OR d a b | XOR d a b | MUL d a b | MULU d a b =>
    obtain rfl := effect
    exact related.keep goes rfl handles
  | DIV d a b | DIVU d a b | MOD d a b | MODU d a b =>
    obtain ⟨x,-,rfl⟩ := effect
    exact related.keep goes rfl handles
  | SPEC code cst =>
    obtain ⟨places,temporaries⟩ := handles
    exact ⟨fun p place => Value.has_of_all (places p place),fun k _ => Value.has_of_all (temporaries k)⟩

end Related

/-! ### The paths of a block -/

namespace Config
variable {proc : Process} {base : Word} {b : List Inst} {c c' : Config} {m m' : Core}

/-- An execution of the block is on the current path, on a path left for later or is
    covered by the output state. -/
def Accounts (proc : Process) (base : Word) (b : List Inst) (c : Config) (m' : Core) : Prop :=
  (∃ m, Related proc base c.state c.tmp (b.drop c.pc) m ∧ Exec proc.bigEndian (b.drop c.pc) m m') ∨
    (∃ path ∈ c.todo, ∃ m, Related proc base path.2 c.tmp (b.drop path.1) m ∧ Exec proc.bigEndian (b.drop path.1) m m') ∨
    (c.own.isSome = true ∧ State.Covers proc base c.out (m'.machine proc))

theorem joined_covers (sound : c.Sound proc base b) (last : b[c.pc]? = none)
    (covers : State.Covers proc base c.state (m'.machine proc) ∨
      c.own.isSome = true ∧ State.Covers proc base c.out (m'.machine proc)) :
    State.Covers proc base c.joined (m'.machine proc) := by
  simp only [Sound,last] at sound
  cases own : c.own with
  | none => simpa [joined,state,own] using covers
  | some s =>
    obtain ⟨keepsOut,keepsOwn⟩ := sound s own
    simp only [state,own,Option.getD_some,Option.isSome_some,true_and] at covers
    simp only [joined,own]
    rcases covers with covers | covers
    · exact State.covers_join_comm (State.covers_join (keepsOwn ⟨m',covers⟩) covers)
    · exact State.covers_join (keepsOut ⟨m',covers⟩) covers

variable (proc) in
/-- A switch leaves the output state alone once the path has its own one. -/
theorem interpret_out (i : Inst) (own : c.own.isSome = true) :
    (c.interpret proc i).out = c.out ∧ (c.interpret proc i).own.isSome = true := by
  obtain ⟨s,known⟩ := Option.isSome_iff_exists.mp own
  have put (t : State) : (c.put t).out = c.out ∧ (c.put t).own.isSome = true := by simp [Config.put,known]
  have set (d : Var) (v : Value) : (c.set d v).out = c.out ∧ (c.set d v).own.isSome = true := by
    cases d with
    | tmp k => exact ⟨rfl,own⟩
    | reg j => exact put _
  cases i with
  | STORE d a type => exact put _
  | LOAD d _ _ | SETP d _ | CMP d _ _ | CMPU d _ _ | ASR d _ _ | SCRATCH d | SET d _ | SETI d _ | ADD d _ _ | SUB d _ _
  | SHL d _ _ | SHR d _ _ => exact set d _
  | _ => exact ⟨rfl,own⟩

theorem rest_of_inst {i : Inst} (found : b[c.pc]? = some i) : b.drop c.pc = i :: b.drop (c.pc + 1) := by
  obtain ⟨inside,rfl⟩ := List.getElem?_eq_some_iff.mp found
  exact List.drop_eq_getElem_cons inside

theorem rest_of_end (last : b[c.pc]? = none) : b.drop c.pc = [] :=
  List.drop_eq_nil_of_le (List.getElem?_eq_none_iff.mp last)

theorem not_live_nil {k : Fin 16} : ¬ Live k [] := fun live => nomatch live

theorem Accounts.step (accounts : c.Accounts proc base b m') (sound : c.Sound proc base b)
    (turn : c.step proc b = some c') : c'.Accounts proc base b m' := by
  unfold Config.step at turn
  split at turn
  case h_1 i found =>
    obtain rfl := Option.some.inj turn
    have instruction : c.Handles proc base i ∧ ∀ path ∈ c.todo, ∀ k, Live k (b.drop path.1) →
        (c.interpret proc i).tmp k = c.tmp k ∨ ((c.interpret proc i).tmp k).kind = .all := by
      simpa only [Sound,found] using sound
    obtain ⟨handles,shared⟩ := instruction
    rcases accounts with ⟨m,related,exec⟩ | ⟨path,listed,m,related,exec⟩ | ⟨own,covers⟩
    · rw [rest_of_inst found] at related exec
      cases exec with
      | stop stops =>
        refine .inl ⟨m',⟨?_,fun k live => ?_⟩,?_⟩
        · have same : c.interpret proc i = c := by cases i <;> first | rfl | cases stops
          rw [same]
          exact related.covers
        · simp only [stops,if_true,List.drop_eq_nil_of_le (Nat.le_succ b.length)] at live
          exact absurd live not_live_nil
        · simp only [stops,if_true,List.drop_eq_nil_of_le (Nat.le_succ b.length)]
          exact .done
      | @skip cond sr jump rest m m' exec =>
        rw [List.drop_drop,show c.pc + 1 + jump = c.pc + jump + 1 by omega] at exec
        refine .inr (.inl ⟨(c.pc + jump + 1,c.state),List.mem_cons_self,m,⟨related.covers,fun k live => ?_⟩,exec⟩)
        refine related.live k (.skip ?_)
        rw [List.drop_drop,show c.pc + 1 + jump = c.pc + jump + 1 by omega]
        exact live
      | @next i rest m m₁ m' goes effect exec =>
        refine .inl ⟨m₁,?_,?_⟩
        · have after := related.interpret goes handles effect
          simp only [goes,Bool.false_eq_true,if_false]
          exact ⟨after.covers,after.live⟩
        · simpa [goes] using exec
    · refine .inr (.inl ⟨path,?_,m,⟨related.covers,fun k live => ?_⟩,exec⟩)
      · rcases interpret_todo proc c i with same | ⟨cond,sr,jump,-,pushed⟩
        · exact same ▸ listed
        · exact pushed ▸ List.mem_cons_of_mem _ listed
      · rcases shared path listed k live with same | unknown
        · exact same ▸ related.live k live
        · exact Value.has_of_all unknown
    · obtain ⟨out,own⟩ := interpret_out proc i own
      exact .inr (.inr ⟨own,out ▸ covers⟩)
  case h_2 last =>
    split at turn
    case h_1 => cases turn
    case h_2 pc s todo listed =>
      obtain rfl := Option.some.inj turn
      rcases accounts with ⟨m,related,exec⟩ | ⟨path,member,m,related,exec⟩ | done
      · rw [rest_of_end last] at exec
        cases exec
        exact .inr (.inr ⟨rfl,joined_covers sound last (.inl related.covers)⟩)
      · rw [listed] at member
        rcases List.mem_cons.mp member with rfl | later
        · exact .inl ⟨m,related,exec⟩
        · exact .inr (.inl ⟨path,later,m,related,exec⟩)
      · exact .inr (.inr ⟨rfl,joined_covers sound last (.inr done)⟩)

/-- The turns of the loops of `update`. -/
def Steps (proc : Process) (b : List Inst) : Config → Config → Prop :=
  Relation.ReflTransGen fun c c' => c.step proc b = some c'

theorem finish_last (turn : c.step proc b = none) : c.finish proc b = c := by
  rw [finish]
  split
  case h_1 => rfl
  case h_2 c' again => rw [turn] at again; cases again

theorem finish_turn (turn : c.step proc b = some c') : c.finish proc b = c'.finish proc b := by
  rw [finish]
  split
  case h_1 again => rw [turn] at again; cases again
  case h_2 d again => rw [Option.some.inj (again.symm.trans turn)]

theorem steps_sound (here : c.Sound proc base b)
    (later : ∀ c', c.step proc b = some c' → ∀ d, Steps proc b c' d → d.Sound proc base b) :
    ∀ d, Steps proc b c d → d.Sound proc base b := by
  intro d steps
  rcases Relation.ReflTransGen.cases_head steps with rfl | ⟨c',turn,rest⟩
  · exact here
  · exact later c' turn d rest

theorem finish_covers (sound : ∀ d, Steps proc b c d → d.Sound proc base b) (accounts : c.Accounts proc base b m') :
    State.Covers proc base (c.finish proc b).joined (m'.machine proc) := by
  fun_induction finish proc b c with
  | case1 c turn =>
    have last : b[c.pc]? = none ∧ c.todo = [] := by
      unfold Config.step at turn
      split at turn
      case h_1 => cases turn
      case h_2 last =>
        split at turn
        case h_1 none => exact ⟨last,none⟩
        case h_2 => cases turn
    refine joined_covers (sound c .refl) last.1 ?_
    rcases accounts with ⟨m,related,exec⟩ | ⟨path,member,-⟩ | done
    · rw [rest_of_end last.1] at exec
      cases exec
      exact .inl related.covers
    · rw [last.2] at member
      cases member
    · exact .inr done
  | case2 c c' turn ih =>
    exact ih (fun d steps => sound d (.head turn steps)) (accounts.step (sound c .refl) turn)

end Config

/-- The block of an instruction is interpreted right from a state and its temporaries: no path reads
    a temporary before it has written it, unless it is unknown, and each step is right. -/
def Faithful (proc : Process) (base : Word) (tmp : Fin 16 → Value) (s : State) (b : List Inst) : Prop :=
  (∀ k, Live k b → (tmp k).kind = .all) ∧
    ∀ c, Config.Steps proc b ⟨0,tmp,s,none,[]⟩ c → c.Sound proc base b

/-- The state after an instruction whose steps are all right covers the machine after the
    execution of any of its semantic paths. -/
theorem update_covers {proc : Process} {base : Word} {tmp : Fin 16 → Value} {s : State} {b : List Inst} {m m' : Core}
    (faithful : Faithful proc base tmp s b) (covers : State.Covers proc base s (m.machine proc))
    (exec : Exec proc.bigEndian b m m') :
    State.Covers proc base (update proc tmp s [b]).2 (m'.machine proc) := by
  obtain ⟨fresh,sound⟩ := faithful
  exact Config.finish_covers sound (.inl ⟨m,⟨covers,fun k live => Value.has_of_all (fresh k live)⟩,exec⟩)

def bare : Process := ⟨[],false,fun _ => 0⟩

/-- `if(r2) r3 = 7`. -/
def conditionalSet : List Inst := [.IF 1 (.reg 2) 1,.SETI (.reg 3) 7]

def idle : Core := ⟨fun _ => 0,fun _ => 0,fun _ => 0⟩

/-- Nothing is known at the start, and the assignment is skipped. -/
theorem update_covers_conditionalSet :
    State.Covers bare 0 (update bare (fun _ => Value.none) State.FULL [conditionalSet]).2 (idle.machine bare) := by
  have nothing (a : Value) : (State.FULL.get bare a 4).kind = .all := by
    rw [State.get_unrecorded (by simp [State.FULL])]
    exact State.unrecorded_all (by decide) 4 (fun _ => rfl)
  have ended (k : Fin 16) : ¬ Live k [] := Config.not_live_nil
  have covers : State.Covers bare 0 State.FULL (idle.machine bare) := fun a _ => Value.has_of_all (nothing a)
  refine update_covers ⟨fun k live => ?_,?_⟩ covers (.skip .done : Exec false conditionalSet idle idle)
  · cases live with
    | reads read => cases read
    | skip live => exact absurd live (ended k)
    | next _ _ live =>
      cases live with
      | reads read => cases read
      | next _ _ live => exact absurd live (ended k)
  -- the condition, the assignment, the end of the path and the other path
  refine Config.steps_sound ⟨trivial,fun path listed => nomatch listed⟩ fun c turn => ?_
  obtain rfl := Option.some.inj turn
  refine Config.steps_sound ⟨trivial,fun path listed k live => ?_⟩ fun c turn => ?_
  · rw [List.mem_singleton.mp listed] at live
    exact absurd live (ended k)
  obtain rfl := Option.some.inj turn
  refine Config.steps_sound (fun s own => nomatch own) fun c turn => ?_
  obtain rfl := Option.some.inj turn
  refine Config.steps_sound (fun s own => ?_) fun c turn => nomatch turn
  obtain rfl := Option.some.inj own
  exact ⟨fun _ _ _ a v _ _ _ => ⟨fun w member => (nomatch member),fun _ inside => nomatch inside⟩,
    fun _ _ _ a v _ member => nomatch member⟩

/-- The opposite of 1 is 1. -/
theorem neg_forgotten : ¬ ∀ (proc : Process) (base : Word) (tmp : Fin 16 → Value) (s : State) (b : List Inst) (m m' : Core),
    State.Covers proc base s (m.machine proc) → Exec proc.bigEndian b m m' →
      State.Covers proc base (update proc tmp s [b]).2 (m'.machine proc) := by
  intro sound
  have covers : State.Covers bare 0 (State.zeroHolds 1) ((⟨fun _ => 1,fun _ => 0,fun _ => 0⟩ : Core).machine bare) := by
    intro a place
    by_cases zero : a = ⟨.reg,0⟩
    · subst zero
      exact Value.has_cst.mpr rfl
    · rw [State.get_unrecorded (fun v member => zero (congrArg Prod.fst (List.mem_singleton.mp member)))]
      exact Value.has_of_all (State.unrecorded_all (by decide) 4 (fun _ => rfl))
  have result : (update bare (fun _ => Value.none) (State.zeroHolds 1) [[.NEG (.reg 0) (.reg 0)]]).2 = State.zeroHolds 1 := by
    simp only [update,List.foldl_cons,List.foldl_nil]
    have turn : Config.step bare ⟨0,fun _ => Value.none,State.zeroHolds 1,none,[]⟩ [.NEG (.reg 0) (.reg 0)] =
        some ⟨1,fun _ => Value.none,State.zeroHolds 1,none,[]⟩ := rfl
    rw [Config.finish_turn turn,Config.finish_last rfl]
    rfl
  have after := sound bare 0 (fun _ => Value.none) (State.zeroHolds 1) [.NEG (.reg 0) (.reg 0)] _ _ covers
    (.next rfl rfl .done) ⟨.reg,0⟩ (.inl rfl)
  rw [result] at after
  exact absurd (Value.has_cst.mp after) (by decide)

end Otawa.Stack
