import Otawa.ClpProblem
import Otawa.StackState
import Mathlib.Logic.Relation

/-!
Interpretation of the semantic instructions by the stack analysis (`StackProblem::update`).
The paths of a block share the temporaries: a path that is left for later is resumed
with its own state and with the temporaries as the paths before it left them.
-/
namespace Otawa.Stack
open Otawa.Clp (MemType)

/-- The value of a type of load or store in `type_t`. -/
def typeCode : MemType → Nat
  | .NO_TYPE => 0
  | .INT8 => 1
  | .INT16 => 2
  | .INT32 => 3
  | .INT64 => 4
  | .UINT8 => 5
  | .UINT16 => 6
  | .UINT32 => 7
  | .UINT64 => 8
  | .FLOAT32 => 9
  | .FLOAT64 => 10

/-- `sem::size`. -/
def typeSize : MemType → Nat
  | .NO_TYPE => 0
  | .INT8 | .UINT8 => 1
  | .INT16 | .UINT16 => 2
  | .INT32 | .UINT32 | .FLOAT32 => 4
  | .INT64 | .UINT64 | .FLOAT64 => 8

/-- A register by its platform number, or a temporary, whose number is negative in an
    instruction and at most 15. -/
inductive Var
  | reg (number : Fin (2 ^ 15)) | tmp (number : Fin 16)
  deriving DecidableEq

inductive Inst
  | NOP | TRAP | CONT
  | BRANCH (d : Var)
  | IF (cond : Nat) (sr : Var) (jump : Fin (2 ^ 15))
  | LOAD (d a : Var) (type : MemType)
  | STORE (d a : Var) (type : MemType)
  | SCRATCH (d : Var)
  | SET (d a : Var)
  | SETI (d : Var) (cst : Word)
  | SETP (d : Var) (cst : Word)
  | CMP (d a b : Var)
  | CMPU (d a b : Var)
  | ADD (d a b : Var)
  | SUB (d a b : Var)
  | SHL (d a b : Var)
  | SHR (d a b : Var)
  | ASR (d a b : Var)
  | NEG (d a : Var)
  | NOT (d a : Var)
  | AND (d a b : Var)
  | OR (d a b : Var)
  | XOR (d a b : Var)
  | MUL (d a b : Var)
  | MULU (d a b : Var)
  | DIV (d a b : Var)
  | DIVU (d a b : Var)
  | MOD (d a b : Var)
  | MODU (d a b : Var)
  | SPEC (code : Nat) (cst : Word)
  deriving DecidableEq

def regAddr (number : Fin (2 ^ 15)) : Value := ⟨.reg,BitVec.ofNat 32 number⟩

/-- What `update` works on: the position in the block, the temporaries, the output state,
    the state of the path unless it is the output state, and the paths left for later. -/
structure Config where
  pc : Nat
  tmp : Fin 16 → Value
  out : State
  own : Option State
  todo : List (Nat × State)

namespace Config
variable (proc : Process) (c : Config)

def state : State := c.own.getD c.out

/-- A write to `*state`. -/
def put (s : State) : Config :=
  match c.own with
  | none => {c with out := s}
  | some _ => {c with own := some s}

def get : Var → Value
  | .tmp i => c.tmp i
  | .reg i => c.state.get proc (regAddr i) 0

def set (d : Var) (v : Value) : Config :=
  match d with
  | .tmp i => {c with tmp := Function.update c.tmp i v}
  | .reg i => c.put (c.state.set (regAddr i) v)

/-- The switch of `update`; the other opcodes have no case. -/
def interpret : Inst → Config
  | .IF _ _ jump => {c with todo := (c.pc + jump + 1,c.state) :: c.todo}
  | .LOAD d a type => c.set d (c.state.get proc (c.get proc a) (typeCode type))
  | .STORE d a _ => c.put (c.state.set (c.get proc a) (c.get proc d))
  | .SETP d _ | .CMP d _ _ | .CMPU d _ _ | .ASR d _ _ | .SCRATCH d => c.set d Value.all
  | .SET d a => c.set d (c.get proc a)
  | .SETI d cst => c.set d ⟨.cst,cst⟩
  | .ADD d a b => c.set d ((c.get proc a).add (c.get proc b))
  | .SUB d a b => c.set d ((c.get proc a).sub (c.get proc b))
  | .SHL d a b => c.set d ((c.get proc a).shl (c.get proc b))
  | .SHR d a b => c.set d ((c.get proc a).shr (c.get proc b))
  | _ => c

def joined : State :=
  match c.own with
  | none => c.out
  | some s => c.out.join s

def stops : Inst → Bool
  | .BRANCH _ | .TRAP | .CONT => true
  | _ => false

/-- A turn of the loops of `update`: an instruction, or the next path. -/
def step (b : List Inst) : Option Config :=
  match b[c.pc]? with
  | some i => some {c.interpret proc i with pc := if stops i then b.length + 1 else c.pc + 1}
  | none =>
    match c.todo with
    | [] => none
    | (pc,s) :: todo => some {c with pc := pc,out := c.joined,own := some s,todo := todo}

def weight (b : List Inst) : Nat :=
  (2 ^ (b.length - c.pc + 1) - 1) + (c.todo.map fun path => 2 ^ (b.length - path.1 + 1) - 1).sum

variable {proc c}

@[simp] theorem put_tmp (s : State) : (c.put s).tmp = c.tmp := by unfold put; split <;> rfl
@[simp] theorem put_todo (s : State) : (c.put s).todo = c.todo := by unfold put; split <;> rfl

@[simp] theorem put_state (s : State) : (c.put s).state = s := by
  unfold put state
  split <;> simp [*]

@[simp] theorem set_todo (d : Var) (v : Value) : (c.set d v).todo = c.todo := by cases d <;> simp [set]

variable (proc c) in
theorem interpret_todo (i : Inst) : (c.interpret proc i).todo = c.todo ∨
    ∃ cond sr jump, i = .IF cond sr jump ∧ (c.interpret proc i).todo = (c.pc + jump + 1,c.state) :: c.todo := by
  cases i with
  | IF cond sr jump => exact .inr ⟨cond,sr,jump,rfl,rfl⟩
  | _ => exact .inl (by simp [interpret])

theorem step_weight {b : List Inst} {c' : Config} (turn : c.step proc b = some c') : c'.weight b < c.weight b := by
  unfold step at turn
  split at turn
  case h_1 i found =>
    obtain rfl := Option.some.inj turn
    have inside : c.pc < b.length := (List.getElem?_eq_some_iff.mp found).1
    -- the rest of the path is shorter by one instruction
    have half : 2 ^ (b.length - c.pc + 1) = 2 * 2 ^ (b.length - (c.pc + 1) + 1) := by
      rw [← Nat.pow_succ']
      congr 1
      omega
    have rest : 2 ^ (b.length - (if stops i then b.length + 1 else c.pc + 1) + 1) ≤ 2 ^ (b.length - (c.pc + 1) + 1) :=
      Nat.pow_le_pow_right (by decide) (by split <;> omega)
    have positive : 0 < 2 ^ (b.length - (c.pc + 1) + 1) := Nat.pow_pos (by decide)
    have positive' : 0 < 2 ^ (b.length - (if stops i then b.length + 1 else c.pc + 1) + 1) := Nat.pow_pos (by decide)
    rcases interpret_todo proc c i with same | ⟨cond,sr,jump,-,pushed⟩
    · simp only [weight,same]
      omega
    · have later : 2 ^ (b.length - (c.pc + jump + 1) + 1) ≤ 2 ^ (b.length - (c.pc + 1) + 1) :=
        Nat.pow_le_pow_right (by decide) (by omega)
      simp only [weight,pushed,List.map_cons,List.sum_cons]
      omega
  case h_2 =>
    split at turn
    case h_1 => cases turn
    case h_2 pc s todo listed =>
      obtain rfl := Option.some.inj turn
      have positive : 2 ≤ 2 ^ (b.length - c.pc + 1) := by
        rw [Nat.pow_succ]
        have := Nat.pow_pos (n := b.length - c.pc) (show 0 < 2 by decide)
        omega
      simp only [weight,listed,List.map_cons,List.sum_cons]
      omega

/-- The loops of `update`, up to the end of the last path. -/
def finish (proc : Process) (b : List Inst) (c : Config) : Config :=
  match _turn : c.step proc b with
  | none => c
  | some c' => finish proc b c'
termination_by c.weight b
decreasing_by exact step_weight ‹_›

end Config

/-- `update` on a basic block, for the semantic instructions of its instructions. The temporaries
    are kept from a call to the next. -/
def update (proc : Process) (tmp : Fin 16 → Value) (input : State) (bb : List (List Inst)) : (Fin 16 → Value) × State :=
  bb.foldl (fun (tmp,out) b =>
    let last := Config.finish proc b ⟨0,tmp,out,none,[]⟩
    (last.tmp,last.joined)) (tmp,input)

end Otawa.Stack
