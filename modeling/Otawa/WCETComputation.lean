import Otawa.TopologicalVisit
import Mathlib.Algebra.Order.Ring.Int
import Mathlib.Data.Fintype.EquivFin
import Mathlib.Tactic.Ring

/-!
The worst case execution time of a syntax tree (`ets::WCETComputation`), and the executions that it
bounds. A call is a block ended by a call, with a time of its own, that the computation leaves out:
its result is the time of the longest execution without the calling blocks (`computed_bounds`,
`computed_reached`), and so a bound when these do not make the longest one longer (`bounds_iff`).
-/
namespace Otawa.Ets
open Relation

/-- The trees, with the time of their blocks (`WCET`, as the block times give it) and the `LOOP_COUNT`
    of their loops, -1 without one. -/
inductive AST
  | undef
  | nop
  | blockAST (time : Int)
  | callAST (time : Int) (function : String)
  | seqAST (child1 child2 : AST)
  | ifAST (condition thenPart elsePart : AST)
  | whileAST (condition body : AST) (count : Int)
  | doWhileAST (body condition : AST) (count : Int)
  | forAST (initialization condition incrementation body : AST) (count : Int)

abbrev ASTInfo := List (String × AST)

/-- The exceptions; `depth` when the calls are deeper than the model goes. -/
inductive Error
  | noWcet (function : String)
  | noLoopBound
  | noIterationCount
  | depth
  deriving DecidableEq

/-- `computation` on a tree, with what it gives for the trees of the called functions. -/
def compute (info : ASTInfo) (callee : AST → Except Error Int) : AST → Except Error Int
  | .undef | .nop => pure 0
  | .blockAST time => pure time
  | .callAST _ function =>
    match info.lookup function with
    | some ast => callee ast
    | none => throw (.noWcet function)
  | .seqAST child1 child2 => do
    let first ← compute info callee child1
    let second ← compute info callee child2
    return first + second
  | .ifAST condition thenPart elsePart => do
    let cond ← compute info callee condition
    let thenTime ← compute info callee thenPart
    let elseTime ← compute info callee elsePart
    return if cond + thenTime > cond + elseTime then cond + thenTime else cond + elseTime
  | .whileAST condition body n =>
    if n = -1 then throw .noLoopBound
    else do
      let cond ← compute info callee condition
      let turn ← compute info callee body
      return n * (cond + turn) + cond
  | .doWhileAST body condition n =>
    if n = -1 then throw .noIterationCount
    else do
      let turn ← compute info callee body
      let cond ← compute info callee condition
      return n * (turn + cond)
  | .forAST initialization condition incrementation body n =>
    if n = -1 then throw .noIterationCount
    else do
      let init ← compute info callee initialization
      let cond ← compute info callee condition
      let inc ← compute info callee incrementation
      let turn ← compute info callee body
      return init + n * (cond + inc + turn) + cond

/-- `computation`, for calls up to this depth. -/
def computation (info : ASTInfo) : Nat → AST → Except Error Int
  | 0 => compute info fun _ => throw .depth
  | k + 1 => compute info (computation info k)

structure Executed where
  time : Int
  calling : Bool

abbrev Trace := List Executed

def Trace.time (trace : Trace) : Int := (trace.map Executed.time).sum

def Trace.timeWithoutCalls (trace : Trace) : Int :=
  (trace.map fun block => if block.calling then 0 else block.time).sum

inductive Task
  | tree (ast : AST)
  | turns (turn : AST) (n : Nat)

/-- The executions, with called functions inlined, where the body of a loop is executed at most
    `LOOP_COUNT` times each time that the loop is entered, and at least once in a do-while loop
    (unless its count says that it is never executed). -/
inductive Exec (info : ASTInfo) : Task → Trace → Prop
  | undef : Exec info (.tree .undef) []
  | nop : Exec info (.tree .nop) []
  | block (time : Int) : Exec info (.tree (.blockAST time)) [⟨time,false⟩]
  | call {time : Int} {function : String} {ast : AST} {trace : Trace} (known : info.lookup function = some ast)
      (callee : Exec info (.tree ast) trace) : Exec info (.tree (.callAST time function)) (⟨time,true⟩ :: trace)
  | seq {a b : AST} {s t : Trace} (first : Exec info (.tree a) s) (second : Exec info (.tree b) t) :
      Exec info (.tree (.seqAST a b)) (s ++ t)
  | thenPart {c a b : AST} {s t : Trace} (condition : Exec info (.tree c) s) (chosen : Exec info (.tree a) t) :
      Exec info (.tree (.ifAST c a b)) (s ++ t)
  | elsePart {c a b : AST} {s t : Trace} (condition : Exec info (.tree c) s) (chosen : Exec info (.tree b) t) :
      Exec info (.tree (.ifAST c a b)) (s ++ t)
  | whileLoop {c b : AST} {count : Int} {n : Nat} {s t : Trace} (bounded : n ≤ count)
      (turns : Exec info (.turns (.seqAST c b) n) s) (last : Exec info (.tree c) t) :
      Exec info (.tree (.whileAST c b count)) (s ++ t)
  | doWhileLoop {b c : AST} {count : Int} {n : Nat} {s : Trace} (bounded : n ≤ count) (once : n = 0 → count = 0)
      (turns : Exec info (.turns (.seqAST b c) n) s) : Exec info (.tree (.doWhileAST b c count)) s
  | forLoop {i c inc b : AST} {count : Int} {n : Nat} {r s t : Trace} (bounded : n ≤ count)
      (init : Exec info (.tree i) r) (turns : Exec info (.turns (.seqAST c (.seqAST b inc)) n) s)
      (last : Exec info (.tree c) t) : Exec info (.tree (.forAST i c inc b count)) (r ++ (s ++ t))
  | done {turn : AST} : Exec info (.turns turn 0) []
  | turn {turn : AST} {n : Nat} {s t : Trace} (first : Exec info (.tree turn) s) (rest : Exec info (.turns turn n) t) :
      Exec info (.turns turn (n + 1)) (s ++ t)

def AST.calls : AST → List String
  | .undef | .nop | .blockAST _ => []
  | .callAST _ function => [function]
  | .seqAST a b => a.calls ++ b.calls
  | .ifAST c a b => c.calls ++ a.calls ++ b.calls
  | .whileAST c b _ => c.calls ++ b.calls
  | .doWhileAST b c _ => b.calls ++ c.calls
  | .forAST i c inc b _ => i.calls ++ c.calls ++ inc.calls ++ b.calls

/-- No time is negative, and a loop has a count or -1: nothing else sets `LOOP_COUNT`, which is not
    given for a negative number of iterations. -/
def AST.Counted : AST → Prop
  | .undef | .nop => True
  | .blockAST time | .callAST time _ => 0 ≤ time
  | .seqAST a b => a.Counted ∧ b.Counted
  | .ifAST c a b => c.Counted ∧ a.Counted ∧ b.Counted
  | .whileAST c b n => -1 ≤ n ∧ c.Counted ∧ b.Counted
  | .doWhileAST b c n => -1 ≤ n ∧ b.Counted ∧ c.Counted
  | .forAST i c inc b n => -1 ≤ n ∧ i.Counted ∧ c.Counted ∧ inc.Counted ∧ b.Counted

def ASTInfo.Calls (info : ASTInfo) (caller callee : String) : Prop :=
  ∃ ast, info.lookup caller = some ast ∧ callee ∈ ast.calls

section Results
variable {info : ASTInfo} {callee : AST → Except Error Int} {k : Nat} {t : AST} {wcet : Int}

theorem bind_eq_ok {A B : Type} {x : Except Error A} {f : A → Except Error B} {b : B} :
    (x >>= f) = .ok b ↔ ∃ a, x = .ok a ∧ f a = .ok b := by
  cases x with
  | error e => simp [bind,Except.bind]
  | ok a => simp [bind,Except.bind]

theorem pure_eq_ok {A : Type} {a b : A} : (pure a : Except Error A) = .ok b ↔ a = b := by simp [pure,Except.pure]

theorem throw_ne_ok {A : Type} {e : Error} {a : A} : (throw e : Except Error A) ≠ .ok a := by
  simp [throw,throwThe,MonadExceptOf.throw]

theorem counted_ok {A : Type} {n : Int} {e : Error} {x : Except Error A} {a : A} :
    (if n = -1 then throw e else x) = .ok a ↔ n ≠ -1 ∧ x = .ok a := by
  by_cases missing : n = -1
  · simp [missing,throw_ne_ok]
  · simp [missing]

def deeper (info : ASTInfo) : Nat → AST → Except Error Int
  | 0 => fun _ => throw .depth
  | k + 1 => computation info k

theorem computation_eq (info : ASTInfo) (k : Nat) : computation info k = compute info (deeper info k) := by
  cases k <;> rfl

theorem computation_seq {a b : AST} {x y : Int} (first : computation info k a = .ok x) (second : computation info k b = .ok y) :
    computation info k (.seqAST a b) = .ok (x + y) := by
  rw [computation_eq] at first second ⊢
  rw [compute,first,second]
  rfl

theorem computation_induct {counted : AST → Prop} {holds : AST → Int → Prop}
    (step : ∀ callee : AST → Except Error Int, (∀ ast w, counted ast → callee ast = .ok w → holds ast w) →
      ∀ t w, counted t → compute info callee t = .ok w → holds t w)
    (start : counted t) (computed : computation info k t = .ok wcet) : holds t wcet := by
  induction k generalizing t wcet with
  | zero => exact step _ (fun _ _ _ never => absurd never throw_ne_ok) t wcet start computed
  | succ k ih => exact step _ (fun _ _ below result => ih below result) t wcet start computed

private theorem compute_nonneg (functions : ∀ name ast, info.lookup name = some ast → ast.Counted)
    (below : ∀ ast w, ast.Counted → callee ast = .ok w → 0 ≤ w) (t : AST) (w : Int) (counted : t.Counted)
    (computed : compute info callee t = .ok w) : 0 ≤ w := by
  induction t generalizing w with
  | undef | nop => rw [← pure_eq_ok.mp computed]
  | blockAST time => rwa [← pure_eq_ok.mp computed]
  | callAST time function =>
    rw [compute] at computed
    split at computed
    case h_1 ast known => exact below ast w (functions function ast known) computed
    case h_2 => exact absurd computed throw_ne_ok
  | seqAST a b ihA ihB =>
    simp only [compute,bind_eq_ok,pure_eq_ok] at computed
    obtain ⟨x,first,y,second,rfl⟩ := computed
    exact add_nonneg (ihA x counted.1 first) (ihB y counted.2 second)
  | ifAST c a b ihC ihA ihB =>
    simp only [compute,bind_eq_ok,pure_eq_ok] at computed
    obtain ⟨z,cond,x,first,y,second,rfl⟩ := computed
    have nonneg := ihC z counted.1 cond
    have thenTime := ihA x counted.2.1 first
    have elseTime := ihB y counted.2.2 second
    split <;> omega
  | whileAST c b n ihC ihB =>
    simp only [compute,counted_ok,bind_eq_ok,pure_eq_ok] at computed
    obtain ⟨given,z,cond,x,turn,rfl⟩ := computed
    have count : 0 ≤ n := by have := counted.1; omega
    have nonneg := ihC z counted.2.1 cond
    exact add_nonneg (mul_nonneg count (add_nonneg nonneg (ihB x counted.2.2 turn))) nonneg
  | doWhileAST b c n ihB ihC =>
    simp only [compute,counted_ok,bind_eq_ok,pure_eq_ok] at computed
    obtain ⟨given,x,turn,z,cond,rfl⟩ := computed
    have count : 0 ≤ n := by have := counted.1; omega
    exact mul_nonneg count (add_nonneg (ihB x counted.2.1 turn) (ihC z counted.2.2 cond))
  | forAST i c inc b n ihI ihC ihInc ihB =>
    simp only [compute,counted_ok,bind_eq_ok,pure_eq_ok] at computed
    obtain ⟨given,r,init,z,cond,y,incr,x,turn,rfl⟩ := computed
    have count : 0 ≤ n := by have := counted.1; omega
    obtain ⟨-,countedI,countedC,countedInc,countedB⟩ := counted
    have nonneg := ihC z countedC cond
    have turnTime := add_nonneg (add_nonneg nonneg (ihInc y countedInc incr)) (ihB x countedB turn)
    exact add_nonneg (add_nonneg (ihI r countedI init) (mul_nonneg count turnTime)) nonneg

theorem computation_nonneg (functions : ∀ name ast, info.lookup name = some ast → ast.Counted) (counted : t.Counted)
    (computed : computation info k t = .ok wcet) : 0 ≤ wcet :=
  computation_induct (fun _ below => compute_nonneg functions below) counted computed

@[simp] theorem Trace.timeWithoutCalls_nil : Trace.timeWithoutCalls [] = 0 := rfl
@[simp] theorem Trace.timeWithoutCalls_cons (block : Executed) (trace : Trace) :
    Trace.timeWithoutCalls (block :: trace) = (if block.calling then 0 else block.time) + trace.timeWithoutCalls := rfl
@[simp] theorem Trace.timeWithoutCalls_append (s t : Trace) :
    Trace.timeWithoutCalls (s ++ t) = s.timeWithoutCalls + t.timeWithoutCalls := by
  simp [Trace.timeWithoutCalls]

def Task.Bounds (info : ASTInfo) (time : Int) : Task → Prop
  | .tree t => t.Counted → ∀ k wcet, computation info k t = .ok wcet → time ≤ wcet
  | .turns t n => t.Counted → ∀ k wcet, computation info k t = .ok wcet → time ≤ n * wcet

private theorem turns_le {n : Nat} {count w time : Int} (bounded : n ≤ count) (nonneg : 0 ≤ w) (turns : time ≤ n * w) :
    time ≤ count * w :=
  turns.trans (mul_le_mul_of_nonneg_right bounded nonneg)

theorem computed_bounds (functions : ∀ name ast, info.lookup name = some ast → ast.Counted) {task : Task} {trace : Trace}
    (exec : Exec info task trace) : task.Bounds info trace.timeWithoutCalls := by
  induction exec with
  | undef | nop =>
    intro _ k wcet computed
    rw [computation_eq] at computed
    rw [← pure_eq_ok.mp computed,Trace.timeWithoutCalls_nil]
  | block time =>
    intro _ k wcet computed
    rw [computation_eq] at computed
    rw [← pure_eq_ok.mp computed]
    simp
  | @call time function ast trace known _ ih =>
    intro _ k wcet computed
    rw [computation_eq,compute,known] at computed
    cases k with
    | zero => exact absurd computed throw_ne_ok
    | succ k => simpa using ih (functions function ast known) k wcet computed
  | seq _ _ ihA ihB =>
    intro counted k wcet computed
    simp only [computation_eq,compute,bind_eq_ok,pure_eq_ok] at computed
    obtain ⟨x,first,y,second,rfl⟩ := computed
    rw [← computation_eq] at first second
    rw [Trace.timeWithoutCalls_append]
    exact add_le_add (ihA counted.1 k x first) (ihB counted.2 k y second)
  | thenPart _ _ ihC ihA =>
    intro counted k wcet computed
    simp only [computation_eq,compute,bind_eq_ok,pure_eq_ok] at computed
    obtain ⟨z,cond,x,first,y,second,rfl⟩ := computed
    rw [← computation_eq] at cond first
    have condition := ihC counted.1 k z cond
    have chosen := ihA counted.2.1 k x first
    rw [Trace.timeWithoutCalls_append]
    split <;> omega
  | elsePart _ _ ihC ihB =>
    intro counted k wcet computed
    simp only [computation_eq,compute,bind_eq_ok,pure_eq_ok] at computed
    obtain ⟨z,cond,x,first,y,second,rfl⟩ := computed
    rw [← computation_eq] at cond second
    have condition := ihC counted.1 k z cond
    have chosen := ihB counted.2.2 k y second
    rw [Trace.timeWithoutCalls_append]
    split <;> omega
  | whileLoop bounded _ _ ihTurns ihC =>
    rintro ⟨-,countedC,countedB⟩ k wcet computed
    simp only [computation_eq,compute,counted_ok,bind_eq_ok,pure_eq_ok] at computed
    obtain ⟨-,z,cond,x,turn,rfl⟩ := computed
    rw [← computation_eq] at cond turn
    have one := computation_seq cond turn
    have nonneg := computation_nonneg functions (t := .seqAST _ _) ⟨countedC,countedB⟩ one
    rw [Trace.timeWithoutCalls_append]
    exact add_le_add (turns_le bounded nonneg (ihTurns ⟨countedC,countedB⟩ k _ one)) (ihC countedC k z cond)
  | doWhileLoop bounded _ _ ihTurns =>
    rintro ⟨-,countedB,countedC⟩ k wcet computed
    simp only [computation_eq,compute,counted_ok,bind_eq_ok,pure_eq_ok] at computed
    obtain ⟨-,x,turn,z,cond,rfl⟩ := computed
    rw [← computation_eq] at cond turn
    have one := computation_seq turn cond
    have nonneg := computation_nonneg functions (t := .seqAST _ _) ⟨countedB,countedC⟩ one
    exact turns_le bounded nonneg (ihTurns ⟨countedB,countedC⟩ k _ one)
  | forLoop bounded _ _ _ ihI ihTurns ihC =>
    rintro ⟨-,countedI,countedC,countedInc,countedB⟩ k wcet computed
    simp only [computation_eq,compute,counted_ok,bind_eq_ok,pure_eq_ok] at computed
    obtain ⟨-,r,init,z,cond,y,incr,x,turn,rfl⟩ := computed
    rw [← computation_eq] at init cond incr turn
    have one := computation_seq cond (computation_seq turn incr)
    have nonneg := computation_nonneg functions (t := .seqAST _ (.seqAST _ _)) ⟨countedC,countedB,countedInc⟩ one
    have turns := turns_le bounded nonneg (ihTurns ⟨countedC,countedB,countedInc⟩ k _ one)
    have same : z + (x + y) = z + y + x := by omega
    rw [same] at turns
    rw [Trace.timeWithoutCalls_append,Trace.timeWithoutCalls_append,add_assoc]
    exact add_le_add (ihI countedI k r init) (add_le_add turns (ihC countedC k z cond))
  | done =>
    intro _ k wcet _
    simp
  | turn _ _ ihFirst ihRest =>
    intro counted k wcet computed
    have first := ihFirst counted k wcet computed
    have rest := ihRest counted k wcet computed
    rw [Trace.timeWithoutCalls_append,Nat.cast_succ,add_mul,one_mul,add_comm]
    exact add_le_add rest first

private theorem exec_turns {t : AST} {trace : Trace} (exec : Exec info (.tree t) trace) (n : Nat) :
    ∃ all, Exec info (.turns t n) all ∧ Trace.timeWithoutCalls all = n * trace.timeWithoutCalls := by
  induction n with
  | zero => exact ⟨[],.done,by simp⟩
  | succ n ih =>
    obtain ⟨all,turns,time⟩ := ih
    refine ⟨trace ++ all,.turn exec turns,?_⟩
    rw [Trace.timeWithoutCalls_append,time,Nat.cast_succ,add_mul,one_mul,add_comm]

def Reached (info : ASTInfo) (t : AST) (wcet : Int) : Prop :=
  ∃ trace, Exec info (.tree t) trace ∧ Trace.timeWithoutCalls trace = wcet

private theorem compute_reached (functions : ∀ name ast, info.lookup name = some ast → ast.Counted)
    (below : ∀ ast w, ast.Counted → callee ast = .ok w → Reached info ast w) (t : AST) (w : Int) (counted : t.Counted)
    (computed : compute info callee t = .ok w) : Reached info t w := by
  induction t generalizing w with
  | undef => exact ⟨[],.undef,pure_eq_ok.mp computed⟩
  | nop => exact ⟨[],.nop,pure_eq_ok.mp computed⟩
  | blockAST time => exact ⟨_,.block time,by simpa using pure_eq_ok.mp computed⟩
  | callAST time function =>
    rw [compute] at computed
    split at computed
    case h_1 ast known =>
      obtain ⟨trace,exec,reached⟩ := below ast w (functions function ast known) computed
      exact ⟨_,.call known exec,by simpa using reached⟩
    case h_2 => exact absurd computed throw_ne_ok
  | seqAST a b ihA ihB =>
    simp only [compute,bind_eq_ok,pure_eq_ok] at computed
    obtain ⟨x,first,y,second,rfl⟩ := computed
    obtain ⟨s,execA,rfl⟩ := ihA x counted.1 first
    obtain ⟨t,execB,rfl⟩ := ihB y counted.2 second
    exact ⟨_,.seq execA execB,Trace.timeWithoutCalls_append s t⟩
  | ifAST c a b ihC ihA ihB =>
    simp only [compute,bind_eq_ok,pure_eq_ok] at computed
    obtain ⟨z,cond,x,first,y,second,rfl⟩ := computed
    obtain ⟨r,execC,rfl⟩ := ihC z counted.1 cond
    split
    · obtain ⟨s,execA,rfl⟩ := ihA x counted.2.1 first
      exact ⟨_,.thenPart execC execA,Trace.timeWithoutCalls_append r s⟩
    · obtain ⟨t,execB,rfl⟩ := ihB y counted.2.2 second
      exact ⟨_,.elsePart execC execB,Trace.timeWithoutCalls_append r t⟩
  | whileAST c b n ihC ihB =>
    simp only [compute,counted_ok,bind_eq_ok,pure_eq_ok] at computed
    obtain ⟨given,z,cond,x,turn,rfl⟩ := computed
    obtain ⟨known,countedC,countedB⟩ := counted
    obtain ⟨m,rfl⟩ := Int.eq_ofNat_of_zero_le (show 0 ≤ n by omega)
    obtain ⟨s,execC,rfl⟩ := ihC z countedC cond
    obtain ⟨t,execB,rfl⟩ := ihB x countedB turn
    obtain ⟨all,turns,time⟩ := exec_turns (.seq execC execB) m
    exact ⟨_,.whileLoop le_rfl turns execC,by simp [time]⟩
  | doWhileAST b c n ihB ihC =>
    simp only [compute,counted_ok,bind_eq_ok,pure_eq_ok] at computed
    obtain ⟨given,x,turn,z,cond,rfl⟩ := computed
    obtain ⟨known,countedB,countedC⟩ := counted
    obtain ⟨m,rfl⟩ := Int.eq_ofNat_of_zero_le (show 0 ≤ n by omega)
    obtain ⟨t,execB,rfl⟩ := ihB x countedB turn
    obtain ⟨s,execC,rfl⟩ := ihC z countedC cond
    obtain ⟨all,turns,time⟩ := exec_turns (.seq execB execC) m
    exact ⟨_,.doWhileLoop le_rfl (by simp) turns,by simp [time]⟩
  | forAST i c inc b n ihI ihC ihInc ihB =>
    simp only [compute,counted_ok,bind_eq_ok,pure_eq_ok] at computed
    obtain ⟨given,r,init,z,cond,y,incr,x,turn,rfl⟩ := computed
    obtain ⟨known,countedI,countedC,countedInc,countedB⟩ := counted
    obtain ⟨m,rfl⟩ := Int.eq_ofNat_of_zero_le (show 0 ≤ n by omega)
    obtain ⟨start,execI,rfl⟩ := ihI r countedI init
    obtain ⟨s,execC,rfl⟩ := ihC z countedC cond
    obtain ⟨u,execInc,rfl⟩ := ihInc y countedInc incr
    obtain ⟨t,execB,rfl⟩ := ihB x countedB turn
    obtain ⟨all,turns,time⟩ := exec_turns (.seq execC (.seq execB execInc)) m
    refine ⟨_,.forLoop le_rfl execI turns execC,?_⟩
    simp [time]
    ring

theorem computed_reached (functions : ∀ name ast, info.lookup name = some ast → ast.Counted) (counted : t.Counted)
    (computed : computation info k t = .ok wcet) : Reached info t wcet :=
  computation_induct (fun _ below => compute_reached functions below) counted computed

def Settled {A : Type} (results : Nat → Except Error A) (result : Except Error A) : Prop :=
  result ≠ .error .depth ∧ ∃ k, ∀ n, k ≤ n → results n = result

private theorem settled_of_eq {A : Type} {results : Nat → Except Error A} {result : Except Error A}
    (same : ∀ k, results k = result) (other : result ≠ .error .depth) : ∃ result, Settled results result :=
  ⟨result,other,0,fun n _ => same n⟩

private theorem settled_bind {A B : Type} {first : Nat → Except Error A} {next : Nat → A → Except Error B}
    (settled : ∃ result, Settled first result) (rest : ∀ a, ∃ result, Settled (fun k => next k a) result) :
    ∃ result, Settled (fun k => first k >>= next k) result := by
  obtain ⟨result,other,k,same⟩ := settled
  cases result with
  | error e =>
    refine ⟨.error e,fun limited => other (congrArg _ (Except.error.inj limited)),k,fun n enough => ?_⟩
    simp only [same n enough]
    rfl
  | ok a =>
    obtain ⟨last,otherLast,m,sameLast⟩ := rest a
    refine ⟨last,otherLast,max k m,fun n enough => ?_⟩
    simp only [same n (le_trans (le_max_left k m) enough)]
    exact sameLast n (le_trans (le_max_right k m) enough)

private theorem settled_pure {A : Type} (a : A) : ∃ result, Settled (fun _ => (pure a : Except Error A)) result :=
  settled_of_eq (fun _ => rfl) (by simp [pure,Except.pure])

private theorem settled_counted {n : Int} {e : Error} {results : Nat → Except Error Int}
    (settled : ∃ result, Settled results result) (other : e ≠ .depth) :
    ∃ result, Settled (fun k => if n = -1 then throw e else results k) result := by
  by_cases missing : n = -1
  · simp only [missing,if_true]
    exact settled_of_eq (fun _ => rfl) fun limited => other (Except.error.inj limited)
  · simpa only [missing,if_false] using settled

private theorem settled_compute (t : AST)
    (functions : ∀ name ∈ t.calls, ∀ ast, info.lookup name = some ast →
      ∃ result, Settled (computation info · ast) result) :
    ∃ result, Settled (computation info · t) result := by
  simp only [computation_eq]
  induction t with
  | undef => exact settled_pure 0
  | nop => exact settled_pure 0
  | blockAST time => exact settled_pure time
  | callAST time function =>
    simp only [compute]
    cases known : info.lookup function with
    | none => exact settled_of_eq (fun _ => rfl) fun limited => by cases Except.error.inj limited
    | some ast =>
      obtain ⟨result,other,k,same⟩ := functions function (by simp [AST.calls]) ast known
      refine ⟨result,other,k + 1,fun n enough => ?_⟩
      obtain ⟨m,rfl⟩ := Nat.exists_eq_add_of_le' (le_trans (Nat.le_add_left 1 k) enough)
      exact same m (by omega)
  | seqAST a b ihA ihB =>
    have first := ihA fun name member => functions name (by simp [AST.calls,member])
    have second := ihB fun name member => functions name (by simp [AST.calls,member])
    exact settled_bind first fun x => settled_bind second fun y => settled_pure _
  | ifAST c a b ihC ihA ihB =>
    have cond := ihC fun name member => functions name (by simp [AST.calls,member])
    have first := ihA fun name member => functions name (by simp [AST.calls,member])
    have second := ihB fun name member => functions name (by simp [AST.calls,member])
    exact settled_bind cond fun z => settled_bind first fun x => settled_bind second fun y => settled_pure _
  | whileAST c b n ihC ihB =>
    have cond := ihC fun name member => functions name (by simp [AST.calls,member])
    have turn := ihB fun name member => functions name (by simp [AST.calls,member])
    exact settled_counted (settled_bind cond fun z => settled_bind turn fun x => settled_pure _) (by decide)
  | doWhileAST b c n ihB ihC =>
    have cond := ihC fun name member => functions name (by simp [AST.calls,member])
    have turn := ihB fun name member => functions name (by simp [AST.calls,member])
    exact settled_counted (settled_bind turn fun x => settled_bind cond fun z => settled_pure _) (by decide)
  | forAST i c inc b n ihI ihC ihInc ihB =>
    have init := ihI fun name member => functions name (by simp [AST.calls,member])
    have cond := ihC fun name member => functions name (by simp [AST.calls,member])
    have incr := ihInc fun name member => functions name (by simp [AST.calls,member])
    have turn := ihB fun name member => functions name (by simp [AST.calls,member])
    refine settled_counted (settled_bind init fun r => settled_bind cond fun z => ?_) (by decide)
    exact settled_bind incr fun y => settled_bind turn fun x => settled_pure _

theorem mem_names {name : String} {ast : AST} (known : info.lookup name = some ast) : name ∈ info.map Prod.fst := by
  obtain ⟨before,after,split,-⟩ := List.lookup_eq_some_iff.mp known
  simp [split]

/-- Without recursive calls, deep enough is deep enough for each function. -/
private theorem settled_functions (acyclic : ∀ f, ¬TransGen info.Calls f f) {name : String} {ast : AST}
    (known : info.lookup name = some ast) : ∃ result, Settled (computation info · ast) result := by
  let called : {f // f ∈ info.map Prod.fst} → {f // f ∈ info.map Prod.fst} → Prop :=
    fun callee caller => info.Calls caller callee
  have noCycle : ∀ f, ¬TransGen called f f := by
    intro f cycle
    have names : TransGen (Function.swap info.Calls) f.val f.val :=
      TransGen.lift Subtype.val (fun _ _ calls => calls) _ _ cycle
    exact acyclic f.val (transGen_swap.mp names)
  have all : ∀ f : {f // f ∈ info.map Prod.fst}, ∀ ast, info.lookup f.val = some ast →
      ∃ result, Settled (computation info · ast) result := by
    intro f
    induction f using (TopologicalVisit.wellFounded_of_acyclic noCycle).induction with
    | _ f ih =>
      intro ast known
      refine settled_compute ast fun callee member body found => ?_
      exact ih ⟨callee,mem_names found⟩ ⟨ast,known,member⟩ body found
  exact all ⟨name,mem_names known⟩ ast known

/-- The computation of a program without recursive calls returns; what it returns bounds the
    executions exactly when, for each of them, one is as long without its calling blocks. -/
theorem bounds_iff (info : ASTInfo) (t : AST) (acyclic : ∀ f, ¬TransGen info.Calls f f) (counted : t.Counted)
    (functions : ∀ name ast, info.lookup name = some ast → ast.Counted) :
    ∃ result, Settled (computation info · t) result ∧ ∀ wcet, result = .ok wcet →
      ((∀ trace, Exec info (.tree t) trace → trace.time ≤ wcet) ↔
        ∀ trace, Exec info (.tree t) trace → ∃ other, Exec info (.tree t) other ∧ trace.time ≤ other.timeWithoutCalls) := by
  obtain ⟨result,settled⟩ := settled_compute t fun name _ ast known => settled_functions acyclic known
  refine ⟨result,settled,?_⟩
  rintro wcet rfl
  obtain ⟨-,k,computed⟩ := settled
  have computed := computed k le_rfl
  constructor
  · intro bounds trace exec
    obtain ⟨longest,other,reached⟩ := computed_reached functions counted computed
    exact ⟨longest,other,(bounds trace exec).trans reached.ge⟩
  · intro covered trace exec
    obtain ⟨other,execOther,longer⟩ := covered trace exec
    exact longer.trans (computed_bounds functions execOther counted k wcet computed)

end Results

def caller (time : Int) : AST := .whileAST (.blockAST 1) (.callAST time "f") 3

def library : ASTInfo := [("f",.ifAST (.blockAST 2) (.blockAST 7) (.blockAST 4))]

theorem library_acyclic (f : String) : ¬TransGen library.Calls f f := by
  have none : ∀ callee, ¬library.Calls f callee := by
    rintro callee ⟨ast,known,member⟩
    obtain ⟨before,after,split,-⟩ := List.lookup_eq_some_iff.mp known
    have single : (f,ast) ∈ library := by simp [split]
    obtain ⟨-,rfl⟩ := Prod.mk.inj (List.mem_singleton.mp single)
    simp [AST.calls] at member
  intro cycle
  obtain ⟨callee,calls,-⟩ := TransGen.head'_iff.mp cycle
  exact none callee calls

theorem library_counted (name : String) (ast : AST) (known : library.lookup name = some ast) : ast.Counted := by
  obtain ⟨before,after,split,-⟩ := List.lookup_eq_some_iff.mp known
  have single : (name,ast) ∈ library := by simp [split]
  obtain ⟨-,rfl⟩ := Prod.mk.inj (List.mem_singleton.mp single)
  simp [AST.Counted]

theorem bounds_iff_caller : ∃ result, Settled (computation library · (caller 5)) result ∧ ∀ wcet, result = .ok wcet →
    ((∀ trace, Exec library (.tree (caller 5)) trace → trace.time ≤ wcet) ↔
      ∀ trace, Exec library (.tree (caller 5)) trace →
        ∃ other, Exec library (.tree (caller 5)) other ∧ trace.time ≤ other.timeWithoutCalls) :=
  bounds_iff library (caller 5) library_acyclic (by simp [caller,AST.Counted]) library_counted

/-- Each turn spends five cycles in the calling block that the result 31 does not have. -/
theorem caller_longer : ¬∀ (info : ASTInfo) (t : AST) (k : Nat) (wcet : Int), (∀ f, ¬TransGen info.Calls f f) →
    t.Counted → (∀ name ast, info.lookup name = some ast → ast.Counted) → computation info k t = .ok wcet →
    ∀ trace, Exec info (.tree t) trace → trace.time ≤ wcet := by
  intro all
  have callee : Exec library (.tree (.ifAST (.blockAST 2) (.blockAST 7) (.blockAST 4))) [⟨2,false⟩,⟨7,false⟩] :=
    .thenPart (.block 2) (.block 7)
  have call : Exec library (.tree (.callAST 5 "f")) [⟨5,true⟩,⟨2,false⟩,⟨7,false⟩] := .call rfl callee
  have turn := Exec.seq (.block 1) call
  have turns := Exec.turn turn (.turn turn (.turn turn .done))
  have run : Exec library (.tree (caller 5)) _ := .whileLoop (n := 3) le_rfl turns (.block 1)
  have short := all library (caller 5) 1 31 library_acyclic (by simp [caller,AST.Counted]) library_counted rfl _ run
  exact absurd short (by decide)

end Otawa.Ets
