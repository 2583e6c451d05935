import Otawa.Worklist
import Mathlib.Data.List.FinRange

/-!
The iterative data flow engine (`dfa::IterativeDFA`). Its queue of blocks is the work
list of `Worklist`: the bit vector `present` says which blocks are in the queue.
-/
namespace Otawa.Dfa
open Otawa.Worklist (Equations enqueue)

variable {n : Nat} {S : Type}

/-- The `Problem` of the engine, and its two iterators. -/
structure IterativeDFA (n : Nat) (S : Type) where
  empty : S
  gen : Fin n → S
  kill : Fin n → S
  equals : S → S → Bool
  reset : S
  merge : S → S → S
  add : S → S → S
  diff : S → S → S
  iter : Fin n → List (Fin n)
  forward : Fin n → List (Fin n)

structure State (n : Nat) (S : Type) where
  ins : Fin n → S
  outs : Fin n → S
  todo : List (Fin n)
  present : Fin n → Bool

namespace IterativeDFA

variable (dfa : IterativeDFA n S)

def init : State n S where
  ins _ := dfa.empty
  outs _ := dfa.empty
  todo := List.finRange n
  present _ := true

def input (outs : Fin n → S) (bb : Fin n) : S :=
  (dfa.iter bb).foldl (fun set pred => dfa.merge set (outs pred)) dfa.reset

def output (outs : Fin n → S) (bb : Fin n) : S :=
  dfa.add (dfa.diff (dfa.input outs bb) (dfa.kill bb)) (dfa.gen bb)

def put (todo : List (Fin n)) (present : Fin n → Bool) : List (Fin n) → List (Fin n) × (Fin n → Bool)
  | [] => (todo,present)
  | next :: rest =>
    if present next then put todo present rest
    else put (todo ++ [next]) (Function.update present next true) rest

/-- One turn of the loop of `compute`. -/
def step (s : State n S) : State n S :=
  match s.todo with
  | [] => s
  | bb :: todo =>
    let present := Function.update s.present bb false
    let ins := Function.update s.ins bb (dfa.input s.outs bb)
    let comp := dfa.output s.outs bb
    if dfa.equals comp (s.outs bb) then ⟨ins,s.outs,todo,present⟩
    else
      let queued := put todo present (dfa.forward bb)
      ⟨ins,Function.update s.outs bb comp,queued.1,queued.2⟩

/-- The loop of `compute`, for at most k turns. -/
def loop : Nat → State n S → Option (State n S)
  | 0, s => if s.todo = [] then some s else none
  | k + 1, s => if s.todo = [] then some s else loop k (dfa.step s)

def compute (k : Nat) : Option (State n S) := dfa.loop k dfa.init

end IterativeDFA

structure Lawful (dfa : IterativeDFA n S) : Prop where
  equals : ∀ x y, dfa.equals x y = true ↔ x = y
  converse : ∀ a b, a ∈ dfa.iter b ↔ b ∈ dfa.forward a

variable {dfa : IterativeDFA n S}

theorem input_congr {outs outs' : Fin n → S} {bb : Fin n} (same : ∀ p ∈ dfa.iter bb, outs p = outs' p) :
    dfa.input outs bb = dfa.input outs' bb := by
  unfold IterativeDFA.input
  exact List.foldl_ext _ _ _ fun set p member => by rw [same p member]

/-- The equations that the engine solves. -/
def equations (lawful : Lawful dfa) : Equations (Fin n) S where
  transfer := dfa.output
  dependents := dfa.forward
  local_ same := by
    unfold IterativeDFA.output
    rw [input_congr fun p member => same p ((lawful.converse p _).mp member)]

def abstract (s : State n S) : Worklist.State (Fin n) S := ⟨s.todo,s.outs⟩

def Present (todo : List (Fin n)) (present : Fin n → Bool) : Prop := ∀ b, present b = true ↔ b ∈ todo

theorem Present.rest {bb : Fin n} {todo : List (Fin n)} {present : Fin n → Bool} (absent : bb ∉ todo)
    (agrees : Present (bb :: todo) present) : Present todo (Function.update present bb false) := by
  intro b
  by_cases same : b = bb
  · subst same; simp [absent]
  · rw [Function.update_of_ne same,agrees b]
    simp [same]

theorem put_enqueue {todo : List (Fin n)} {present : Fin n → Bool} (agrees : Present todo present) (added : List (Fin n)) :
    (IterativeDFA.put todo present added).1 = enqueue todo added ∧
      Present (IterativeDFA.put todo present added).1 (IterativeDFA.put todo present added).2 := by
  induction added generalizing todo present with
  | nil => exact ⟨rfl,agrees⟩
  | cons next rest ih =>
    rw [IterativeDFA.put,enqueue]
    by_cases waiting : next ∈ todo
    · rw [if_pos ((agrees next).mpr waiting),if_pos waiting]
      exact ih agrees
    · rw [if_neg fun set => waiting ((agrees next).mp set),if_neg waiting]
      refine ih fun b => ?_
      by_cases same : b = next
      · subst same; simp
      · rw [Function.update_of_ne same,agrees b]
        simp [same]

variable [DecidableEq S]

theorem step_abstract (lawful : Lawful dfa) {s : State n S} (nodup : s.todo.Nodup) (agrees : Present s.todo s.present) :
    abstract (dfa.step s) = Worklist.step (equations lawful) (abstract s) ∧
      Present (dfa.step s).todo (dfa.step s).present := by
  cases waiting : s.todo with
  | nil =>
    have same : dfa.step s = s := by rw [IterativeDFA.step,waiting]
    rw [same,Worklist.step]
    simp only [abstract,waiting]
    exact ⟨trivial,waiting ▸ agrees⟩
  | cons bb todo =>
    have absent : bb ∉ todo := (List.nodup_cons.mp (waiting ▸ nodup)).1
    have rest : Present todo (Function.update s.present bb false) := Present.rest absent (waiting ▸ agrees)
    have queued := put_enqueue rest (dfa.forward bb)
    by_cases same : dfa.output s.outs bb = s.outs bb
    · have kept : dfa.step s =
          ⟨Function.update s.ins bb (dfa.input s.outs bb),s.outs,todo,Function.update s.present bb false⟩ := by
        rw [IterativeDFA.step,waiting]
        exact if_pos ((lawful.equals _ _).mpr same)
      have stepped : Worklist.step (equations lawful) (abstract s) = ⟨todo,s.outs⟩ := by
        rw [Worklist.step]
        simp only [abstract,waiting]
        exact if_pos same
      rw [kept,stepped]
      exact ⟨rfl,rest⟩
    · have changed : dfa.step s = ⟨Function.update s.ins bb (dfa.input s.outs bb),
          Function.update s.outs bb (dfa.output s.outs bb),
          (IterativeDFA.put todo (Function.update s.present bb false) (dfa.forward bb)).1,
          (IterativeDFA.put todo (Function.update s.present bb false) (dfa.forward bb)).2⟩ := by
        rw [IterativeDFA.step,waiting]
        exact if_neg fun equal => same ((lawful.equals _ _).mp equal)
      have stepped : Worklist.step (equations lawful) (abstract s) =
          ⟨enqueue todo (dfa.forward bb),Function.update s.outs bb (dfa.output s.outs bb)⟩ := by
        rw [Worklist.step]
        simp only [abstract,waiting]
        exact if_neg same
      rw [changed,stepped]
      refine ⟨?_,queued.2⟩
      rw [abstract,queued.1]

theorem loop_abstract (lawful : Lawful dfa) {le : S → S → Prop} {rank : S → Nat}
    (descent : Worklist.Descent (equations lawful) le rank) {s : State n S}
    (sound : Worklist.Sound (equations lawful) le (abstract s)) (agrees : Present s.todo s.present) {k : Nat}
    (ends : (Worklist.run (equations lawful) k (abstract s)).todo = []) :
    ∃ s', dfa.loop k s = some s' ∧ abstract s' = Worklist.run (equations lawful) k (abstract s) := by
  induction k generalizing s with
  | zero => exact ⟨s,if_pos ends,rfl⟩
  | succ k ih =>
    rw [Worklist.run] at ends ⊢
    rw [IterativeDFA.loop]
    by_cases done : s.todo = []
    · rw [if_pos done,if_pos (show (abstract s).todo = [] from done)]
      exact ⟨s,rfl,rfl⟩
    · rw [if_neg (show (abstract s).todo ≠ [] from done)] at ends ⊢
      rw [if_neg done]
      obtain ⟨same,agrees'⟩ := step_abstract lawful sound.nodup agrees
      rw [← same] at ends ⊢
      exact ih (same ▸ Worklist.step_sound descent sound) agrees' ends

/-- With enough turns the engine stops, and its outputs are the greatest solution of the
    equations: `empty` is above all sets. -/
theorem compute_spec (lawful : Lawful dfa) {le : S → S → Prop} {rank : S → Nat}
    (descent : Worklist.Descent (equations lawful) le rank) (top : ∀ x, le x dfa.empty) {k : Nat}
    (enough : n + n * (n * rank dfa.empty) ≤ k) :
    ∃ s, dfa.compute k = some s ∧ (∀ b, dfa.output s.outs b = s.outs b) ∧
      ∀ solution : Fin n → S, (∀ b, dfa.output solution b = solution b) → ∀ b, le (solution b) (s.outs b) := by
  have sound : Worklist.Sound (equations lawful) le (abstract dfa.init) :=
    ⟨List.nodup_finRange n,fun b absent => absurd (List.mem_finRange b) absent,fun _ => top _,fun _ _ _ => top _⟩
  have bound : Worklist.measure rank (abstract dfa.init) ≤ k := by
    simpa [Worklist.measure,abstract,IterativeDFA.init] using enough
  obtain ⟨s,computed,same⟩ := loop_abstract lawful descent sound (fun b => by simp [IterativeDFA.init])
    (Worklist.run_ends descent sound bound)
  have final := Worklist.run_keeps descent sound k
  have ended := Worklist.run_ends descent sound bound
  rw [← same] at final ended
  exact ⟨s,computed,Worklist.solution_of_ended final ended⟩

end Otawa.Dfa
