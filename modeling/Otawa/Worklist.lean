import Mathlib.Algebra.Order.BigOperators.Group.Finset
import Mathlib.Data.Fintype.Basic

/-!
Data flow equations solved with a queue. An element is computed again when an element it
depends on has changed. From a start above all solutions, with a monotone transfer and
values of finite rank, the queue gets empty and the values are the greatest solution.
-/
namespace Otawa.Worklist

variable {B S : Type*} [DecidableEq B]

structure State (B S : Type*) where
  todo : List B
  value : B → S

def enqueue (todo : List B) : List B → List B
  | [] => todo
  | b :: rest => enqueue (if b ∈ todo then todo else todo ++ [b]) rest

theorem mem_enqueue {todo added : List B} {b : B} : b ∈ enqueue todo added ↔ b ∈ todo ∨ b ∈ added := by
  induction added generalizing todo with
  | nil => simp [enqueue]
  | cons a rest ih =>
    rw [enqueue,ih]
    split
    · rename_i waiting
      simp only [List.mem_cons]
      refine ⟨fun member => member.imp_right Or.inr,?_⟩
      rintro (member | rfl | member)
      · exact Or.inl member
      · exact Or.inl waiting
      · exact Or.inr member
    · simp [or_assoc]

theorem nodup_enqueue {todo : List B} (nodup : todo.Nodup) (added : List B) : (enqueue todo added).Nodup := by
  induction added generalizing todo with
  | nil => exact nodup
  | cons a rest ih =>
    rw [enqueue]
    split
    · exact ih nodup
    · rename_i absent
      refine ih (List.nodup_append.mpr ⟨nodup,List.nodup_singleton a,?_⟩)
      rintro b member _ single rfl
      exact absent (List.mem_singleton.mp single ▸ member)

/-- The equations: what an element depends on is given the other way round. -/
structure Equations (B S : Type*) where
  transfer : (B → S) → B → S
  dependents : B → List B
  local_ : ∀ {value value' : B → S} {b : B}, (∀ p, b ∈ dependents p → value p = value' p) →
    transfer value b = transfer value' b

variable [DecidableEq S] (equations : Equations B S)

def step (s : State B S) : State B S :=
  match s.todo with
  | [] => s
  | b :: rest =>
    if equations.transfer s.value b = s.value b then { s with todo := rest }
    else ⟨enqueue rest (equations.dependents b),Function.update s.value b (equations.transfer s.value b)⟩

/-- Everything but the waiting elements satisfies its equation. -/
def Stable (s : State B S) : Prop := ∀ b, b ∉ s.todo → equations.transfer s.value b = s.value b

variable {s : State B S}

theorem step_cases {b : B} {rest : List B} (waiting : s.todo = b :: rest) :
    equations.transfer s.value b = s.value b ∧ step equations s = { s with todo := rest } ∨
      equations.transfer s.value b ≠ s.value b ∧ step equations s =
        ⟨enqueue rest (equations.dependents b),Function.update s.value b (equations.transfer s.value b)⟩ := by
  unfold step
  rw [waiting]
  by_cases same : equations.transfer s.value b = s.value b
  · exact Or.inl ⟨same,if_pos same⟩
  · exact Or.inr ⟨same,if_neg same⟩

variable {equations}

theorem step_stable (stable : Stable equations s) : Stable equations (step equations s) := by
  cases waiting : s.todo with
  | nil => rwa [step,waiting]
  | cons b rest =>
    intro c absent
    rcases step_cases equations waiting with ⟨same,next⟩ | ⟨_,next⟩
    · rw [next] at absent ⊢
      by_cases first : c = b
      · subst first; exact same
      · exact stable c (by simpa [waiting,first] using absent)
    · rw [next,mem_enqueue,not_or] at absent
      rw [next]
      -- c is not a dependent of b, so its equation did not change
      have keeps : equations.transfer (Function.update s.value b (equations.transfer s.value b)) c =
          equations.transfer s.value c := by
        refine equations.local_ fun p depends => Function.update_of_ne ?_ _ _
        rintro rfl
        exact absent.2 depends
      dsimp only
      rw [keeps]
      by_cases first : c = b
      · subst first; rw [Function.update_self]
      · rw [Function.update_of_ne first]
        exact stable c (by simpa [waiting,first] using absent.1)

/-- An order in which the transfer is monotone and values have a finite rank. -/
structure Descent (equations : Equations B S) (le : S → S → Prop) (rank : S → Nat) : Prop where
  refl : ∀ x, le x x
  trans : ∀ {x y z}, le x y → le y z → le x z
  mono : ∀ {value value' : B → S} (b : B), (∀ p, le (value p) (value' p)) →
    le (equations.transfer value b) (equations.transfer value' b)
  rank_lt : ∀ {x y}, le x y → x ≠ y → rank x < rank y

variable {le : S → S → Prop} {rank : S → Nat}

structure Descends (equations : Equations B S) (le : S → S → Prop) (s : State B S) : Prop where
  down : ∀ b, le (equations.transfer s.value b) (s.value b)
  above : ∀ solution : B → S, (∀ b, equations.transfer solution b = solution b) → ∀ b, le (solution b) (s.value b)

theorem step_descends (descent : Descent equations le rank) (descends : Descends equations le s) :
    Descends equations le (step equations s) := by
  cases waiting : s.todo with
  | nil => rwa [step,waiting]
  | cons b rest =>
    rcases step_cases equations waiting with ⟨_,next⟩ | ⟨_,next⟩
    · rw [next]; exact ⟨descends.down,descends.above⟩
    · have lower p : le (Function.update s.value b (equations.transfer s.value b) p) (s.value p) := by
        by_cases first : p = b
        · subst first; rw [Function.update_self]; exact descends.down p
        · rw [Function.update_of_ne first]; exact descent.refl _
      rw [next]
      refine ⟨fun c => ?_,fun solution solves c => ?_⟩
      · have below := descent.mono c lower
        by_cases first : c = b
        · subst first
          dsimp only
          rwa [Function.update_self]
        · dsimp only
          rw [Function.update_of_ne first]
          exact descent.trans below (descends.down c)
      · dsimp only
        by_cases first : c = b
        · subst first
          rw [Function.update_self,← solves c]
          exact descent.mono c (descends.above solution solves)
        · rw [Function.update_of_ne first]
          exact descends.above solution solves c

/-- What every state of a run satisfies. -/
structure Sound (equations : Equations B S) (le : S → S → Prop) (s : State B S) : Prop where
  nodup : s.todo.Nodup
  stable : Stable equations s
  descends : Descends equations le s

theorem step_sound (descent : Descent equations le rank) (sound : Sound equations le s) :
    Sound equations le (step equations s) := by
  refine ⟨?_,step_stable sound.stable,step_descends descent sound.descends⟩
  cases waiting : s.todo with
  | nil => rw [step,waiting]; exact sound.nodup
  | cons b rest =>
    have restNodup : rest.Nodup := (List.nodup_cons.mp (waiting ▸ sound.nodup)).2
    rcases step_cases equations waiting with ⟨_,next⟩ | ⟨_,next⟩
    · rw [next]; exact restNodup
    · rw [next]; exact nodup_enqueue restNodup _

def run (equations : Equations B S) : Nat → State B S → State B S
  | 0, s => s
  | k + 1, s => if s.todo = [] then s else run equations k (step equations s)

theorem run_keeps (descent : Descent equations le rank) (sound : Sound equations le s) (k : Nat) :
    Sound equations le (run equations k s) := by
  induction k generalizing s with
  | zero => exact sound
  | succ k ih =>
    rw [run]
    split
    · exact sound
    · exact ih (step_sound descent sound)

variable [Fintype B]

/-- Each step takes an element, or lowers a value and puts at most all elements. -/
def measure (rank : S → Nat) (s : State B S) : Nat :=
  s.todo.length + Fintype.card B * ∑ b, rank (s.value b)

theorem step_measure (descent : Descent equations le rank) (descends : Descends equations le s)
    (nodup : s.todo.Nodup) (more : s.todo ≠ []) : measure rank (step equations s) < measure rank s := by
  obtain ⟨b,rest,waiting⟩ := List.exists_cons_of_ne_nil more
  rcases step_cases equations waiting with ⟨_,next⟩ | ⟨changed,next⟩
  · rw [next]; simp [measure,waiting]
  · have less : ∑ c, rank (Function.update s.value b (equations.transfer s.value b) c) < ∑ c, rank (s.value c) := by
      have here := descent.rank_lt (descends.down b) changed
      refine Finset.sum_lt_sum (fun c _ => ?_) ⟨b,Finset.mem_univ b,by rwa [Function.update_self]⟩
      by_cases first : c = b
      · subst first; rw [Function.update_self]; exact Nat.le_of_lt here
      · rw [Function.update_of_ne first]
    have restNodup : rest.Nodup := (List.nodup_cons.mp (waiting ▸ nodup)).2
    have short := (nodup_enqueue restNodup (equations.dependents b)).length_le_card
    have scaled := Nat.mul_le_mul_left (Fintype.card B) less
    rw [Nat.mul_succ] at scaled
    rw [next,measure,measure,waiting,List.length_cons]
    dsimp only
    omega

theorem run_ends (descent : Descent equations le rank) (sound : Sound equations le s) {k : Nat}
    (enough : measure rank s ≤ k) : (run equations k s).todo = [] := by
  induction k generalizing s with
  | zero =>
    have none : s.todo.length = 0 := by unfold measure at enough; omega
    exact List.length_eq_zero_iff.mp none
  | succ k ih =>
    rw [run]
    split
    · assumption
    · rename_i more
      have less := step_measure descent sound.descends sound.nodup more
      exact ih (step_sound descent sound) (by omega)

omit [DecidableEq B] [DecidableEq S] [Fintype B] in
theorem solution_of_ended (sound : Sound equations le s) (ended : s.todo = []) :
    (∀ b, equations.transfer s.value b = s.value b) ∧
      ∀ solution : B → S, (∀ b, equations.transfer solution b = solution b) → ∀ b, le (solution b) (s.value b) :=
  ⟨fun b => sound.stable b (by simp [ended]),sound.descends.above⟩

end Otawa.Worklist
