import Mathlib.Data.List.Basic
import Mathlib.Tactic.Common

/-!
Operations on a state that return, throw, fail or do not end within a bound, one
after the other and in loops. A relation that each operation keeps between the
states before and after it, returned or thrown, is kept by the whole.
-/
namespace Otawa.Outcomes

variable {S E A : Type*}

inductive Outcome (S E : Type*)
  | returned (s : S)
  | thrown (e : E) (s : S)
  | failed
  | endless

namespace Outcome

/-- An operation after another one that has returned. -/
def andThen : Outcome S E → (S → Outcome S E) → Outcome S E
  | .returned s,next => next s
  | .thrown e s,_ => .thrown e s
  | .failed,_ => .failed
  | .endless,_ => .endless

@[simp] theorem andThen_returned (s : S) (next : S → Outcome S E) : (Outcome.returned s).andThen next = next s := rfl

def Ends (p : S → Prop) : Outcome S E → Prop
  | .returned s => p s
  | .thrown _ s => p s
  | .failed => True
  | .endless => True

theorem Ends.imp {p q : S → Prop} {outcome : Outcome S E} (ends : outcome.Ends p) (weaker : ∀ s, p s → q s) : outcome.Ends q := by
  cases outcome with
  | returned s => exact weaker s ends
  | thrown e s => exact weaker s ends
  | failed => trivial
  | endless => trivial

end Outcome

def each (f : A → S → Outcome S E) : List A → S → Outcome S E
  | [],s => .returned s
  | a :: rest,s => (f a s).andThen (each f rest)

section
variable {R : S → S → Prop} {s : S} (trans : ∀ s t u, R s t → R t u → R s u)
include trans

theorem Outcome.Ends.andThen {first : Outcome S E} {next : S → Outcome S E} (ends : first.Ends (R s)) (keeps : ∀ t, R s t → (next t).Ends (R t)) :
    (first.andThen next).Ends (R s) := by
  cases first with
  | returned t => exact (keeps t ends).imp fun u => trans s t u ends
  | thrown e t => exact ends
  | failed => trivial
  | endless => trivial

/-- A relation that the body of a loop keeps, from the states that have an invariant. -/
theorem ends_each {inv : S → Prop} {f : A → S → Outcome S E} (refl : ∀ s, inv s → R s s) (kept : ∀ s t, R s t → inv t)
    (keeps : ∀ a s, inv s → (f a s).Ends (R s)) (start : inv s) (items : List A) : (each f items s).Ends (R s) := by
  induction items generalizing s with
  | nil => exact refl s start
  | cons a rest ih => exact (keeps a s start).andThen trans fun t here => ih (kept s t here)

end

/-- A loop on the items that a test takes, with an operation that always returns and does as a function on a view of the state. -/
theorem each_returns {V : Type*} (view : S → V) (model : V → A → V) {inv : S → Prop} {f : A → S → Outcome S E} {take : A → Bool}
    (skips : ∀ a s, take a = false → f a s = .returned s) (does : ∀ a s, inv s → take a = true → ∃ t, f a s = .returned t ∧ inv t ∧ view t = model (view s) a)
    {s : S} (start : inv s) (items : List A) : ∃ t, each f items s = .returned t ∧ inv t ∧ view t = (items.filter take).foldl model (view s) := by
  induction items generalizing s with
  | nil => exact ⟨s,rfl,start,rfl⟩
  | cons a rest ih =>
    cases taken : take a with
    | false =>
      rw [each,skips a s taken,Outcome.andThen_returned,List.filter_cons_of_neg (by simp [taken])]
      exact ih start
    | true =>
      obtain ⟨t,done,inv',same⟩ := does a s start taken
      rw [each,done,Outcome.andThen_returned,List.filter_cons_of_pos taken,List.foldl_cons,← same]
      exact ih inv'

end Otawa.Outcomes
