import Mathlib.Data.List.Basic
import Mathlib.Tactic.Common

/-!
Lists of items with keys, whose items of one key make a stack. A look-up may move
the first item of a key to the front of the list: no stack changes, and what is
left of a stack after one of its items is the same.
-/
namespace Otawa.KeyedStacks

variable {A K : Type*} [DecidableEq K] (key : A → K)

def stack (k : K) (l : List A) : List A := l.filter fun x => key x = k

section
variable {key} {k k' : K} {before after l : List A} {x y : A}

@[simp] theorem stack_append : stack key k (before ++ after) = stack key k before ++ stack key k after := List.filter_append ..

theorem stack_cons : stack key k (x :: l) = if key x = k then x :: stack key k l else stack key k l := by
  simp [stack,List.filter_cons]

@[simp] theorem stack_cons_self : stack key (key x) (x :: l) = x :: stack key (key x) l := by simp [stack_cons]

theorem mem_stack : x ∈ stack key k l ↔ x ∈ l ∧ key x = k := by simp [stack]

theorem stack_eq_nil (absent : ∀ x ∈ l, key x ≠ k) : stack key k l = [] := by
  rw [stack,List.filter_eq_nil_iff]
  simpa using absent

theorem find?_first (first : ∀ b ∈ before, key b ≠ key x) : (before ++ x :: after).find? (fun y => key y = key x) = some x := by
  have none : before.find? (fun y => key y = key x) = none := by
    rw [List.find?_eq_none]
    simpa using first
  rw [List.find?_append,none,Option.none_or,List.find?_cons_of_pos (by simp)]

theorem head?_stack : (stack key k l).head? = l.find? fun x => key x = k := List.head?_filter

theorem stack_pop (first : ∀ b ∈ before, key b ≠ key x) :
    stack key k (before ++ after) = if k = key x then (stack key k (before ++ x :: after)).tail else stack key k (before ++ x :: after) := by
  by_cases same : k = key x
  · subst same
    simp [stack_eq_nil first]
  · simp [stack_cons,same,Ne.symm same]

theorem stack_front (first : ∀ b ∈ before, key b ≠ key x) : stack key k (x :: (before ++ after)) = stack key k (before ++ x :: after) := by
  by_cases same : k = key x
  · subst same
    simp [stack_eq_nil first]
  · simp [stack_cons,Ne.symm same]

theorem stack_clear : stack key k (l.filter fun x => key x ≠ k') = if k = k' then [] else stack key k l := by
  rw [stack,List.filter_filter]
  by_cases same : k = k'
  · subst same
    simp
  · rw [if_neg same,stack]
    refine List.filter_congr fun x _ => ?_
    by_cases here : key x = k
    · simp [here,same]
    · simp [here]

theorem left_front {earlier later : List A} (first : ∀ b ∈ before, key b ≠ key x) (split : before ++ x :: after = earlier ++ y :: later) :
    ∃ earlier' later', x :: (before ++ after) = earlier' ++ y :: later' ∧ stack key (key y) later' = stack key (key y) later := by
  rcases List.append_eq_append_iff.mp split with ⟨middle,rfl,eq⟩ | ⟨middle,rfl,eq⟩
  · -- the item is not before the one that moves
    cases middle with
    | nil =>
      obtain ⟨rfl,rfl⟩ := List.cons.inj eq
      exact ⟨[],before ++ after,rfl,by simp [stack_eq_nil first]⟩
    | cons z middle =>
      obtain ⟨rfl,rfl⟩ := List.cons.inj eq
      exact ⟨x :: (before ++ middle),later,by simp,rfl⟩
  · cases middle with
    | nil =>
      obtain ⟨rfl,rfl⟩ := List.cons.inj eq
      exact ⟨[],earlier ++ later,by simp,by simp [stack_eq_nil (show ∀ b ∈ earlier, key b ≠ key y by simpa using first)]⟩
    | cons z middle =>
      obtain ⟨rfl,rfl⟩ := List.cons.inj eq
      have other : key x ≠ key y := (first y (by simp)).symm
      exact ⟨x :: earlier,middle ++ after,by simp,by simp [stack_cons,other]⟩

end

end Otawa.KeyedStacks
