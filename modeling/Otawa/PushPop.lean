import Mathlib.Data.List.Basic

/-!
Items that are pushed on a stack and items that pop the last one pushed, over
any items: what survives of a sequence is found from its end, with the count of
the pops that nothing has matched yet. Two ways of choosing the items that are
pushed are compared.
-/
namespace Otawa.PushPop

variable {α : Type*}

/-- The stack, with its top at the end, after an item; an empty stack stays so when it is popped. -/
def step (pops pushes : α → Bool) (stack : List α) (a : α) : List α :=
  if pops a then stack.dropLast else if pushes a then stack ++ [a] else stack

/-- The pops of a sequence that pop what was there before it. -/
def unmatched (pops pushes : α → Bool) : List α → Nat
  | [] => 0
  | a :: rest => if pops a then unmatched pops pushes rest + 1 else if pushes a then unmatched pops pushes rest - 1 else unmatched pops pushes rest

/-- The items of a sequence that are pushed and not popped. -/
def survivors (pops pushes : α → Bool) : List α → List α
  | [] => []
  | a :: rest =>
    if pops a = false ∧ pushes a = true ∧ unmatched pops pushes rest = 0 then a :: survivors pops pushes rest else survivors pops pushes rest

variable {pops pushes more : α → Bool}

theorem foldl_step (stack items : List α) :
    items.foldl (step pops pushes) stack = stack.take (stack.length - unmatched pops pushes items) ++ survivors pops pushes items := by
  induction items generalizing stack with
  | nil => simp [unmatched,survivors]
  | cons a rest ih =>
    rw [List.foldl_cons,ih,step,unmatched,survivors]
    by_cases pop : pops a
    · simp only [pop,if_true,Bool.true_eq_false,false_and,if_false]
      rw [List.dropLast_eq_take,List.length_take,List.take_take]
      congr 2
      omega
    · by_cases push : pushes a
      · simp only [pop,push,if_true,if_false,Bool.false_eq_true,true_and]
        by_cases kept : unmatched pops pushes rest = 0
        · rw [if_pos kept,kept,Nat.sub_zero,Nat.sub_zero,List.take_length,List.take_length,List.append_assoc]
          rfl
        · rw [if_neg kept,List.take_append_of_le_length (by rw [List.length_append,List.length_singleton]; omega),
            List.length_append,List.length_singleton]
          congr 2
          omega
      · simp only [pop,push,if_false,Bool.false_eq_true,false_and,and_false]

theorem mem_survivors {a : α} {items : List α} (member : a ∈ survivors pops pushes items) : a ∈ items ∧ pops a = false ∧ pushes a = true := by
  induction items with
  | nil => simp [survivors] at member
  | cons b rest ih =>
    rw [survivors] at member
    split at member
    next kept =>
      rcases List.mem_cons.mp member with rfl | later
      · exact ⟨List.mem_cons_self,kept.1,kept.2.1⟩
      · exact ⟨List.mem_cons_of_mem b (ih later).1,(ih later).2⟩
    next gone => exact ⟨List.mem_cons_of_mem b (ih member).1,(ih member).2⟩

theorem foldl_pushed {items : List α} (pushed : ∀ a ∈ items, pops a = false ∧ pushes a = true) (stack : List α) :
    items.foldl (step pops pushes) stack = stack ++ items := by
  induction items generalizing stack with
  | nil => simp
  | cons a rest ih =>
    obtain ⟨pop,push⟩ := pushed a List.mem_cons_self
    rw [List.foldl_cons,ih fun b member => pushed b (List.mem_cons_of_mem a member),step,pop,push]
    simp

theorem unmatched_le (pops : α → Bool) (wider : ∀ a, pushes a = true → more a = true) (items : List α) :
    unmatched pops more items ≤ unmatched pops pushes items := by
  induction items with
  | nil => exact Nat.le_refl 0
  | cons a rest ih =>
    have := wider a
    rw [unmatched,unmatched]
    split
    next => omega
    next =>
      by_cases push : pushes a = true
      · rw [if_pos push,if_pos (wider a push)]
        omega
      · rw [if_neg push]
        split <;> omega

/-- Each item that is pushed survives in both ways or in none. -/
def Matched (pops pushes more : α → Bool) : List α → Prop
  | [] => True
  | a :: rest =>
    (pops a = false → more a = true → unmatched pops more rest = 0 → pushes a = true ∧ unmatched pops pushes rest = 0) ∧
      Matched pops pushes more rest

theorem survivors_sublist (pops : α → Bool) (wider : ∀ a, pushes a = true → more a = true) (items : List α) :
    (survivors pops pushes items).Sublist (survivors pops more items) := by
  induction items with
  | nil => exact List.Sublist.refl _
  | cons a rest ih =>
    have fewer := unmatched_le pops wider rest
    rw [survivors,survivors]
    by_cases kept : pops a = false ∧ pushes a = true ∧ unmatched pops pushes rest = 0
    · rw [if_pos kept,if_pos ⟨kept.1,wider a kept.2.1,by omega⟩]
      exact ih.cons_cons a
    · rw [if_neg kept]
      split
      · exact ih.cons a
      · exact ih

theorem survivors_eq_iff (pops : α → Bool) (wider : ∀ a, pushes a = true → more a = true) (items : List α) :
    survivors pops more items = survivors pops pushes items ↔ Matched pops pushes more items := by
  induction items with
  | nil => simp [survivors,Matched]
  | cons a rest ih =>
    have fewer := unmatched_le pops wider rest
    rw [survivors,survivors,Matched,← ih]
    by_cases kept : pops a = false ∧ more a = true ∧ unmatched pops more rest = 0
    · rw [if_pos kept]
      by_cases both : pushes a = true ∧ unmatched pops pushes rest = 0
      · rw [if_pos ⟨kept.1,both⟩,List.cons_inj_right]
        exact ⟨fun same => ⟨fun _ _ _ => both,same⟩,And.right⟩
      · rw [if_neg fun all => both all.2]
        refine ⟨fun same => ?_,fun ⟨matched,_⟩ => absurd (matched kept.1 kept.2.1 kept.2.2) both⟩
        have longer := (survivors_sublist pops wider rest).length_le
        have lengths := congrArg List.length same
        rw [List.length_cons] at lengths
        omega
    · have none : ¬(pops a = false ∧ pushes a = true ∧ unmatched pops pushes rest = 0) :=
        fun ⟨pop,push,zero⟩ => kept ⟨pop,wider a push,by omega⟩
      rw [if_neg kept,if_neg none]
      exact ⟨fun same => ⟨fun pop push zero => absurd ⟨pop,push,zero⟩ kept,same⟩,And.right⟩

end Otawa.PushPop
