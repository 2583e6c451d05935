import Mathlib.Data.Option.Basic

/-!
Loops that may fail, as folds in `Option` over any states and items: what each turn
keeps, what a loop that returns has done, and when a loop returns.
-/
namespace Otawa.Folds

variable {S A : Type*} {f g : S → A → Option S} {xs : List A}

theorem foldlM_keeps (holds : S → Prop) (step : ∀ s, ∀ a ∈ xs, ∀ t, f s a = some t → holds s → holds t)
    {s t : S} (done : xs.foldlM f s = some t) (first : holds s) : holds t := by
  induction xs generalizing s with
  | nil => simp only [List.foldlM_nil,Option.pure_def,Option.some.injEq] at done; exact done ▸ first
  | cons a rest ih =>
    simp only [List.foldlM_cons,Option.bind_eq_bind,Option.bind_eq_some_iff] at done
    obtain ⟨u,one,others⟩ := done
    have second : holds u := step s a List.mem_cons_self u one first
    exact ih (fun s b member => step s b (List.mem_cons_of_mem a member)) others second

/-- A loop that ends with a flag still set has changed nothing, when a turn that leaves
    the flag set changes nothing. -/
theorem foldlM_unchanged (flag : S → Prop) {found : S → A → Prop}
    (step : ∀ s, ∀ a, ∀ t, f s a = some t → flag t → t = s ∧ found s a)
    {s t : S} (done : xs.foldlM f s = some t) (still : flag t) : t = s ∧ ∀ a ∈ xs, found s a := by
  induction xs generalizing s with
  | nil =>
    simp only [List.foldlM_nil,Option.pure_def,Option.some.injEq] at done
    exact ⟨done.symm,by simp⟩
  | cons a rest ih =>
    simp only [List.foldlM_cons,Option.bind_eq_bind,Option.bind_eq_some_iff] at done
    obtain ⟨u,one,others⟩ := done
    obtain ⟨rfl,all⟩ := ih others
    obtain ⟨rfl,here⟩ := step s a _ one still
    exact ⟨rfl,List.forall_mem_cons.mpr ⟨here,all⟩⟩

theorem foldlM_returns (holds : List A → S → Prop)
    (step : ∀ seen a rest, seen ++ a :: rest = xs → ∀ s, holds seen s → ∃ t, f s a = some t ∧ holds (seen ++ [a]) t)
    {s : S} (first : holds [] s) : ∃ t, xs.foldlM f s = some t ∧ holds xs t := by
  induction xs generalizing s holds with
  | nil => exact ⟨s,rfl,first⟩
  | cons a rest ih =>
    obtain ⟨u,one,second⟩ := step [] a rest rfl s first
    obtain ⟨t,others,last⟩ := ih (fun seen s => holds (a :: seen) s)
      (fun seen b later same s known => step (a :: seen) b later (by rw [← same,List.cons_append]) s known) second
    refine ⟨t,?_,last⟩
    simp only [List.foldlM_cons,one,Option.bind_eq_bind,Option.bind_some,others]

theorem foldlM_each (holds : S → Prop) (step : ∀ s, ∀ a ∈ xs, ∀ t, f s a = some t → holds s → holds t)
    {s t : S} (done : xs.foldlM f s = some t) (first : holds s) : ∀ a ∈ xs, ∃ u v, f u a = some v ∧ holds u := by
  induction xs generalizing s with
  | nil => exact fun _ member => nomatch member
  | cons a rest ih =>
    simp only [List.foldlM_cons,Option.bind_eq_bind,Option.bind_eq_some_iff] at done
    obtain ⟨u,one,others⟩ := done
    have second : holds u := step s a List.mem_cons_self u one first
    exact List.forall_mem_cons.mpr ⟨⟨s,u,one,first⟩,
      ih (fun s b member => step s b (List.mem_cons_of_mem a member)) others second⟩

theorem foldlM_mono (more : ∀ s, ∀ a ∈ xs, ∀ t, f s a = some t → g s a = some t)
    {s t : S} (done : xs.foldlM f s = some t) : xs.foldlM g s = some t := by
  induction xs generalizing s with
  | nil => exact done
  | cons a rest ih =>
    simp only [List.foldlM_cons,Option.bind_eq_bind,Option.bind_eq_some_iff] at done ⊢
    obtain ⟨u,one,others⟩ := done
    exact ⟨u,more s a List.mem_cons_self u one,
      ih (fun s b member => more s b (List.mem_cons_of_mem a member)) others⟩

end Otawa.Folds
