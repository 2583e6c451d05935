import Mathlib.Data.List.Basic

/-!
The growth of a `genstruct::Vector` of `elm`: its capacity doubles from 8, and the
assertion of `grow` fails when it would pass 65535, so the 32769th item is refused.
-/
namespace Otawa.GenVector

def vectorLimit : Nat := 32768

/-- `Vector::add`; `none` is the failed assertion of `grow`. -/
def add {A : Type} (v : List A) (value : A) : Option (List A) :=
  if v.length < vectorLimit then some (v ++ [value]) else none

def addAll {A : Type} (v items : List A) : Option (List A) := items.foldlM add v

theorem add_fits {A : Type} {v : List A} (room : v.length < vectorLimit) (value : A) :
    add v value = some (v ++ [value]) := if_pos room

theorem add_some {A : Type} {v r : List A} {value : A} (done : add v value = some r) :
    r = v ++ [value] ∧ r.length ≤ vectorLimit := by
  unfold add at done
  split at done
  case isTrue room =>
    cases done
    exact ⟨rfl,by rw [List.length_append]; exact room⟩
  case isFalse => cases done

theorem addAll_fits {A : Type} (v items : List A) (room : v.length + items.length ≤ vectorLimit) :
    addAll v items = some (v ++ items) := by
  induction items generalizing v with
  | nil => simp [addAll]
  | cons item items ih =>
    rw [List.length_cons] at room
    have next := ih (v ++ [item]) (by rw [List.length_append,List.length_singleton]; omega)
    rw [addAll] at next ⊢
    rw [List.foldlM_cons,add_fits (by omega)]
    simpa using next

theorem addAll_some {A : Type} {v items r : List A} (within : v.length ≤ vectorLimit)
    (done : addAll v items = some r) : r = v ++ items ∧ r.length ≤ vectorLimit := by
  induction items generalizing v with
  | nil =>
    rw [addAll,List.foldlM_nil] at done
    cases done
    exact ⟨by simp,within⟩
  | cons item items ih =>
    rw [addAll,List.foldlM_cons] at done
    obtain ⟨w,added,rest⟩ := Option.bind_eq_some_iff.mp done
    obtain ⟨same,room⟩ := add_some added
    obtain ⟨result,small⟩ := ih room rest
    exact ⟨by rw [result,same]; simp,small⟩

end Otawa.GenVector
