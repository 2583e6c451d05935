import Mathlib.Data.List.Basic
import Mathlib.Algebra.GroupWithZero.Nat

/-!
A state folded over the whole blocks of a sequence, over any states and items.
What does not fill a block is left over, and is the start of the next block
when more items come: the state and the rest depend on the items in all, and
not on the pieces they come in.
-/
namespace Otawa.BlockFold

variable {S α : Type*}

def absorb (compress : S → List α → S) (width : Nat) [NeZero width] (s : S) (items : List α) : S × List α :=
  if width ≤ items.length then absorb compress width (compress s (items.take width)) (items.drop width) else (s,items)
termination_by items.length
decreasing_by
  have := Nat.pos_of_neZero width
  rw [List.length_drop]
  omega

variable {compress : S → List α → S} {width : Nat} [NeZero width]

@[simp] theorem absorb_short {s : S} {items : List α} (short : items.length < width) : absorb compress width s items = (s,items) := by
  rw [absorb,if_neg (by omega)]

theorem absorb_block {s : S} {block items : List α} (full : block.length = width) :
    absorb compress width s (block ++ items) = absorb compress width (compress s block) items := by
  rw [absorb,if_pos (by simp [full])]
  simp [← full]

theorem absorb_append (s : S) (items more : List α) :
    absorb compress width s (items ++ more) = absorb compress width (absorb compress width s items).1 ((absorb compress width s items).2 ++ more) := by
  fun_induction absorb compress width s items with
  | case1 s items whole ih =>
    have full : (items.take width).length = width := by simp [whole]
    rw [← ih,← absorb_block full,← List.append_assoc,List.take_append_drop]
  | case2 s items short => rfl

theorem length_left (s : S) (items : List α) : (absorb compress width s items).2.length = items.length % width := by
  fun_induction absorb compress width s items with
  | case1 s items whole ih =>
    rw [ih,List.length_drop,Nat.mod_eq_sub_mod whole]
  | case2 s items short => exact (Nat.mod_eq_of_lt (Nat.lt_of_not_le short)).symm

end Otawa.BlockFold
