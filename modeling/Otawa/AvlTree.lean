import Mathlib.Data.List.Sort
import Mathlib.Order.Lattice

/-!
AVL trees with a balance field in each node: the height of the right subtree minus that
of the left one. A node is seen from either side, so that a rotation is written once; a
path from the root is a list of frames, the deepest one first.
-/
namespace Otawa.Avl

universe u
variable {α : Type u}

/-- `AbstractTree::Node`, with the item of `GenTree::Node`. -/
inductive Tree (α : Type u) where
  | leaf
  | node (left : Tree α) (balance : Int) (data : α) (right : Tree α)

/-- The change of a balance field when the subtree at a link gets higher. -/
def sign (dir : Bool) : Int := if dir then 1 else -1

namespace Tree

/-- The node whose link of index `dir` is `near`. -/
def make (dir : Bool) (near : Tree α) (balance : Int) (data : α) (far : Tree α) : Tree α :=
  if dir then node far balance data near else node near balance data far

/-- A node seen from the link of index `dir`. -/
def view (dir : Bool) : Tree α → Option (Tree α × Int × α × Tree α)
  | leaf => none
  | node l b x r => some (if dir then (r,b,x,l) else (l,b,x,r))

def height : Tree α → Nat
  | leaf => 0
  | node l _ _ r => max l.height r.height + 1

/-- The items from the leftmost to the rightmost one. -/
def items : Tree α → List α
  | leaf => []
  | node l _ x r => l.items ++ x :: r.items

/-- Each balance field is right and lies in {-1,0,1}. -/
def Balanced : Tree α → Prop
  | leaf => True
  | node l b _ r => l.Balanced ∧ r.Balanced ∧ b = r.height - l.height ∧ -1 ≤ b ∧ b ≤ 1

section Sides
variable {dir : Bool} {near far : Tree α} {b : Int} {x : α} {t : Tree α}

theorem eq_leaf_or_make (dir : Bool) (t : Tree α) : t = leaf ∨ ∃ near b x far, t = make dir near b x far := by
  cases t with
  | leaf => exact .inl rfl
  | node l b x r => cases dir with
    | false => exact .inr ⟨l,b,x,r,rfl⟩
    | true => exact .inr ⟨r,b,x,l,rfl⟩

@[simp] theorem view_make : (make dir near b x far).view dir = some (near,b,x,far) := by cases dir <;> rfl
@[simp] theorem view_leaf : (leaf : Tree α).view dir = none := rfl
@[simp] theorem height_leaf : (leaf : Tree α).height = 0 := rfl
@[simp] theorem items_leaf : (leaf : Tree α).items = [] := rfl
@[simp] theorem balanced_leaf : (leaf : Tree α).Balanced := trivial

@[simp] theorem height_make : (make dir near b x far).height = max near.height far.height + 1 := by
  cases dir with
  | false => rfl
  | true => exact congrArg (· + 1) (max_comm _ _)

@[simp] theorem balanced_make :
    (make dir near b x far).Balanced ↔
      near.Balanced ∧ far.Balanced ∧ b = sign dir * (near.height - far.height) ∧ -1 ≤ b ∧ b ≤ 1 := by
  cases dir with
  | false =>
    simp only [make,Balanced,sign,Bool.false_eq_true,if_false]
    refine and_congr_right fun _ => and_congr_right fun _ => and_congr_left fun _ => ?_
    omega
  | true => simp [make,Balanced,sign,and_left_comm]

theorem items_make : (make dir near b x far).items =
    if dir then far.items ++ x :: near.items else near.items ++ x :: far.items := by
  cases dir <;> rfl

theorem eq_leaf_of_height (low : t.height = 0) : t = leaf := by
  cases t with
  | leaf => rfl
  | node => simp [height] at low

end Sides

/-- Rotate at `x` then at `y`: the grandchild `w` takes the place of `y`, whose link of
    index `dir` is `x`. -/
def rotateTwice (dir : Bool) (xNear : Tree α) (xData : α) (w : Tree α) (yData : α) (yFar : Tree α) :
    Option (Tree α) :=
  (w.view dir).map fun (wNear,wBalance,wData,wFar) =>
    let xBalance := if wBalance = sign dir then 0 else if wBalance = 0 then 0 else sign dir
    let yBalance := if wBalance = sign dir then -sign dir else 0
    make dir (make dir xNear xBalance xData wNear) 0 wData (make dir wFar yBalance yData yFar)

section Rotations
variable {dir : Bool} {xNear xFar yFar w : Tree α} {xData yData : α} {b b' b'' b''' : Int}

theorem items_rotate : (make dir xNear b xData (make dir xFar b' yData yFar)).items =
    (make dir (make dir xNear b'' xData xFar) b''' yData yFar).items := by
  cases dir <;> simp [items_make]

variable (dir xData yData) in
theorem rotateTwice_spec (balancedX : xNear.Balanced) (balancedW : w.Balanced) (balancedY : yFar.Balanced)
    (sameX : xNear.height = yFar.height) (higher : w.height = yFar.height + 1) (b b' : Int) :
    ∃ t, rotateTwice dir xNear xData w yData yFar = some t ∧ t.Balanced ∧ t.height = yFar.height + 2 ∧
      t.items = (make dir (make dir xNear b xData w) b' yData yFar).items := by
  rcases eq_leaf_or_make dir w with rfl | ⟨wNear,wBalance,wData,wFar,rfl⟩
  · simp at higher
  · obtain ⟨balancedN,balancedF,field,low,high⟩ := balanced_make.mp balancedW
    rw [height_make] at higher
    refine ⟨_,by rw [rotateTwice,view_make]; rfl,?_,?_,?_⟩
    · simp only [balanced_make,height_make,balancedX,balancedN,balancedF,balancedY,true_and]
      cases dir <;> simp only [sign,Bool.false_eq_true,if_true,if_false] at field ⊢ <;>
        rcases (by omega : wBalance = -1 ∨ wBalance = 0 ∨ wBalance = 1) with rfl | rfl | rfl <;> simp <;> omega
    · simp only [height_make]
      omega
    · cases dir <;> simp [items_make]

end Rotations
end Tree

/-- A node of a path: the link taken, its fields and the other subtree. -/
structure Frame (α : Type u) where
  dir : Bool
  balance : Int
  data : α
  sibling : Tree α

/-- The subtree below a frame put back in its node. -/
def Frame.attach (f : Frame α) (t : Tree α) : Tree α := Tree.make f.dir t f.balance f.data f.sibling

/-- The whole tree around a subtree. -/
def plug : List (Frame α) → Tree α → Tree α
  | [],t => t
  | f :: above,t => plug above (f.attach t)

section Paths
variable {above path : List (Frame α)} {t t' : Tree α}

@[simp] theorem plug_nil : plug [] t = t := rfl
@[simp] theorem plug_cons {f : Frame α} : plug (f :: above) t = plug above (f.attach t) := rfl

theorem plug_append : plug (path ++ above) t = plug above (plug path t) := by
  induction path generalizing t with
  | nil => rfl
  | cons f path ih => exact ih

theorem items_plug (above : List (Frame α)) :
    ∃ before after, ∀ t : Tree α, (plug above t).items = before ++ t.items ++ after := by
  induction above with
  | nil => exact ⟨[],[],by simp⟩
  | cons f above ih =>
    obtain ⟨before,after,around⟩ := ih
    cases side : f.dir with
    | false =>
      refine ⟨before,f.data :: f.sibling.items ++ after,fun t => ?_⟩
      simp [around,Frame.attach,Tree.items_make,side]
    | true =>
      refine ⟨before ++ f.sibling.items ++ [f.data],after,fun t => ?_⟩
      simp [around,Frame.attach,Tree.items_make,side]

theorem balanced_of_plug (balanced : (plug above t).Balanced) : t.Balanced := by
  induction above generalizing t with
  | nil => exact balanced
  | cons f above ih => exact (Tree.balanced_make.mp (ih balanced)).1

theorem balanced_plug (balanced : (plug above t).Balanced) (balanced' : t'.Balanced) (same : t'.height = t.height) :
    (plug above t').Balanced ∧ (plug above t').height = (plug above t).height := by
  induction above generalizing t t' with
  | nil => exact ⟨balanced',same⟩
  | cons f above ih =>
    obtain ⟨_,balancedF,field,range⟩ := Tree.balanced_make.mp (balanced_of_plug (t := f.attach t) balanced)
    refine ih balanced (Tree.balanced_make.mpr ⟨balanced',balancedF,same ▸ field,range⟩) ?_
    rw [Frame.attach,Frame.attach,Tree.height_make,Tree.height_make,same]

end Paths
end Otawa.Avl
