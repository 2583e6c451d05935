import Mathlib.Algebra.Order.BigOperators.Group.List
import Mathlib.Logic.Relation
import Mathlib.Order.Bounds.Basic

/-!
Paths of a graph whose edges have weights, and the greatest weight of those that end at
a vertex and start at one of some vertices. With weights that are not negative it is
known from the values of the predecessors.
-/
namespace Otawa.LongestPaths
open Relation

variable {V E W : Type*} (edges : List E) (source target : E → V)

def IsPath (m : V) : List E → V → Prop
  | [], n => m = n
  | edge :: path, n => edge ∈ edges ∧ source edge = m ∧ IsPath (target edge) path n

def Linked (p n : V) : Prop := ∃ edge ∈ edges, source edge = p ∧ target edge = n

variable {edges source target} {m n : V} {path : List E} {edge : E}

theorem isPath_concat : IsPath edges source target m (path ++ [edge]) n ↔
    IsPath edges source target m path (source edge) ∧ edge ∈ edges ∧ target edge = n := by
  induction path generalizing m with
  | nil =>
    constructor
    · rintro ⟨member,rfl,last⟩
      exact ⟨rfl,member,last⟩
    · rintro ⟨rfl,member,last⟩
      exact ⟨member,rfl,last⟩
  | cons first path ih => simp [IsPath,ih,and_assoc]

theorem exists_isPath_iff : (∃ path, IsPath edges source target m path n) ↔ ReflTransGen (Linked edges source target) m n := by
  constructor
  · rintro ⟨path,isPath⟩
    induction path generalizing m with
    | nil => exact isPath ▸ .refl
    | cons edge path ih =>
      obtain ⟨member,rfl,rest⟩ := isPath
      exact .head ⟨edge,member,rfl,rfl⟩ (ih rest)
  · intro reaches
    induction reaches with
    | refl => exact ⟨[],rfl⟩
    | tail _ next ih =>
      obtain ⟨path,isPath⟩ := ih
      obtain ⟨edge,member,rfl,rfl⟩ := next
      exact ⟨path ++ [edge],isPath_concat.mpr ⟨isPath,member,rfl⟩⟩

section Weights
variable [AddCommMonoid W] [LinearOrder W] [IsOrderedAddMonoid W]

def weights (edges : List E) (source target : E → V) (weight : E → W) (start : V → Prop) (n : V) : Set W :=
  { w | ∃ m, start m ∧ ∃ path, IsPath edges source target m path n ∧ (path.map weight).sum = w }

/-- What is known of a vertex: whether a start vertex reaches it, and the greatest weight
    then. -/
structure Solved (edges : List E) (source target : E → V) (weight : E → W) (start : V → Prop) (n : V)
    (reached : Prop) (value : W) : Prop where
  reached_iff : reached ↔ ∃ m, start m ∧ ReflTransGen (Linked edges source target) m n
  greatest : reached → IsGreatest (weights edges source target weight start n) value

variable {weight : E → W} {start : V → Prop} {w : W}

omit [LinearOrder W] [IsOrderedAddMonoid W] in
theorem weights_concat (member : edge ∈ edges) (known : w ∈ weights edges source target weight start (source edge)) :
    w + weight edge ∈ weights edges source target weight start (target edge) := by
  obtain ⟨m,starts,path,isPath,rfl⟩ := known
  exact ⟨m,starts,path ++ [edge],isPath_concat.mpr ⟨isPath,member,rfl⟩,by simp⟩

omit [LinearOrder W] [IsOrderedAddMonoid W] in
theorem mem_weights_iff : w ∈ weights edges source target weight start n ↔ (start n ∧ w = 0) ∨
    ∃ edge ∈ edges, target edge = n ∧ ∃ v ∈ weights edges source target weight start (source edge), v + weight edge = w := by
  constructor
  · rintro ⟨m,starts,path,isPath,rfl⟩
    rcases List.eq_nil_or_concat' path with rfl | ⟨path,edge,rfl⟩
    · exact Or.inl ⟨(show m = n from isPath) ▸ starts,by simp⟩
    · obtain ⟨before,member,last⟩ := isPath_concat.mp isPath
      exact Or.inr ⟨edge,member,last,_,⟨m,starts,path,before,rfl⟩,by simp⟩
  · rintro (⟨starts,rfl⟩ | ⟨edge,member,rfl,v,known,rfl⟩)
    · exact ⟨n,starts,[],rfl,by simp⟩
    · exact weights_concat member known

omit [LinearOrder W] [IsOrderedAddMonoid W] in
theorem exists_reaches (known : w ∈ weights edges source target weight start n) :
    ∃ m, start m ∧ ReflTransGen (Linked edges source target) m n := by
  obtain ⟨m,starts,path,isPath,_⟩ := known
  exact ⟨m,starts,exists_isPath_iff.mp ⟨path,isPath⟩⟩

theorem IsPath.subset (isPath : IsPath edges source target m path n) : path ⊆ edges := by
  induction path generalizing m with
  | nil => exact List.nil_subset _
  | cons edge path ih => exact List.cons_subset.mpr ⟨isPath.1,ih isPath.2.2⟩

theorem weights_nonneg (nonneg : ∀ edge ∈ edges, 0 ≤ weight edge) (known : w ∈ weights edges source target weight start n) : 0 ≤ w := by
  obtain ⟨m,_,path,isPath,rfl⟩ := known
  refine List.sum_nonneg fun v member => ?_
  obtain ⟨edge,inside,rfl⟩ := List.mem_map.mp member
  exact nonneg edge (isPath.subset inside)

theorem Solved.of_predecessors {now : Prop} {v : W} (reached : V → Prop) (value : V → W) (nonneg : ∀ edge ∈ edges, 0 ≤ weight edge)
    (before : ∀ edge ∈ edges, target edge = n →
      Solved edges source target weight start (source edge) (reached (source edge)) (value (source edge)))
    (now_iff : now ↔ start n ∨ ∃ edge ∈ edges, target edge = n ∧ reached (source edge))
    (greatest : IsGreatest (insert 0 { w | ∃ edge ∈ edges, target edge = n ∧ reached (source edge) ∧
      value (source edge) + weight edge = w }) v) :
    Solved edges source target weight start n now v where
  reached_iff := by
    rw [now_iff]
    constructor
    · rintro (starts | ⟨edge,member,last,reached⟩)
      · exact ⟨n,starts,.refl⟩
      · obtain ⟨m,starts,reaches⟩ := (before edge member last).reached_iff.mp reached
        exact ⟨m,starts,reaches.tail ⟨edge,member,rfl,last⟩⟩
    · rintro ⟨m,starts,reaches⟩
      rcases reaches.cases_tail with rfl | ⟨p,reaches,edge,member,rfl,last⟩
      · exact Or.inl starts
      · exact Or.inr ⟨edge,member,last,(before edge member last).reached_iff.mpr ⟨m,starts,reaches⟩⟩
  greatest := by
    intro here
    obtain ⟨attained,above⟩ := greatest
    refine ⟨?_,fun w known => ?_⟩
    · rw [mem_weights_iff]
      rcases attained with rfl | ⟨edge,member,last,reached,rfl⟩
      · -- a predecessor that is reached gives no more than 0
        rcases now_iff.mp here with starts | ⟨edge,member,last,reached⟩
        · exact Or.inl ⟨starts,rfl⟩
        · have known := ((before edge member last).greatest reached).1
          have less : value (source edge) + weight edge ≤ 0 := above (Or.inr ⟨edge,member,last,reached,rfl⟩)
          have more : 0 ≤ value (source edge) + weight edge := add_nonneg (weights_nonneg nonneg known) (nonneg edge member)
          exact Or.inr ⟨edge,member,last,_,known,le_antisymm less more⟩
      · exact Or.inr ⟨edge,member,last,_,((before edge member last).greatest reached).1,rfl⟩
    · rcases mem_weights_iff.mp known with ⟨_,rfl⟩ | ⟨edge,member,last,v,first,rfl⟩
      · exact above (Or.inl rfl)
      · have solved := before edge member last
        have reached := solved.reached_iff.mpr (exists_reaches first)
        calc v + weight edge ≤ value (source edge) + weight edge := add_le_add_left ((solved.greatest reached).2 first) _
          _ ≤ _ := above (Or.inr ⟨edge,member,last,reached,rfl⟩)

end Weights

section Relax
variable [LinearOrder W]

def relax (reached : Bool) (delay : W) (now : Bool × W) : Bool × W :=
  if reached then (true,if now.2 < delay then delay else now.2) else now

theorem relax_idem (reached : Bool) (delay : W) (now : Bool × W) : relax reached delay (relax reached delay now) = relax reached delay now := by
  cases reached with
  | false => rfl
  | true => by_cases less : now.2 < delay <;> simp [relax,less]

private theorem isGreatest_insert_max {a b v : W} {s : Set W} (greatest : IsGreatest (insert (max a b) s) v) :
    IsGreatest (insert a (insert b s)) v := by
  obtain ⟨attained,above⟩ := greatest
  have bound := max_le_iff.mp (above (Set.mem_insert _ _))
  refine ⟨?_,?_⟩
  · rcases attained with rfl | member
    · rcases max_choice a b with same | same <;> simp [same]
    · exact Or.inr (Or.inr member)
  · rintro w (rfl | rfl | member)
    · exact bound.1
    · exact bound.2
    · exact above (Or.inr member)

theorem foldl_relax (reached : E → Bool) (delay : E → W) (incoming : List E) (now : Bool × W) :
    let after := incoming.foldl (fun now edge => relax (reached edge) (delay edge) now) now
    (after.1 = true ↔ now.1 = true ∨ ∃ edge ∈ incoming, reached edge = true) ∧
    IsGreatest (insert now.2 { w | ∃ edge ∈ incoming, reached edge = true ∧ delay edge = w }) after.2 := by
  induction incoming generalizing now with
  | nil => simp [IsGreatest,upperBounds]
  | cons edge incoming ih =>
    obtain ⟨reached_iff,greatest⟩ := ih (relax (reached edge) (delay edge) now)
    refine ⟨reached_iff.trans ?_,?_⟩
    · cases known : reached edge <;> simp [relax,known]
    · cases known : reached edge with
      | false =>
        have same : { w | ∃ e ∈ edge :: incoming, reached e = true ∧ delay e = w } =
            { w | ∃ e ∈ incoming, reached e = true ∧ delay e = w } := by ext; simp [known]
        rw [known] at greatest
        rw [same,List.foldl_cons,known]
        exact greatest
      | true =>
        have first : { w | ∃ e ∈ edge :: incoming, reached e = true ∧ delay e = w } =
            insert (delay edge) { w | ∃ e ∈ incoming, reached e = true ∧ delay e = w } := by
          ext w
          simp [known,@eq_comm _ w]
        have best : (relax true (delay edge) now).2 = max now.2 (delay edge) := (max_def_lt _ _).symm
        rw [known,best] at greatest
        rw [first,List.foldl_cons,known]
        exact isGreatest_insert_max greatest

end Relax

end Otawa.LongestPaths
