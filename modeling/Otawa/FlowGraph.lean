import Mathlib.Algebra.GroupWithZero.Nat
import Mathlib.Logic.Relation
import Mathlib.Tactic.ByContra

/-!
Rooted directed graphs: paths from the root, dominance and natural loops. Dominance is a
partial order on the reachable vertices and the dominators of a vertex form a chain;
natural loops with different headers are nested or disjoint.
-/
namespace Otawa.FlowGraph

variable {V : Type*} (edge : V → V → Prop) (root : V)

inductive Path : List V → V → Prop
  | root : Path [root] root
  | step {visited : List V} {a b : V} (path : Path visited a) (next : edge a b) : Path (b :: visited) b

def Reachable (b : V) : Prop := ∃ visited, Path edge root visited b

def Dominates (a b : V) : Prop := ∀ visited, Path edge root visited b → a ∈ visited

variable {edge root} {a b c : V} {visited : List V}

theorem Path.mem_last (path : Path edge root visited b) : b ∈ visited := by
  cases path <;> simp

theorem Path.upTo (path : Path edge root visited b) (member : a ∈ visited) :
    ∃ shorter, Path edge root shorter a ∧ shorter <:+ visited ∧ (a ≠ b → shorter.length < visited.length) := by
  induction path with
  | root =>
    obtain rfl := List.mem_singleton.mp member
    exact ⟨_,.root,List.suffix_refl _,fun differ => absurd rfl differ⟩
  | @step before p b path next ih =>
    rcases List.mem_cons.mp member with rfl | member
    · exact ⟨_,path.step next,List.suffix_refl _,fun differ => absurd rfl differ⟩
    · obtain ⟨shorter,found,suffix,_⟩ := ih member
      exact ⟨shorter,found,suffix.trans (List.suffix_cons ..),fun _ => Nat.lt_succ_of_le suffix.length_le⟩

theorem Path.reachable (path : Path edge root visited b) (member : a ∈ visited) : Reachable edge root a :=
  (path.upTo member).imp fun _ found => found.1

theorem reachable_root : Reachable edge root root := ⟨_,.root⟩

theorem Reachable.step (reachable : Reachable edge root a) (next : edge a b) : Reachable edge root b :=
  reachable.elim fun _ path => ⟨_,path.step next⟩

theorem dominates_refl (b : V) : Dominates edge root b b := fun _ path => path.mem_last

theorem Dominates.trans (first : Dominates edge root a b) (second : Dominates edge root b c) :
    Dominates edge root a c := by
  intro visited path
  obtain ⟨shorter,found,suffix,_⟩ := path.upTo (second visited path)
  exact suffix.subset (first shorter found)

theorem Dominates.reachable (dom : Dominates edge root a b) (reachable : Reachable edge root b) :
    Reachable edge root a :=
  reachable.elim fun visited path => path.reachable (dom visited path)

theorem Dominates.antisymm (reachable : Reachable edge root b) (first : Dominates edge root a b)
    (second : Dominates edge root b a) : a = b := by
  obtain ⟨visited,path⟩ := reachable
  by_contra differ
  induction length : visited.length using Nat.strongRecOn generalizing visited with
  | _ n ih =>
    -- back and forth along one path: each turn takes a shorter one
    obtain ⟨toA,pathA,_,lessA⟩ := path.upTo (first visited path)
    obtain ⟨toB,pathB,_,lessB⟩ := pathA.upTo (second toA pathA)
    have less1 := lessA differ
    have less2 := lessB (Ne.symm differ)
    exact ih toB.length (by omega) toB pathB rfl

/-- Two vertices that do not dominate one another are avoided one at a time. -/
private theorem avoid_one {p q : List V} (pathA : Path edge root p a) (avoidB : b ∉ p)
    (pathB : Path edge root q b) (avoidA : a ∉ q) (path : Path edge root visited c) :
    ∃ other, Path edge root other c ∧ (a ∉ other ∨ b ∉ other) := by
  induction path with
  | root =>
    by_cases same : a = root
    · subst same; exact ⟨p,pathA,Or.inr avoidB⟩
    · exact ⟨[root],.root,Or.inl (by simpa using same)⟩
  | @step before d c path next ih =>
    by_cases sameA : a = c
    · subst sameA; exact ⟨p,pathA,Or.inr avoidB⟩
    · by_cases sameB : b = c
      · subst sameB; exact ⟨q,pathB,Or.inl avoidA⟩
      · obtain ⟨other,found,avoid⟩ := ih
        refine ⟨c :: other,found.step next,?_⟩
        simpa [sameA,sameB] using avoid

theorem Dominates.total (reachable : Reachable edge root c) (first : Dominates edge root a c)
    (second : Dominates edge root b c) : Dominates edge root a b ∨ Dominates edge root b a := by
  by_contra none
  simp only [Dominates,not_or,not_forall] at none
  obtain ⟨⟨q,pathB,avoidA⟩,⟨p,pathA,avoidB⟩⟩ := none
  obtain ⟨visited,path⟩ := reachable
  obtain ⟨other,found,avoid⟩ := avoid_one pathA avoidB pathB avoidA path
  rcases avoid with avoid | avoid
  · exact avoid (first other found)
  · exact avoid (second other found)

/-- A set of vertices with the root that is only left through a. -/
theorem dominates_of_cut {p : V → Prop} (start : p root) (closed : ∀ x y, p x → edge x y → y ≠ a → p y)
    (outside : ¬ p b) : Dominates edge root a b := by
  intro visited path
  have inside {visited : List V} {c : V} (path : Path edge root visited c) (avoids : a ∉ visited) : p c := by
    induction path with
    | root => exact start
    | step path next ih =>
      rw [List.mem_cons,not_or] at avoids
      exact closed _ _ (ih avoids.2) next (Ne.symm avoids.1)
  by_contra avoids
  exact outside (inside path avoids)

/-- Dominance by the predecessors, the equation that data flow solves. -/
theorem dominates_iff : Dominates edge root a b ↔ a = b ∨ b ≠ root ∧ ∀ p, edge p b → Dominates edge root a p := by
  constructor
  · intro dom
    by_cases same : a = b
    · exact Or.inl same
    · refine Or.inr ⟨?_,fun p next visited path => ?_⟩
      · rintro rfl
        exact same (List.mem_singleton.mp (dom _ .root))
      · exact (List.mem_cons.mp (dom _ (path.step next))).resolve_left same
  · rintro (rfl | ⟨inner,before⟩) visited path
    · exact path.mem_last
    · cases path with
      | root => exact absurd rfl inner
      | step path next => exact List.mem_cons_of_mem _ (before _ next _ path)

theorem Dominates.pred (dom : Dominates edge root a b) (differ : a ≠ b) (next : edge c b) : Dominates edge root a c :=
  ((dominates_iff.mp dom).resolve_left differ).2 c next

variable (edge root)

def BackEdge (s h : V) : Prop := edge s h ∧ Dominates edge root h s

/-- The natural loop of h without its header: what reaches the source of a back edge to
    h and does not go through h. -/
inductive Body (h : V) : V → Prop
  | latch {s : V} (back : BackEdge edge root s h) (differ : s ≠ h) : Body h s
  | step {b c : V} (next : edge b c) (inside : Body h c) (differ : b ≠ h) : Body h b

def Header (h : V) : Prop := ∃ s, BackEdge edge root s h

def InLoop (h b : V) : Prop := Header edge root h ∧ (b = h ∨ Body edge root h b)

variable {edge root} {h h1 h2 : V}

theorem Body.ne (body : Body edge root h b) : b ≠ h := by
  cases body <;> assumption

theorem Body.header (body : Body edge root h b) : Header edge root h := by
  induction body with
  | latch back => exact ⟨_,back⟩
  | step _ _ _ ih => exact ih

theorem Body.dominates (body : Body edge root h b) : Dominates edge root h b := by
  induction body with
  | latch back => exact back.2
  | step next inside _ ih =>
    intro visited path
    exact (List.mem_cons.mp (ih _ (path.step next))).resolve_left (Ne.symm inside.ne)

theorem body_iff : Body edge root h b ↔ BackEdge edge root b h ∧ b ≠ h ∨ (∃ c, edge b c ∧ Body edge root h c) ∧ b ≠ h := by
  constructor
  · rintro (⟨back,differ⟩ | ⟨next,inside,differ⟩)
    · exact Or.inl ⟨back,differ⟩
    · exact Or.inr ⟨⟨_,next,inside⟩,differ⟩
  · rintro (⟨back,differ⟩ | ⟨⟨c,next,inside⟩,differ⟩)
    · exact .latch back differ
    · exact .step next inside differ

theorem Body.inLoop (body : Body edge root h b) : InLoop edge root h b := ⟨body.header,Or.inr body⟩

theorem InLoop.dominates (inside : InLoop edge root h b) : Dominates edge root h b := by
  rcases inside.2 with rfl | body
  · exact dominates_refl b
  · exact body.dominates

theorem InLoop.body (inside : InLoop edge root h b) (differ : b ≠ h) : Body edge root h b :=
  inside.2.resolve_left differ

theorem Body.of_between (reachable : Reachable edge root b) (body : Body edge root h1 b)
    (outer : Dominates edge root h1 h2) (differ : h1 ≠ h2) (inner : Dominates edge root h2 b) : Body edge root h1 h2 := by
  obtain ⟨visited,path⟩ := reachable
  induction path with
  | root =>
    obtain rfl := List.mem_singleton.mp (inner _ .root)
    exact body
  | @step before p b path next ih =>
    by_cases same : h2 = b
    · subst same; exact body
    · have below := inner.pred same next
      refine ih (.step next body ?_) below
      rintro rfl
      exact differ (Dominates.antisymm (below.reachable ⟨_,path⟩) outer below)

theorem Body.nested (reachable : Reachable edge root h2) (header : Body edge root h1 h2)
    (inside : InLoop edge root h2 b) : Body edge root h1 b := by
  have outer := header.dominates
  have apart {d : V} (dom : Dominates edge root h2 d) : d ≠ h1 := by
    rintro rfl
    exact header.ne (Dominates.antisymm (outer.reachable reachable) dom outer)
  obtain ⟨_,rfl | body⟩ := inside
  · exact header
  · induction body with
    | latch back => exact .step back.1 header (apart back.2)
    | @step b c next inside differ ih =>
      exact .step next ih (apart (inside.step next differ).dominates)

theorem InLoop.nested (reachable : Reachable edge root b) (first : InLoop edge root h1 b)
    (second : InLoop edge root h2 b) (differ : h1 ≠ h2) : Body edge root h1 h2 ∨ Body edge root h2 h1 := by
  have one {h1 h2 : V} (first : InLoop edge root h1 b) (second : InLoop edge root h2 b) (differ : h1 ≠ h2)
      (outer : Dominates edge root h1 h2) : Body edge root h1 h2 := by
    refine Body.of_between reachable (first.body ?_) outer differ second.dominates
    rintro rfl
    exact differ (Dominates.antisymm (second.dominates.reachable reachable) outer second.dominates)
  rcases first.dominates.total reachable second.dominates with outer | outer
  · exact Or.inl (one first second differ outer)
  · exact Or.inr (one second first (Ne.symm differ) outer)

/-- A graph is reducible when every cycle has a back edge. -/
def Reducible (edge : V → V → Prop) (root : V) : Prop :=
  ∀ v, ¬ Relation.TransGen (fun a b => edge a b ∧ ¬ Dominates edge root b a) v v

end Otawa.FlowGraph
