import Otawa.LoopExits
import Mathlib.Data.Finite.Defs
import Mathlib.Order.WellFounded

/-!
Loops nested in one another, when no edge leaves two of them. The unit of an edge is the
loop that it leaves, or its source: an edge goes from its unit to its target, two blocks
or headers of the same loop, and the edges but the back edges make no cycle of units.
-/
namespace Otawa.FlowGraph

variable {V : Type*} {edge : V → V → Prop} {root a b h : V}

def Forward (edge : V → V → Prop) (root a b : V) : Prop := edge a b ∧ ¬ Dominates edge root b a

theorem Dominates.forward (dom : Dominates edge root a b) (reachable : Reachable edge root b) :
    Relation.ReflTransGen (Forward edge root) a b := by
  obtain ⟨visited,path⟩ := reachable
  generalize length : visited.length = k
  induction k using Nat.strongRecOn generalizing visited b with
  | _ k ih =>
    subst length
    by_cases shorter : ∃ other, Path edge root other b ∧ other.length < visited.length
    · obtain ⟨other,path',less⟩ := shorter
      exact ih _ less dom other path' rfl
    · cases path with
      | root =>
        obtain rfl := List.mem_singleton.mp (dom _ .root)
        exact .refl
      | @step before p _ path next =>
        by_cases same : a = b
        · rw [same]
        refine .tail (ih _ (Nat.lt_succ_self _) (dom.pred same next) before path rfl) ⟨next,fun back => ?_⟩
        -- a path back to the block would be shorter
        obtain ⟨other,path',suffix,-⟩ := path.upTo (back before path)
        exact shorter ⟨other,path',Nat.lt_succ_of_le suffix.length_le⟩

theorem Reachable.entered (reachable : Reachable edge root b) (inner : b ≠ root) : ∃ a, Forward edge root a b := by
  have dominates : Dominates edge root root b := by
    intro visited path
    clear inner
    induction path with
    | root => exact List.mem_singleton_self _
    | step path next ih => exact List.mem_cons_of_mem _ (ih ⟨_,path⟩)
  rcases (dominates.forward reachable).cases_tail with same | ⟨a,-,last⟩
  · exact absurd same inner
  · exact ⟨a,last⟩

section Extremes
variable [Finite V] (reducible : Reducible edge root) {p : V → Prop} (some : p b)
include reducible

omit [Finite V] in
private theorem Reducible.order : IsStrictOrder V (Relation.TransGen (Forward edge root)) :=
  { irrefl := reducible, trans := fun _ _ _ => Relation.TransGen.trans }

include some

theorem Reducible.exists_first : ∃ a, p a ∧ ∀ c, p c → ¬ Relation.TransGen (Forward edge root) c a := by
  have := reducible.order
  obtain ⟨a,holds,least⟩ := (Finite.wellFounded_of_trans_of_irrefl (Relation.TransGen (Forward edge root))).has_min
    {a | p a} ⟨b,some⟩
  exact ⟨a,holds,fun c other => least c other⟩

theorem Reducible.exists_last : ∃ a, p a ∧ ∀ c, p c → ¬ Relation.TransGen (Forward edge root) a c := by
  have := reducible.order
  obtain ⟨a,holds,greatest⟩ := (Finite.wellFounded_of_trans_of_irrefl
    (Function.swap (Relation.TransGen (Forward edge root)))).has_min {a | p a} ⟨b,some⟩
  exact ⟨a,holds,fun c other => greatest c other⟩

end Extremes

end Otawa.FlowGraph

namespace Otawa.Cfg

variable {n m : Nat}

def LoopInfo.unit (info : LoopInfo n m) (g : CFG n m) (e : Fin m) : Fin n := (info.loopExitEdge e).getD (g.source e)

def CFG.IsFront (g : CFG n m) (e : Fin m) : Prop := g.kind e ≠ .call ∧ ¬ g.Dominates (g.target e) (g.source e)

/-- No edge leaves two loops. -/
def CFG.OneLeft (g : CFG n m) : Prop := ∀ e h h', g.Leaves h e → g.Leaves h' e → h = h'

section Units
variable {g : CFG n m} {info : LoopInfo n m} (scanned : g.Scanned) (picked : info.Picked g) (one : g.OneLeft)
variable {e : Fin m} {b h k : Fin n}

theorem enclosing_body (picked : info.Picked g) (inside : info.enclosing b = some h) : g.Body h b := by
  have chosen := picked.enclosing b
  rw [inside] at chosen
  exact chosen.1

theorem enclosing_eq_some (scanned : g.Scanned) (picked : info.Picked g) (body : g.Body h b)
    (inner : ∀ h', g.Body h' b → g.Dominates h' h) : info.enclosing b = some h := by
  have chosen := picked.enclosing b
  cases result : info.enclosing b with
  | none => rw [result] at chosen; exact absurd body (chosen h)
  | some h' =>
    rw [result] at chosen
    have reachable := header_reachable scanned chosen.1.header
    rw [FlowGraph.Dominates.antisymm reachable (chosen.2 h body) (inner h' chosen.1)]

theorem enclosing_congr (scanned : g.Scanned) (picked : info.Picked g) {b' : Fin n}
    (same : ∀ h, g.Body h b ↔ g.Body h b') : info.enclosing b = info.enclosing b' := by
  have chosen := picked.enclosing b'
  cases result : info.enclosing b' with
  | some h =>
    rw [result] at chosen
    exact enclosing_eq_some scanned picked ((same h).mpr chosen.1) fun h' body => chosen.2 h' ((same h').mp body)
  | none =>
    rw [result] at chosen
    have chosen' := picked.enclosing b
    cases result' : info.enclosing b with
    | none => rfl
    | some h => rw [result'] at chosen'; exact absurd ((same h).mp chosen'.1) (chosen h)

theorem leaves_of_exit (picked : info.Picked g) (exit : info.loopExitEdge e = some k) : g.Leaves k e := by
  have chosen := picked.exited e
  rw [exit] at chosen
  exact chosen.1

theorem exit_of_leaves (picked : info.Picked g) (one : g.OneLeft) (leaves : g.Leaves k e) :
    info.loopExitEdge e = some k := by
  have chosen := picked.exited e
  cases result : info.loopExitEdge e with
  | none => rw [result] at chosen; exact absurd leaves (chosen k)
  | some k' => rw [result] at chosen; rw [one e k' k chosen.1 leaves]

theorem body_of_leaves (scanned : g.Scanned) (leaves : g.Leaves k e) {h : Fin n} (inside : g.InLoop h (g.source e))
    (stays : g.InLoop h (g.target e)) : g.Body h k := by
  have differ : h ≠ k := by
    rintro rfl
    exact leaves.2.2 stays
  have reachable := inLoop_reachable scanned inside
  rcases FlowGraph.InLoop.nested reachable inside leaves.2.1 differ with body | body
  · exact body
  · exact absurd (FlowGraph.Body.nested (header_reachable scanned inside.1) body stays).inLoop leaves.2.2

theorem inLoop_source (front : g.IsFront e) (body : g.Body h (g.target e)) : g.InLoop h (g.source e) := by
  by_cases same : g.source e = h
  · exact ⟨body.header,Or.inl same⟩
  · exact (FlowGraph.Body.step ⟨e,front.1,rfl,rfl⟩ body same).inLoop

theorem body_target (front : g.IsFront e) (inside : g.InLoop h (g.source e)) (stays : ¬ g.Leaves h e) :
    g.Body h (g.target e) := by
  have after : g.InLoop h (g.target e) := by
    by_contra outside
    exact stays ⟨front.1,inside,outside⟩
  refine after.body ?_
  intro same
  exact front.2 (same ▸ inside.dominates)

theorem unit_of_exit (exit : info.loopExitEdge e = some k) : info.unit g e = k := by
  rw [LoopInfo.unit,exit]
  rfl

include picked

theorem unit_of_not_exit (stays : info.loopExitEdge e = none) : info.unit g e = g.source e ∧ ∀ h, ¬ g.Leaves h e := by
  have chosen := picked.exited e
  rw [stays] at chosen
  exact ⟨by rw [LoopInfo.unit,stays]; rfl,chosen⟩

include scanned

theorem front_stays (front : g.IsFront e) (stays : info.loopExitEdge e = none) :
    g.IsHeader (g.source e) ∧ info.enclosing (g.target e) = some (g.source e) ∨
    ¬ g.IsHeader (g.source e) ∧ info.enclosing (g.target e) = info.enclosing (g.source e) := by
  obtain ⟨-,none⟩ := unit_of_not_exit picked stays
  by_cases header : g.IsHeader (g.source e)
  · refine Or.inl ⟨header,enclosing_eq_some scanned picked (body_target front ⟨header,Or.inl rfl⟩ (none _)) ?_⟩
    exact fun h' body => (inLoop_source front body).dominates
  · refine Or.inr ⟨header,enclosing_congr scanned picked fun h => ⟨fun body => ?_,fun body => ?_⟩⟩
    · refine (inLoop_source front body).body ?_
      rintro same
      exact header (same ▸ body.header)
    · exact body_target front body.inLoop (none h)

include one in
theorem front_leaves (front : g.IsFront e) (exit : info.loopExitEdge e = some k) :
    info.enclosing (g.target e) = info.enclosing k := by
  have leaves := leaves_of_exit picked exit
  refine enclosing_congr scanned picked fun h => ⟨fun body => ?_,fun body => ?_⟩
  · exact body_of_leaves scanned leaves (inLoop_source front body) body.inLoop
  · have inside := FlowGraph.Body.nested (header_reachable scanned leaves.2.1.1) body leaves.2.1
    refine body_target front inside.inLoop fun leaves' => ?_
    exact body.ne (one e k h leaves leaves')

theorem source_leaves (one : g.OneLeft) (exit : info.loopExitEdge e = some k) :
    g.source e = k ∨ ¬ g.IsHeader (g.source e) ∧ info.enclosing (g.source e) = some k := by
  have leaves := leaves_of_exit picked exit
  by_cases same : g.source e = k
  · exact Or.inl same
  · have body := leaves.2.1.body same
    have stays {h : Fin n} (inside : g.InLoop h (g.source e)) : h ≠ k → g.InLoop h (g.target e) := by
      intro differ
      by_contra outside
      exact differ (one e h k ⟨leaves.1,inside,outside⟩ leaves)
    right
    constructor
    · intro header
      have inner := body_of_leaves scanned leaves ⟨header,Or.inl rfl⟩ (stays ⟨header,Or.inl rfl⟩ same)
      exact same (FlowGraph.Dominates.antisymm (body_reachable scanned inner) inner.dominates body.dominates)
    · refine enclosing_eq_some scanned picked body fun h' body' => ?_
      by_cases differ : h' = k
      · rw [differ]; exact FlowGraph.dominates_refl k
      · exact (body_of_leaves scanned leaves body'.inLoop (stays body'.inLoop differ)).dominates

theorem back_stays (back : g.IsBack e) (stays : info.loopExitEdge e = none) :
    g.source e = g.target e ∨ ¬ g.IsHeader (g.source e) ∧ info.enclosing (g.source e) = some (g.target e) := by
  obtain ⟨-,none⟩ := unit_of_not_exit picked stays
  have after {h : Fin n} (inside : g.InLoop h (g.source e)) : g.InLoop h (g.target e) := by
    by_contra outside
    exact none h ⟨back.1,inside,outside⟩
  by_cases same : g.source e = g.target e
  · exact Or.inl same
  · have latch : FlowGraph.BackEdge g.Flow g.entry (g.source e) (g.target e) := ⟨⟨e,back.1,rfl,rfl⟩,back.2⟩
    have body : g.Body (g.target e) (g.source e) := .latch latch same
    refine Or.inr ⟨fun header => ?_,enclosing_eq_some scanned picked body fun h' body' => (after body'.inLoop).dominates⟩
    -- the source would dominate the target
    have dom := (after ⟨header,Or.inl rfl⟩).dominates
    exact same (FlowGraph.Dominates.antisymm (header_reachable scanned body.header) dom back.2)

include one in
theorem back_leaves (back : g.IsBack e) (exit : info.loopExitEdge e = some k) :
    info.enclosing k = some (g.target e) := by
  have leaves := leaves_of_exit picked exit
  have latch : FlowGraph.BackEdge g.Flow g.entry (g.source e) (g.target e) := ⟨⟨e,back.1,rfl,rfl⟩,back.2⟩
  have header : g.IsHeader (g.target e) := ⟨_,latch⟩
  have around : g.InLoop (g.target e) (g.source e) := by
    by_cases same : g.source e = g.target e
    · exact ⟨header,Or.inl same⟩
    · exact (FlowGraph.Body.latch latch same).inLoop
  have body := body_of_leaves scanned leaves around ⟨header,Or.inl rfl⟩
  refine enclosing_eq_some scanned picked body fun h' body' => ?_
  have inside := (FlowGraph.Body.nested (header_reachable scanned leaves.2.1.1) body' leaves.2.1).inLoop
  by_contra none
  refine body'.ne (one e k h' leaves ⟨leaves.1,inside,fun after => none after.dominates⟩)

theorem forward_unit (front : g.IsFront e) :
    Relation.TransGen (FlowGraph.Forward g.Flow g.entry) (info.unit g e) (g.target e) := by
  have flow : g.Flow (g.source e) (g.target e) := ⟨e,front.1,rfl,rfl⟩
  have last : FlowGraph.Forward g.Flow g.entry (g.source e) (g.target e) := ⟨flow,front.2⟩
  cases exit : info.loopExitEdge e with
  | none =>
    rw [(unit_of_not_exit picked exit).1]
    exact .single last
  | some k =>
    rw [unit_of_exit exit]
    have leaves := leaves_of_exit picked exit
    exact .tail' (leaves.2.1.dominates.forward (flow_reachable scanned flow).1) last

include one in
theorem loop_induction {done : Fin n → Prop} (latches : ∀ e, g.IsBack e → g.target e = h → info.unit g e = h ∨ done (info.unit g e))
    (backwards : ∀ e, g.IsFront e → info.enclosing (g.target e) = some h → done (g.target e) →
      info.unit g e = h ∨ done (info.unit g e)) (inside : info.enclosing b = some h) : done b := by
  -- the unit of the loop for a block of its body: the block, or a loop around it
  suffices every : ∀ w, g.Body h w → ∀ b, info.enclosing b = some h → b = w ∨ g.InLoop b w → done b from
    every b (enclosing_body picked inside) b inside (Or.inl rfl)
  clear inside
  intro w body
  have outer {b : Fin n} (inside : info.enclosing b = some h) : b ≠ h := (enclosing_body picked inside).ne
  induction body with
  | @latch w back differ =>
    obtain ⟨⟨e,flow,rfl,rfl⟩,dom⟩ := back
    intro b inside around
    have known := latches e ⟨flow,dom⟩ rfl
    suffices unit : info.unit g e = b by
      rw [unit] at known
      exact known.resolve_left (outer inside)
    have body := enclosing_body picked inside
    have apart : ¬ g.InLoop b (g.target e) := fun within =>
      outer inside (FlowGraph.Dominates.antisymm (header_reachable scanned body.header) within.dominates body.dominates)
    by_cases within : g.InLoop b (g.source e)
    · exact unit_of_exit (exit_of_leaves picked one ⟨flow,within,apart⟩)
    · obtain rfl := around.resolve_right within
      cases exit : info.loopExitEdge e with
      | none => exact (unit_of_not_exit picked exit).1
      | some k =>
        rw [unit_of_exit exit]
        rcases source_leaves scanned picked one exit with same | ⟨-,below⟩
        · exact same.symm
        · obtain rfl := Option.some.inj (below.symm.trans inside)
          exact absurd ⟨body.header,Or.inl rfl⟩ (leaves_of_exit picked exit).2.2
  | @step w c next body differ ih =>
    obtain ⟨e,flow,rfl,rfl⟩ := next
    intro b inside around
    by_cases after : g.InLoop b (g.target e)
    · exact ih b inside (Or.inr after)
    suffices unit : g.IsFront e ∧ info.unit g e = b ∧ info.enclosing (g.target e) = some h by
      obtain ⟨front,same,below⟩ := unit
      have known := backwards e front below (ih _ below (Or.inl rfl))
      rw [same] at known
      exact known.resolve_left (outer inside)
    by_cases within : g.InLoop b (g.source e)
    · have exit := exit_of_leaves picked one ⟨flow,within,after⟩
      have front : g.IsFront e := by
        refine ⟨flow,fun back => ?_⟩
        have around' := back_leaves scanned picked one ⟨flow,back⟩ exit
        exact body.ne (Option.some.inj (around'.symm.trans inside))
      exact ⟨front,unit_of_exit exit,(front_leaves scanned picked one front exit).trans inside⟩
    · obtain rfl := around.resolve_right within
      have plain : ¬ g.IsHeader (g.source e) := fun header => within ⟨header,Or.inl rfl⟩
      have stays : info.loopExitEdge e = none := by
        cases exit : info.loopExitEdge e with
        | none => rfl
        | some k =>
          rcases source_leaves scanned picked one exit with same | ⟨-,below⟩
          · exact absurd (same ▸ (leaves_of_exit picked exit).2.1.1) plain
          · obtain rfl := Option.some.inj (below.symm.trans inside)
            exact absurd body.inLoop (leaves_of_exit picked exit).2.2
      have front : g.IsFront e := by
        refine ⟨flow,fun back => ?_⟩
        rcases back_stays scanned picked ⟨flow,back⟩ stays with same | ⟨-,below⟩
        · exact plain (same ▸ ⟨_,⟨e,flow,rfl,rfl⟩,back⟩)
        · exact body.ne (Option.some.inj (below.symm.trans inside))
      rcases front_stays scanned picked front stays with ⟨header,-⟩ | ⟨-,same⟩
      · exact absurd header plain
      · exact ⟨front,(unit_of_not_exit picked stays).1,same.trans inside⟩

end Units

end Otawa.Cfg
