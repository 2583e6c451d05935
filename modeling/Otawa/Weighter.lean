import Otawa.ContextTreeShape

/-!
The weights of blocks (`Weighter`): they are computed on demand from the loop around a block
and recorded. In whatever order the blocks are processed, a weight is the product of the
bounds of the loops around its block, up to the first one with a total number of iterations.
-/
namespace Otawa.Weighter
open Otawa.Cat2

abbrev Word := BitVec 32

/-- `MAX_ITERATION` and `TOTAL_ITERATION` of a header, negative when they are absent. -/
structure Bounds where
  max : Word
  total : Word

/-- `WEIGHT` of the blocks that have it. -/
abbrev Weights (p : Program) := p.Block → Option Word

variable {p : Program}

theorem wellFounded_enclosing : WellFounded fun h b : p.Block => p.enclosing b = some h :=
  ⟨fun b => ContextTree.enclosing_induction _ (fun b ih => ⟨b,ih⟩) b⟩

variable (bounds : p.Block → Bounds)

/-- The weight of a block by the one of its parent, 1 when it has none; a header without bound throws. -/
def weigh (bb : p.Block) (outer : Word) : Except p.Block Word :=
  if p.loopHeader bb then
    if !(bounds bb).total.slt 0 then .ok (bounds bb).total
    else if !(bounds bb).max.slt 0 then .ok ((bounds bb).max * outer)
    else .error bb
  else .ok outer

def compute (weights : Weights p) (bb : p.Block) : Except p.Block (Weights p) :=
  if (weights bb).isSome then .ok weights
  else
    match _found : p.enclosing bb with
    | none => (weigh bounds bb 1).map fun weight => Function.update weights bb (some weight)
    | some parent => do
      let weights ← compute weights parent
      (weigh bounds bb ((weights parent).getD 0)).map fun weight => Function.update weights bb (some weight)
termination_by wellFounded_enclosing.wrap bb
decreasing_by exact _found

/-- The work on some blocks, one after the other. -/
def processBBs (bbs : List p.Block) : Except p.Block (Weights p) := bbs.foldlM (compute bounds) fun _ => none

/-- The headers of the loops around a block, its own one first. -/
def around (bb : p.Block) : List p.Block :=
  let outer := match _found : p.enclosing bb with
    | none => []
    | some parent => around parent
  if p.loopHeader bb then bb :: outer else outer
termination_by wellFounded_enclosing.wrap bb
decreasing_by exact _found

def Bounded (h : p.Block) : Prop := (bounds h).total.slt 0 = false ∨ (bounds h).max.slt 0 = false

/-- The product of the bounds of loops, the innermost one first, up to one with a total. -/
def product : List p.Block → Word
  | [] => 1
  | h :: outer => if (bounds h).total.slt 0 then (bounds h).max * product outer else (bounds h).total

/-- The recorded weights are right. -/
def Right (weights : Weights p) : Prop :=
  ∀ bb weight, weights bb = some weight → weight = product bounds (around bb) ∧ ∀ h ∈ around bb, Bounded bounds h

variable {bounds}

theorem around_of_none {bb : p.Block} (found : p.enclosing bb = none) : around bb = if p.loopHeader bb then [bb] else [] := by
  rw [around]
  split <;> split <;> simp_all

theorem around_of_some {bb parent : p.Block} (found : p.enclosing bb = some parent) :
    around bb = if p.loopHeader bb then bb :: around parent else around parent := by
  rw [around]
  split <;> split <;> simp_all

theorem weigh_around {bb : p.Block} {outer : List p.Block} (bounded : ∀ h ∈ outer, Bounded bounds h)
    (split : around bb = if p.loopHeader bb then bb :: outer else outer) :
    (∃ weight, weigh bounds bb (product bounds outer) = .ok weight ∧ weight = product bounds (around bb) ∧
      ∀ h ∈ around bb, Bounded bounds h) ∨
    weigh bounds bb (product bounds outer) = .error bb ∧ bb ∈ around bb ∧ ¬Bounded bounds bb := by
  rw [split,weigh]
  cases p.loopHeader bb with
  | false => exact .inl ⟨_,rfl,rfl,bounded⟩
  | true =>
    simp only [if_true,product,List.forall_mem_cons,Bounded]
    cases (bounds bb).total.slt 0 with
    | false => exact .inl ⟨_,rfl,rfl,.inl rfl,bounded⟩
    | true =>
      cases (bounds bb).max.slt 0 with
      | false => exact .inl ⟨_,rfl,rfl,.inr rfl,bounded⟩
      | true => exact .inr ⟨rfl,List.mem_cons_self,by simp⟩

theorem Right.update {weights : Weights p} (right : Right bounds weights) {bb : p.Block} {weight : Word}
    (own : weight = product bounds (around bb) ∧ ∀ h ∈ around bb, Bounded bounds h) :
    Right bounds (Function.update weights bb (some weight)) := by
  intro c v known
  by_cases same : c = bb
  · subst same
    rw [Function.update_self] at known
    obtain rfl := Option.some.inj known
    exact own
  · rw [Function.update_of_ne same] at known
    exact right c v known

/-- What calls for some blocks leave: right weights, with one for each of these blocks and the
    former ones, or the exception for a loop around one of them. -/
def Computed (bounds : p.Block → Bounds) (weights : Weights p) (bbs : List p.Block) : Except p.Block (Weights p) → Prop
  | .ok weights' => Right bounds weights' ∧ ∀ c, c ∈ bbs ∨ (weights c).isSome → (weights' c).isSome
  | .error h => ∃ bb ∈ bbs, h ∈ around bb ∧ ¬Bounded bounds h

theorem compute_spec (bb : p.Block) {weights : Weights p} (right : Right bounds weights) :
    Computed bounds weights [bb] (compute bounds weights bb) := by
  induction bb using ContextTree.enclosing_induction generalizing weights with
  | step bb ih =>
    rw [compute]
    split
    next known => exact ⟨right,fun c wanted => wanted.elim (fun same => List.mem_singleton.mp same ▸ known) id⟩
    have own {weights' : Weights p} (right' : Right bounds weights') (kept : ∀ c, (weights c).isSome → (weights' c).isSome)
        {outer : List p.Block} (bounded : ∀ h ∈ outer, Bounded bounds h)
        (split : around bb = if p.loopHeader bb then bb :: outer else outer) :
        Computed bounds weights [bb] ((weigh bounds bb (product bounds outer)).map fun weight =>
          Function.update weights' bb (some weight)) := by
      rcases weigh_around bounded split with ⟨weight,weighed,correct⟩ | ⟨thrown,inside,unbounded⟩
      · rw [weighed]
        refine ⟨right'.update correct,fun c wanted => ?_⟩
        by_cases same : c = bb
        · simp [same]
        · simpa [same] using kept c (wanted.resolve_left fun here => same (List.mem_singleton.mp here))
      · rw [thrown]
        exact ⟨bb,List.mem_singleton_self bb,inside,unbounded⟩
    split
    next found => exact @own weights right (fun _ known => known) [] (by simp) (around_of_none found)
    next parent found =>
      have called := ih parent found right
      cases run : compute bounds weights parent with
      | error h =>
        rw [run] at called
        obtain ⟨c,same,inside,unbounded⟩ := called
        obtain rfl := List.mem_singleton.mp same
        refine ⟨bb,List.mem_singleton_self bb,?_,unbounded⟩
        rw [around_of_some found]
        split
        · exact List.mem_cons_of_mem _ inside
        · exact inside
      | ok weights' =>
        rw [run] at called
        obtain ⟨right',kept⟩ := called
        obtain ⟨weight,recorded⟩ := Option.isSome_iff_exists.mp (kept parent (.inl (List.mem_singleton_self parent)))
        obtain ⟨rfl,bounded⟩ := right' parent weight recorded
        show Computed bounds weights [bb] ((weigh bounds bb ((weights' parent).getD 0)).map _)
        rw [recorded,Option.getD_some]
        exact own right' (fun c known => kept c (.inr known)) bounded (around_of_some found)

theorem computed_all (bbs : List p.Block) {weights : Weights p} (right : Right bounds weights) :
    Computed bounds weights bbs (bbs.foldlM (compute bounds) weights) := by
  induction bbs generalizing weights with
  | nil => exact ⟨right,by simp⟩
  | cons bb bbs ih =>
    have first := compute_spec bb right
    rw [List.foldlM_cons]
    cases run : compute bounds weights bb with
    | error h =>
      rw [run] at first
      obtain ⟨c,same,unbounded⟩ := first
      exact ⟨c,List.mem_cons.mpr (.inl (List.mem_singleton.mp same)),unbounded⟩
    | ok weights' =>
      rw [run] at first
      obtain ⟨right',kept⟩ := first
      have rest := ih right'
      show Computed bounds weights (bb :: bbs) (bbs.foldlM (compute bounds) weights')
      cases done : bbs.foldlM (compute bounds) weights' with
      | error h =>
        rw [done] at rest
        obtain ⟨c,member,unbounded⟩ := rest
        exact ⟨c,List.mem_cons_of_mem _ member,unbounded⟩
      | ok weights'' =>
        rw [done] at rest
        obtain ⟨right'',kept'⟩ := rest
        refine ⟨right'',fun c wanted => kept' c ?_⟩
        rcases wanted with here | before
        · rcases List.mem_cons.mp here with rfl | later
          · exact .inr (kept c (.inl (List.mem_singleton_self c)))
          · exact .inl later
        · exact .inr (kept c (.inr before))

/-- The blocks have their weights when all the loops around them have a bound; else the exception
    is for one of these loops without bound. -/
theorem weights_by_loops (bounds : p.Block → Bounds) (bbs : List p.Block) :
    (∀ weights, processBBs bounds bbs = .ok weights → ∀ bb ∈ bbs,
      weights bb = some (product bounds (around bb)) ∧ ∀ h ∈ around bb, Bounded bounds h) ∧
    ∀ h, processBBs bounds bbs = .error h → ∃ bb ∈ bbs, h ∈ around bb ∧ ¬Bounded bounds h := by
  have result := @computed_all p bounds bbs (fun _ => none) fun _ _ known => by cases known
  refine ⟨fun weights run bb member => ?_,fun h run => ?_⟩
  · rw [← processBBs,run] at result
    obtain ⟨weight,known⟩ := Option.isSome_iff_exists.mp (result.2 bb (.inl member))
    obtain ⟨rfl,bounded⟩ := result.1 bb weight known
    exact ⟨known,bounded⟩
  · rw [← processBBs,run] at result
    exact result

end Otawa.Weighter
