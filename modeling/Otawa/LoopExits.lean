import Otawa.LoopInfo
import Mathlib.Data.List.Induction

/-!
The results of `LoopInfoBuilder` as natural loops. The enclosing loop is always the
innermost one. The loop of an exit edge is the innermost loop that the edge leaves, where
the property is documented as the outermost one (`right_iff_one_left`).
-/
namespace Otawa.Cfg

variable {n m : Nat}

namespace CFG

def Leaves (g : CFG n m) (h : Fin n) (e : Fin m) : Prop :=
  g.kind e ≠ .call ∧ g.InLoop h (g.source e) ∧ ¬ g.InLoop h (g.target e)

/-- The header is picked among those with the property, and they all dominate it. -/
def Picks (g : CFG n m) (p : Fin n → Prop) : Option (Fin n) → Prop
  | some h => p h ∧ ∀ h', p h' → g.Dominates h' h
  | none => ∀ h, ¬ p h

end CFG

section Picks
variable {g : CFG n m} {dom : DominanceInfo n m} {hdrs : List (Fin n)} (exact_ : dom.Exact g) (scanned : g.Scanned)
  (found : HeaderList g (fun _ => True) hdrs)

include found in
theorem firstHeader_picks {set : HeaderSet hdrs} {p : Fin n → Prop} (mem : ∀ i, i ∈ set ↔ p (hdrs.get i))
    (header : ∀ h, p h → g.IsHeader h) (chain : ∀ h h', p h → p h' → g.Dominates h h' ∨ g.Dominates h' h) :
    g.Picks p (firstHeader hdrs set) := by
  have index {h : Fin n} (holds : p h) : ∃ i, hdrs.get i = h := List.get_of_mem ((mem_headers found).mpr (header h holds))
  cases first : (List.finRange hdrs.length).find? fun i => decide (i ∈ set) with
  | none =>
    rw [firstHeader,first]
    intro h holds
    obtain ⟨i,rfl⟩ := index holds
    have absent := List.find?_eq_none.mp first i (List.mem_finRange i)
    exact absent (decide_eq_true ((mem i).mpr holds))
  | some i =>
    rw [firstHeader,first]
    obtain ⟨member,k,inside,place,before⟩ := List.find?_eq_some_iff_getElem.mp first
    have same : k = i.val := by simpa [Fin.ext_iff] using place
    have holds := (mem i).mp (of_decide_eq_true member)
    refine ⟨holds,fun h' holds' => ?_⟩
    obtain ⟨j,rfl⟩ := index holds'
    rcases Nat.lt_trichotomy j.val i.val with less | equal | more
    · have absent := before j.val (by omega)
      simp [(mem j).mpr holds'] at absent
    · rw [Fin.ext equal]; exact FlowGraph.dominates_refl _
    · refine (chain _ _ holds holds').resolve_left ?_
      exact List.pairwise_iff_getElem.mp found.sorted i.val j.val i.isLt j.isLt more

theorem mem_withSelf {outSet : Fin n → HeaderSet hdrs} {i : Fin hdrs.length} {b : Fin n} :
    i ∈ withSelf hdrs outSet b ↔ i ∈ outSet b ∨ hdrs.get i = b := by
  have fold (l : List (Fin hdrs.length)) : ∀ outSet : Fin n → HeaderSet hdrs, i ∈ l.foldl
      (fun outSet j => Function.update outSet (hdrs.get j) (insert j (outSet (hdrs.get j)))) outSet b ↔
        i ∈ outSet b ∨ i ∈ l ∧ hdrs.get i = b := by
    induction l with
    | nil => simp
    | cons j rest ih =>
      intro outSet
      rw [List.foldl_cons,ih,List.mem_cons]
      by_cases same : b = hdrs.get j
      · subst same
        rw [Function.update_self,Finset.mem_insert]
        constructor
        · rintro ((rfl | old) | ⟨later,place⟩)
          · exact Or.inr ⟨Or.inl rfl,rfl⟩
          · exact Or.inl old
          · exact Or.inr ⟨Or.inr later,place⟩
        · rintro (old | ⟨rfl | later,place⟩)
          · exact Or.inl (Or.inr old)
          · exact Or.inl (Or.inl rfl)
          · exact Or.inr ⟨later,place⟩
      · rw [Function.update_of_ne same]
        refine or_congr_right ⟨fun ⟨later,place⟩ => ⟨Or.inr later,place⟩,?_⟩
        rintro ⟨rfl | later,place⟩
        · exact absurd place.symm same
        · exact ⟨later,place⟩
  rw [withSelf,fold]
  simp

include scanned in
theorem inLoop_reachable {h b : Fin n} (inside : g.InLoop h b) : g.Reachable b := by
  rcases inside.2 with rfl | body
  · exact header_reachable scanned inside.1
  · exact body_reachable scanned body

include scanned in
theorem inLoop_chain {h h' b : Fin n} (inside : g.InLoop h b) (inside' : g.InLoop h' b) :
    g.Dominates h h' ∨ g.Dominates h' h :=
  inside.dominates.total (inLoop_reachable scanned inside) inside'.dominates

variable {outSet : Fin n → HeaderSet hdrs} (loops : ∀ i b, i ∈ outSet b ↔ g.Body (hdrs.get i) b)

include found loops scanned in
theorem enclosing_picks (b : Fin n) : g.Picks (fun h => g.Body h b) (firstHeader hdrs (outSet b)) :=
  firstHeader_picks found (fun i => loops i b) (fun _ body => body.header)
    fun _ _ body body' => inLoop_chain scanned body.inLoop body'.inLoop

include found loops in
theorem mem_withSelf_iff {i : Fin hdrs.length} {b : Fin n} :
    i ∈ withSelf hdrs outSet b ↔ g.InLoop (hdrs.get i) b := by
  rw [mem_withSelf,loops,CFG.InLoop,FlowGraph.InLoop,or_comm,eq_comm]
  exact (and_iff_right (isHeader_get found i)).symm

include exact_ found loops scanned in
theorem exitedLoop_picks (e : Fin m) : g.Picks (fun h => g.Leaves h e)
    (exitedLoop g dom hdrs (withSelf hdrs outSet) (fun b => firstHeader hdrs (outSet b)) e) := by
  unfold exitedLoop
  split
  · rename_i asked
    refine firstHeader_picks found (fun i => ?_) (fun _ leaves => leaves.2.1.1)
      fun _ _ leaves leaves' => inLoop_chain scanned leaves.2.1 leaves'.2.1
    rw [Finset.mem_sdiff,mem_withSelf_iff found loops,mem_withSelf_iff found loops]
    exact (and_iff_right asked.2).symm
  · -- a source in no loop
    rename_i unasked
    rintro h ⟨flow,⟨header,place⟩,_⟩
    refine unasked ⟨?_,flow⟩
    rcases place with same | body
    · exact Or.inr ((loopHeader_iff exact_).mpr (same ▸ header))
    · left
      have picked := enclosing_picks scanned found loops (g.source e)
      cases first : firstHeader hdrs (outSet (g.source e)) with
      | none => rw [first] at picked; exact absurd body (picked h)
      | some _ => simp [first]

end Picks

theorem buildLoopExitList_eq (g : CFG n m) (loopExitEdge : Fin m → Option (Fin n)) (h : Fin n) :
    buildLoopExitList g loopExitEdge h = (g.blocks.flatMap g.outs).filter fun e => loopExitEdge e = some h := by
  have fold (edges : List (Fin m)) : ∀ lists : Fin n → List (Fin m),
      edges.foldl (addExit loopExitEdge) lists h = lists h ++ edges.filter fun e => loopExitEdge e = some h := by
    induction edges with
    | nil => simp
    | cons e rest ih =>
      intro lists
      rw [List.foldl_cons,ih,addExit]
      cases exit : loopExitEdge e with
      | none => simp [exit]
      | some h' =>
        by_cases same : h = h'
        · subst same; simp [exit]
        · simp [exit,Function.update_of_ne same,Ne.symm same]
  rw [buildLoopExitList,fold,List.nil_append]

theorem nodup_edges (g : CFG n m) : (g.blocks.flatMap g.outs).Nodup := by
  refine List.nodup_flatMap.mpr ⟨fun b _ => g.nodup_outs b,(List.nodup_finRange n).imp ?_⟩
  intro a b differ e first second
  exact differ ((g.mem_outs.mp first).symm.trans (g.mem_outs.mp second))

/-- What `processCFG` leaves. -/
structure LoopInfo.Picked (g : CFG n m) (info : LoopInfo n m) : Prop where
  enclosing : ∀ b, g.Picks (fun h => g.Body h b) (info.enclosing b)
  exited : ∀ e, g.Picks (fun h => g.Leaves h e) (info.loopExitEdge e)
  lists : ∀ h, info.exitList h = (g.blocks.flatMap g.outs).filter fun e => info.loopExitEdge e = some h

theorem processLoopInfo_picked {g : CFG n m} {dom : DominanceInfo n m} (exact_ : dom.Exact g) (scanned : g.Scanned) :
    ∃ info, processLoopInfo g dom = some info ∧ info.Picked g := by
  obtain ⟨hdrs,sorted,found⟩ := headers_spec exact_ scanned
  by_cases none : hdrs = []
  · have noHeader h : ¬ g.IsHeader h := fun header => by
      have member := (mem_headers found).mpr header
      rw [none] at member
      cases member
    refine ⟨⟨fun _ => Option.none,fun _ => Option.none,fun _ => []⟩,by simp [processLoopInfo,sorted,none],?_,?_,?_⟩
    · exact fun b h body => noHeader h body.header
    · exact fun e h leaves => noHeader h leaves.2.1.1
    · intro h; simp
  · obtain ⟨prob,s,defined,computed,loops⟩ := loops_spec exact_ scanned found
    refine ⟨_,by simp [processLoopInfo,sorted,none,defined,computed]; rfl,?_,?_,?_⟩
    · exact enclosing_picks scanned found loops
    · exact exitedLoop_picks exact_ scanned found loops
    · exact buildLoopExitList_eq g _

namespace CFG
variable (g : CFG n m)

def Within (h h' : Fin n) : Prop := ∀ b, g.InLoop h b → g.InLoop h' b

/-- The innermost loop with the block, but for the loop of the block itself. -/
structure Encloses (h b : Fin n) : Prop where
  inside : g.InLoop h b
  other : h ≠ b
  innermost : ∀ h', g.InLoop h' b → h' ≠ b → g.Within h h'

/-- The outermost loop that the edge leaves. -/
structure LeavesOutermost (h : Fin n) (e : Fin m) : Prop where
  leaves : g.Leaves h e
  outermost : ∀ h', g.Leaves h' e → g.Within h' h

end CFG

/-- The properties as they are documented. -/
structure LoopInfo.Right (g : CFG n m) (info : LoopInfo n m) : Prop where
  enclosing : ∀ b, (∃ h, info.enclosing b = some h ∧ g.Encloses h b) ∨
    info.enclosing b = none ∧ ¬ ∃ h, g.InLoop h b ∧ h ≠ b
  exited : ∀ e, (∃ h, g.Leaves h e) → ∃ h, info.loopExitEdge e = some h ∧ g.LeavesOutermost h e
  lists : ∀ h, (info.exitList h).Nodup ∧ ∀ e, e ∈ info.exitList h ↔ info.loopExitEdge e = some h

section Right
variable {g : CFG n m} {info : LoopInfo n m} (scanned : g.Scanned) (picked : info.Picked g)
include scanned

theorem within_of_dominates {h h' b : Fin n} (inside : g.InLoop h b) (inside' : g.InLoop h' b) (outer : g.Dominates h' h) :
    g.Within h h' := by
  by_cases same : h = h'
  · subst same; exact fun _ => id
  · have reachable := inLoop_reachable scanned inside
    have body : g.Body h' h := FlowGraph.Body.of_between reachable (inside'.body (by
      rintro rfl
      exact same (FlowGraph.Dominates.antisymm (outer.reachable (header_reachable scanned inside.1)) inside.dominates outer))) outer
      (Ne.symm same) inside.dominates
    exact fun b' inner => (body.nested (header_reachable scanned inside.1) inner).inLoop

theorem eq_of_within {h h' : Fin n} (header : g.IsHeader h) (header' : g.IsHeader h') (within : g.Within h h')
    (outer : g.Dominates h h') : h = h' :=
  FlowGraph.Dominates.antisymm (header_reachable scanned header') outer (within h ⟨header,Or.inl rfl⟩).dominates

include picked

theorem enclosing_right (b : Fin n) : (∃ h, info.enclosing b = some h ∧ g.Encloses h b) ∨
    info.enclosing b = none ∧ ¬ ∃ h, g.InLoop h b ∧ h ≠ b := by
  have chosen := picked.enclosing b
  cases result : info.enclosing b with
  | none =>
    rw [result] at chosen
    exact Or.inr ⟨rfl,fun ⟨h,inside,other⟩ => chosen h (inside.body (Ne.symm other))⟩
  | some h =>
    rw [result] at chosen
    refine Or.inl ⟨h,rfl,chosen.1.inLoop,Ne.symm chosen.1.ne,fun h' inside' other => ?_⟩
    exact within_of_dominates scanned chosen.1.inLoop inside' (chosen.2 h' (inside'.body (Ne.symm other)))

omit scanned in
theorem lists_right (h : Fin n) : (info.exitList h).Nodup ∧ ∀ e, e ∈ info.exitList h ↔ info.loopExitEdge e = some h := by
  rw [picked.lists]
  refine ⟨(nodup_edges g).filter _,fun e => ?_⟩
  simp

theorem right_of_one_left (one : ∀ e h h', g.Leaves h e → g.Leaves h' e → h = h') : info.Right g := by
  refine ⟨enclosing_right scanned picked,fun e ⟨h0,leaves⟩ => ?_,lists_right picked⟩
  have chosen := picked.exited e
  cases result : info.loopExitEdge e with
  | none => rw [result] at chosen; exact absurd leaves (chosen h0)
  | some h =>
    rw [result] at chosen
    refine ⟨h,rfl,chosen.1,fun h' leaves' => ?_⟩
    obtain rfl := one e h' h leaves' chosen.1
    exact fun _ => id

theorem one_left_of_right (right : info.Right g) (e : Fin m) (h h' : Fin n) (leaves : g.Leaves h e)
    (leaves' : g.Leaves h' e) : h = h' := by
  obtain ⟨chosen,result,outermost⟩ := right.exited e ⟨h,leaves⟩
  have innermost := picked.exited e
  rw [result] at innermost
  have one {h : Fin n} (leaves : g.Leaves h e) : h = chosen :=
    eq_of_within scanned leaves.2.1.1 innermost.1.2.1.1 (outermost.outermost h leaves) (innermost.2 h leaves)
  rw [one leaves,one leaves']

end Right

/-- On a graph made by `scan` the properties are as documented exactly when no edge
    leaves two loops at once. -/
theorem right_iff_one_left {g : CFG n m} (scanned : g.Scanned) :
    ∃ dom info, processDominance g = some dom ∧ processLoopInfo g dom = some info ∧
      (info.Right g ↔ ∀ e h h', g.Leaves h e → g.Leaves h' e → h = h') := by
  obtain ⟨dom,processed,exact_⟩ := processDominance_exact scanned.connected
  obtain ⟨info,built,picked⟩ := processLoopInfo_picked exact_ scanned
  exact ⟨dom,info,processed,built,one_left_of_right scanned picked,right_of_one_left scanned picked⟩

attribute [local instance] neZero_five neZero_six

/-- A loop (1) around a block with an edge to itself (2), an edge from that block out of
    both (to 3), and the exit. -/
def twoLoops : CFG 5 6 :=
  ⟨0,![0,1,2,2,2,3],![1,2,2,1,3,4],![.virtual,.notTaken,.taken,.taken,.notTaken,.virtual]⟩

private theorem flow_twoLoops {a b : Fin 5} (flow : twoLoops.Flow a b) :
    a = 0 ∧ b = 1 ∨ a = 1 ∧ b = 2 ∨ a = 2 ∧ b = 2 ∨ a = 2 ∧ b = 1 ∨ a = 2 ∧ b = 3 ∨
      a = 3 ∧ b = 4 := by
  obtain ⟨e,_,rfl,rfl⟩ := flow
  revert e
  decide

private theorem outer_dominates : twoLoops.Dominates 1 2 := by
  refine FlowGraph.dominates_of_cut (p := fun b => b = 0) rfl ?_ (by decide)
  rintro x y rfl flow differ
  rcases flow_twoLoops flow with h | h | h | h | h | h
  · exact absurd h.2 differ
  all_goals exact absurd h.1 (by decide)

theorem scanned_twoLoops : twoLoops.Scanned where
  entryFirst := by decide
  connected e _ := by
    have first : twoLoops.Reachable 1 := FlowGraph.reachable_root.step ⟨0,by decide,rfl,rfl⟩
    have second : twoLoops.Reachable 2 := first.step ⟨1,by decide,rfl,rfl⟩
    have third : twoLoops.Reachable 3 := second.step ⟨4,by decide,rfl,rfl⟩
    match e with
    | 0 => exact FlowGraph.reachable_root
    | 1 => exact first
    | 2 | 3 | 4 => exact second
    | 5 => exact third

theorem reducible_twoLoops : FlowGraph.Reducible twoLoops.Flow twoLoops.entry := by
  intro v cycle
  have increasing {a b : Fin 5} (path : Relation.TransGen
      (fun a b => twoLoops.Flow a b ∧ ¬ FlowGraph.Dominates twoLoops.Flow twoLoops.entry b a) a b) : a < b := by
    have step {a b : Fin 5} (flow : twoLoops.Flow a b) (front : ¬ twoLoops.Dominates b a) : a < b := by
      rcases flow_twoLoops flow with ⟨rfl,rfl⟩ | ⟨rfl,rfl⟩ | ⟨rfl,rfl⟩ | ⟨rfl,rfl⟩ | ⟨rfl,rfl⟩ | ⟨rfl,rfl⟩
      · decide
      · decide
      · exact absurd (FlowGraph.dominates_refl _) front
      · exact absurd outer_dominates front
      · decide
      · decide
    induction path with
    | single edge => exact step edge.1 edge.2
    | tail _ edge ih => exact Fin.lt_trans ih (step edge.1 edge.2)
  exact absurd (increasing cycle) (Fin.lt_irrefl v)

private theorem leaves_twoLoops : twoLoops.Leaves 1 4 ∧ twoLoops.Leaves 2 4 := by
  have last {b : Fin 5} (flow : twoLoops.Flow 4 b) : False := by
    rcases flow_twoLoops flow with h | h | h | h | h | h <;> exact absurd h.1 (by decide)
  have next {b : Fin 5} (flow : twoLoops.Flow 3 b) : b = 4 := by
    rcases flow_twoLoops flow with h | h | h | h | h | h
    all_goals first | exact h.2 | exact absurd h.1 (by decide)
  have noExit {h : Fin 5} (low : h < 3) : ¬ twoLoops.InLoop h 3 := by
    rintro ⟨_,rfl | body⟩
    · exact absurd low (by decide)
    · cases body with
      | latch back => exact absurd (next back.1 ▸ low) (by decide)
      | step flow inside =>
        obtain rfl := next flow
        cases inside with
        | latch back => exact last back.1
        | step flow => exact last flow
  have outer : twoLoops.Body 1 2 := .latch ⟨⟨3,by decide,rfl,rfl⟩,outer_dominates⟩ (by decide)
  have inner : twoLoops.IsHeader 2 := ⟨2,⟨2,by decide,rfl,rfl⟩,FlowGraph.dominates_refl 2⟩
  exact ⟨⟨by decide,outer.inLoop,noExit (by decide)⟩,⟨by decide,⟨inner,Or.inl rfl⟩,noExit (by decide)⟩⟩

theorem right_iff_one_left_twoLoops :
    ∃ dom info, processDominance twoLoops = some dom ∧ processLoopInfo twoLoops dom = some info ∧ ¬ info.Right twoLoops := by
  obtain ⟨dom,info,processed,built,iff⟩ := right_iff_one_left scanned_twoLoops
  refine ⟨dom,info,processed,built,fun right => ?_⟩
  exact absurd (iff.mp right 4 1 2 leaves_twoLoops.1 leaves_twoLoops.2) (by decide)

/-- The edge to the exit leaves both loops; the inner one is recorded. -/
theorem twoLoops_exit_wrong : ¬ ∀ (n m : Nat) (g : CFG n m), g.Scanned → FlowGraph.Reducible g.Flow g.entry →
    ∀ dom info, processDominance g = some dom → processLoopInfo g dom = some info → info.Right g := by
  intro always
  obtain ⟨dom,processed,exact_⟩ := processDominance_exact scanned_twoLoops.connected
  obtain ⟨info,built,picked⟩ := processLoopInfo_picked exact_ scanned_twoLoops
  have right := always 5 6 twoLoops scanned_twoLoops reducible_twoLoops dom info processed built
  exact absurd (one_left_of_right scanned_twoLoops picked right 4 1 2 leaves_twoLoops.1 leaves_twoLoops.2) (by decide)

end Otawa.Cfg
