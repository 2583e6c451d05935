import Otawa.Dominance
import Mathlib.Data.List.Nodup

/-!
Loop information (`LoopInfoBuilder`): the headers in an order with dominated headers
first, the headers of the loops around each block by backward data flow, and from them
the enclosing loop of a block and the loop left by an edge, both the first of a set.
-/
namespace Otawa.Cfg
open Otawa.Dfa (IterativeDFA)

variable {n m : Nat}

/-- `DominanceOrder::compare`. -/
def compareDominance (reverseDom : Fin n → Finset (Fin n)) (bb1 bb2 : Fin n) : Option Int := do
  if ← dominates reverseDom bb1 bb2 then some 1
  else if ← dominates reverseDom bb2 bb1 then some (-1)
  else some 0

/-- `SortedSLList::add`. -/
def sortedAdd (compare : Fin n → Fin n → Option Int) (value : Fin n) : List (Fin n) → Option (List (Fin n))
  | [] => some [value]
  | current :: rest => do
    if (← compare value current) < 0 then some (value :: current :: rest)
    else (sortedAdd compare value rest).map fun added => current :: added

variable (g : CFG n m) (dom : DominanceInfo n m)

/-- The body of the loop of `headers`. -/
def addIfHeader (list : List (Fin n)) (bb : Fin n) : Option (List (Fin n)) :=
  if bb ≠ g.entry ∧ dom.loopHeader bb then sortedAdd (compareDominance dom.reverseDom) bb list else some list

/-- The constructor of `LoopInfoProblem`: the sorted headers but for the entry. -/
def headers : Option (List (Fin n)) := g.blocks.foldlM (addIfHeader g dom) []

variable (hdrs : List (Fin n))

abbrev HeaderSet (hdrs : List (Fin n)) := Finset (Fin hdrs.length)

/-- `result->add(hdrs.indexOf(bb))`, an error for a block that is no header. -/
def addHeader (result : HeaderSet hdrs) (bb : Fin n) : Option (HeaderSet hdrs) :=
  (hdrs.finIdxOf? bb).map fun i => insert i result

/-- The body of the loop of `gen`. -/
def addLatch (bb : Fin n) (result : HeaderSet hdrs) (edge : Fin m) : Option (HeaderSet hdrs) :=
  if g.kind edge ≠ .call ∧ bb ≠ g.target edge then do
    if ← dominates dom.reverseDom (g.target edge) bb then addHeader hdrs result (g.target edge) else some result
  else some result

/-- `LoopInfoProblem::gen`. -/
def loopGen (bb : Fin n) : Option (HeaderSet hdrs) := (g.outs bb).foldlM (addLatch g dom hdrs bb) ∅

/-- `LoopInfoProblem::kill`. -/
def loopKill (bb : Fin n) : Option (HeaderSet hdrs) :=
  if dom.loopHeader bb then addHeader hdrs ∅ bb else some ∅

/-- `LoopInfoProblem`, over the successors; the engine asks for all gen and kill sets
    at its start. -/
def loopInfoProblem : Option (IterativeDFA n (HeaderSet hdrs)) :=
  if defined : (∀ bb, (loopGen g dom hdrs bb).isSome) ∧ ∀ bb, (loopKill dom hdrs bb).isSome then some {
    empty := ∅
    gen bb := (loopGen g dom hdrs bb).get (defined.1 bb)
    kill bb := (loopKill dom hdrs bb).get (defined.2 bb)
    equals set1 set2 := decide (set1 = set2)
    reset := ∅
    merge dst src := dst ∪ src
    add dst src := dst ∪ src
    diff dst src := dst \ src
    iter := g.successors
    forward := g.predecessors }
  else none

structure LoopInfo (n m : Nat) where
  enclosing : Fin n → Option (Fin n)
  loopExitEdge : Fin m → Option (Fin n)
  exitList : Fin n → List (Fin m)

/-- `prob.get(*bit)` for the first bit of a set. -/
def firstHeader (set : HeaderSet hdrs) : Option (Fin n) :=
  ((List.finRange hdrs.length).find? fun i => decide (i ∈ set)).map fun i => hdrs.get i

def withSelf (outSet : Fin n → HeaderSet hdrs) : Fin n → HeaderSet hdrs :=
  (List.finRange hdrs.length).foldl
    (fun outSet i => Function.update outSet (hdrs.get i) (insert i (outSet (hdrs.get i)))) outSet

def exitedLoop (outSet : Fin n → HeaderSet hdrs) (enclosing : Fin n → Option (Fin n)) (edge : Fin m) : Option (Fin n) :=
  if ((enclosing (g.source edge)).isSome ∨ dom.loopHeader (g.source edge)) ∧ g.kind edge ≠ .call then
    firstHeader hdrs (outSet (g.source edge) \ outSet (g.target edge))
  else none

/-- The body of the loops of `buildLoopExitList`. -/
def addExit (loopExitEdge : Fin m → Option (Fin n)) (exitList : Fin n → List (Fin m)) (edge : Fin m) : Fin n → List (Fin m) :=
  match loopExitEdge edge with
  | some h => Function.update exitList h (exitList h ++ [edge])
  | none => exitList

/-- `buildLoopExitList`, over the edges of all blocks. -/
def buildLoopExitList (loopExitEdge : Fin m → Option (Fin n)) : Fin n → List (Fin m) :=
  (g.blocks.flatMap g.outs).foldl (addExit loopExitEdge) fun _ => []

/-- `LoopInfoBuilder::processCFG`; the engine stops within these turns. -/
def processLoopInfo : Option (LoopInfo n m) := do
  let hdrs ← headers g dom
  if hdrs = [] then some ⟨fun _ => none,fun _ => none,fun _ => []⟩
  else do
    let prob ← loopInfoProblem g dom hdrs
    let engine ← prob.compute (n + n * (n * hdrs.length))
    let enclosing bb := firstHeader hdrs (engine.outs bb)
    let loopExitEdge := exitedLoop g dom hdrs (withSelf hdrs engine.outs) enclosing
    some ⟨enclosing,loopExitEdge,buildLoopExitList g loopExitEdge⟩

/-- What `CFG::scan` makes sure of: no edge to the virtual entry, and only blocks found
    from the entry have non-call edges. -/
structure CFG.Scanned (g : CFG n m) : Prop where
  entryFirst : ∀ e, g.kind e ≠ .call → g.target e ≠ g.entry
  connected : g.Connected

namespace CFG

def IsHeader (g : CFG n m) (h : Fin n) : Prop := FlowGraph.Header g.Flow g.entry h
/-- The natural loop of h without h. -/
def Body (g : CFG n m) (h b : Fin n) : Prop := FlowGraph.Body g.Flow g.entry h b
def InLoop (g : CFG n m) (h b : Fin n) : Prop := FlowGraph.InLoop g.Flow g.entry h b

end CFG

section Order
variable {g : CFG n m} {dom : DominanceInfo n m} (exact_ : dom.Exact g) (scanned : g.Scanned)

theorem flow_reachable (scanned : g.Scanned) {a b : Fin n} (flow : g.Flow a b) : g.Reachable a ∧ g.Reachable b := by
  obtain ⟨e,noCall,rfl,rfl⟩ := flow
  have source := scanned.connected e noCall
  exact ⟨source,source.step ⟨e,noCall,rfl,rfl⟩⟩

theorem header_reachable (scanned : g.Scanned) {h : Fin n} (header : g.IsHeader h) : g.Reachable h :=
  header.elim fun _ back => (flow_reachable scanned back.1).2

theorem body_reachable (scanned : g.Scanned) {h b : Fin n} (body : g.Body h b) : g.Reachable b := by
  cases body with
  | latch back => exact (flow_reachable scanned back.1).1
  | step next => exact (flow_reachable scanned next).1

include exact_ in
theorem loopHeader_iff {h : Fin n} : dom.loopHeader h = true ↔ g.IsHeader h := by
  rw [exact_.header]
  constructor
  · rintro ⟨e,⟨flow,back⟩,rfl⟩; exact ⟨_,⟨e,flow,rfl,rfl⟩,back⟩
  · rintro ⟨_,⟨e,flow,rfl,rfl⟩,back⟩; exact ⟨e,⟨flow,back⟩,rfl⟩

include exact_ in
theorem compareDominance_spec {a b : Fin n} (reachableA : g.Reachable a) (reachableB : g.Reachable b) (differ : a ≠ b) :
    ∃ order, compareDominance dom.reverseDom a b = some order ∧ (order < 0 ↔ g.Dominates b a) := by
  obtain ⟨first,answered1,correct1⟩ := dominates_spec exact_.dominators reachableB a
  obtain ⟨second,answered2,correct2⟩ := dominates_spec exact_.dominators reachableA b
  have one : g.Dominates a b → ¬ g.Dominates b a := fun below above =>
    differ (FlowGraph.Dominates.antisymm reachableB below above)
  cases first with
  | true =>
    refine ⟨1,by simp [compareDominance,answered1],iff_of_false (by decide) (one (correct1.mp rfl))⟩
  | false =>
    cases second with
    | true => exact ⟨-1,by simp [compareDominance,answered1,answered2],iff_of_true (by decide) (correct2.mp rfl)⟩
    | false =>
      refine ⟨0,by simp [compareDominance,answered1,answered2],iff_of_false (by decide) fun above => ?_⟩
      exact Bool.false_ne_true (correct2.mpr above)

/-- No header dominates a later one. -/
def DominatedFirst (g : CFG n m) (list : List (Fin n)) : Prop := list.Pairwise fun a b => ¬ g.Dominates a b

include exact_ in
theorem sortedAdd_spec {value : Fin n} {list : List (Fin n)} (reachable : ∀ a ∈ value :: list, g.Reachable a)
    (fresh : value ∉ list) (sorted : DominatedFirst g list) :
    ∃ added, sortedAdd (compareDominance dom.reverseDom) value list = some added ∧
      added.Perm (value :: list) ∧ DominatedFirst g added := by
  induction list with
  | nil => exact ⟨[value],rfl,.refl _,List.pairwise_singleton ..⟩
  | cons current rest ih =>
    have differ : value ≠ current := fun same => fresh (by simp [same])
    obtain ⟨below,restSorted⟩ := List.pairwise_cons.mp sorted
    obtain ⟨order,compared,less⟩ := compareDominance_spec exact_ (reachable value (by simp))
      (reachable current (by simp)) differ
    by_cases above : g.Dominates current value
    · refine ⟨value :: current :: rest,by simp [sortedAdd,compared,less.mpr above],.refl _,?_⟩
      refine List.pairwise_cons.mpr ⟨fun a member under => ?_,sorted⟩
      rcases List.mem_cons.mp member with rfl | member
      · exact differ (FlowGraph.Dominates.antisymm (reachable a (by simp)) under above)
      · exact below a member (FlowGraph.Dominates.trans above under)
    · obtain ⟨added,done,perm,addedSorted⟩ := ih
        (fun a member => reachable a (by rcases List.mem_cons.mp member with rfl | member <;> simp [*]))
        (fun member => fresh (by simp [member])) restSorted
      refine ⟨current :: added,?_,(perm.cons current).trans (.swap ..),List.pairwise_cons.mpr ⟨fun a member => ?_,addedSorted⟩⟩
      · have later : ¬ order < 0 := fun negative => above (less.mp negative)
        simp [sortedAdd,compared,later,done]
      · rcases List.mem_cons.mp (perm.mem_iff.mp member) with rfl | member
        · exact above
        · exact below a member

structure HeaderList (g : CFG n m) (seen : Fin n → Prop) (list : List (Fin n)) : Prop where
  mem : ∀ h, h ∈ list ↔ seen h ∧ g.IsHeader h
  nodup : list.Nodup
  sorted : DominatedFirst g list

variable {seen : Fin n → Prop} {list : List (Fin n)}

include exact_ scanned in
theorem addIfHeader_spec {bb : Fin n} (fresh : ¬ seen bb) (found : HeaderList g seen list) :
    ∃ next, addIfHeader g dom list bb = some next ∧ HeaderList g (fun b => seen b ∨ b = bb) next := by
  by_cases header : g.IsHeader bb
  · have inner : bb ≠ g.entry := by
      obtain ⟨_,⟨e,flow,_,rfl⟩,_⟩ := header
      exact scanned.entryFirst e flow
    have absent : bb ∉ list := fun member => fresh ((found.mem bb).mp member).1
    have reachable : ∀ a ∈ bb :: list, g.Reachable a := by
      intro a member
      rcases List.mem_cons.mp member with rfl | member
      · exact header_reachable scanned header
      · exact header_reachable scanned ((found.mem a).mp member).2
    obtain ⟨added,done,perm,sorted⟩ := sortedAdd_spec exact_ reachable absent found.sorted
    refine ⟨added,by rw [addIfHeader,if_pos ⟨inner,(loopHeader_iff exact_).mpr header⟩,done],fun h => ?_,?_,sorted⟩
    · rw [perm.mem_iff,List.mem_cons,found.mem]
      constructor
      · rintro (rfl | ⟨old,isHeader⟩)
        · exact ⟨Or.inr rfl,header⟩
        · exact ⟨Or.inl old,isHeader⟩
      · rintro ⟨old | rfl,isHeader⟩
        · exact Or.inr ⟨old,isHeader⟩
        · exact Or.inl rfl
    · exact perm.nodup_iff.mpr (List.nodup_cons.mpr ⟨absent,found.nodup⟩)
  · refine ⟨list,if_neg fun both => header ((loopHeader_iff exact_).mp both.2),fun h => ?_,found.nodup,found.sorted⟩
    rw [found.mem]
    refine ⟨fun ⟨old,isHeader⟩ => ⟨Or.inl old,isHeader⟩,?_⟩
    rintro ⟨old | rfl,isHeader⟩
    · exact ⟨old,isHeader⟩
    · exact absurd isHeader header

include exact_ scanned in
theorem addHeaders_spec {bs : List (Fin n)} (nodup : bs.Nodup) (fresh : ∀ b ∈ bs, ¬ seen b) (found : HeaderList g seen list) :
    ∃ hdrs, bs.foldlM (addIfHeader g dom) list = some hdrs ∧ HeaderList g (fun b => seen b ∨ b ∈ bs) hdrs := by
  induction bs generalizing seen list with
  | nil => exact ⟨_,rfl,by simpa using found⟩
  | cons bb rest ih =>
    obtain ⟨absent,restNodup⟩ := List.nodup_cons.mp nodup
    obtain ⟨next,done,found'⟩ := addIfHeader_spec exact_ scanned (fresh bb (by simp)) found
    obtain ⟨hdrs,folded,found''⟩ := ih restNodup (by
      rintro b member (old | rfl)
      · exact fresh b (by simp [member]) old
      · exact absent member) found'
    exact ⟨hdrs,by rw [List.foldlM_cons,done]; exact folded,by simpa [or_assoc] using found''⟩

include exact_ scanned in
theorem headers_spec : ∃ hdrs, headers g dom = some hdrs ∧ HeaderList g (fun _ => True) hdrs := by
  have start : HeaderList g (fun _ => False) [] := ⟨by simp,List.nodup_nil,List.Pairwise.nil⟩
  obtain ⟨hdrs,folded,found⟩ := addHeaders_spec exact_ scanned (List.nodup_finRange n) (by simp) start
  exact ⟨hdrs,folded,fun h => (found.mem h).trans (by simp),found.nodup,found.sorted⟩

end Order

private theorem mem_union_fold {hdrs : List (Fin n)} {outs : Fin n → HeaderSet hdrs} {i : Fin hdrs.length} {succs : List (Fin n)}
    {set : HeaderSet hdrs} : i ∈ succs.foldl (fun set s => set ∪ outs s) set ↔ i ∈ set ∨ ∃ s ∈ succs, i ∈ outs s := by
  induction succs generalizing set with
  | nil => simp
  | cons s rest ih => simp [ih,or_assoc]

section Flow
variable {g : CFG n m} {dom : DominanceInfo n m} {hdrs : List (Fin n)} (exact_ : dom.Exact g) (scanned : g.Scanned)
  (found : HeaderList g (fun _ => True) hdrs)

include found

theorem mem_headers {h : Fin n} : h ∈ hdrs ↔ g.IsHeader h := (found.mem h).trans (and_iff_right trivial)

theorem isHeader_get (i : Fin hdrs.length) : g.IsHeader (hdrs.get i) := (mem_headers found).mp (hdrs.get_mem i)

theorem addHeader_spec (result : HeaderSet hdrs) {bb : Fin n} (header : g.IsHeader bb) :
    ∃ added, addHeader hdrs result bb = some added ∧ ∀ i, i ∈ added ↔ hdrs.get i = bb ∨ i ∈ result := by
  cases index : hdrs.finIdxOf? bb with
  | none => exact absurd ((mem_headers found).mpr header) (List.finIdxOf?_eq_none_iff.mp index)
  | some j =>
    have place : hdrs.get j = bb := (List.finIdxOf?_eq_some_iff.mp index).1
    refine ⟨insert j result,by rw [addHeader,index]; rfl,fun i => ?_⟩
    rw [Finset.mem_insert,← place,found.nodup.get_inj_iff]

include exact_ scanned in
theorem loopGen_fold {bb : Fin n} {edges : List (Fin m)} (outs : ∀ e ∈ edges, g.source e = bb) (result : HeaderSet hdrs) :
    ∃ gen, edges.foldlM (addLatch g dom hdrs bb) result = some gen ∧
      ∀ i, i ∈ gen ↔ i ∈ result ∨ ∃ e ∈ edges, g.IsBack e ∧ bb ≠ g.target e ∧ hdrs.get i = g.target e := by
  induction edges generalizing result with
  | nil => exact ⟨result,rfl,by simp⟩
  | cons e rest ih =>
    have source : g.source e = bb := outs e (by simp)
    obtain ⟨next,done,added⟩ : ∃ next, addLatch g dom hdrs bb result e = some next ∧
        ∀ i, i ∈ next ↔ i ∈ result ∨ g.IsBack e ∧ bb ≠ g.target e ∧ hdrs.get i = g.target e := by
      by_cases asked : g.kind e ≠ .call ∧ bb ≠ g.target e
      · obtain ⟨answer,answered,correct⟩ := dominates_spec exact_.dominators
          (source ▸ scanned.connected e asked.1) (g.target e)
        cases answer with
        | true =>
          have back : g.IsBack e := ⟨asked.1,source ▸ correct.mp rfl⟩
          obtain ⟨next,done,added⟩ := addHeader_spec found result
            (show g.IsHeader (g.target e) from ⟨_,⟨e,asked.1,rfl,rfl⟩,back.2⟩)
          refine ⟨next,by simp [addLatch,asked,answered,done],fun i => ?_⟩
          rw [added,or_comm]
          simp [back,asked.2]
        | false =>
          refine ⟨result,by simp [addLatch,asked,answered],fun i => ?_⟩
          have front : ¬ g.IsBack e := fun back => Bool.false_ne_true (correct.mpr (source ▸ back.2))
          simp [front]
      · refine ⟨result,if_neg asked,fun i => ?_⟩
        have none : ¬ (g.IsBack e ∧ bb ≠ g.target e) := fun both => asked ⟨both.1.1,both.2⟩
        rw [← and_assoc]
        simp [none]
    obtain ⟨gen,folded,all⟩ := ih (fun d member => outs d (by simp [member])) next
    refine ⟨gen,by rw [List.foldlM_cons,done]; exact folded,fun i => ?_⟩
    rw [all,added]
    simp [or_assoc]

include exact_ scanned in
theorem loopGen_spec (bb : Fin n) : ∃ gen, loopGen g dom hdrs bb = some gen ∧
    ∀ i, i ∈ gen ↔ FlowGraph.BackEdge g.Flow g.entry bb (hdrs.get i) ∧ bb ≠ hdrs.get i := by
  obtain ⟨gen,folded,all⟩ := loopGen_fold exact_ scanned found (fun e member => g.mem_outs.mp member) ∅
  refine ⟨gen,folded,fun i => (all i).trans ?_⟩
  simp only [Finset.notMem_empty,false_or,g.mem_outs]
  constructor
  · rintro ⟨e,rfl,⟨flow,back⟩,differ,target⟩
    rw [target]
    exact ⟨⟨⟨e,flow,rfl,rfl⟩,back⟩,differ⟩
  · rintro ⟨⟨⟨e,flow,rfl,target⟩,back⟩,differ⟩
    exact ⟨e,rfl,⟨flow,target ▸ back⟩,target ▸ differ,target.symm⟩

include exact_ in
theorem loopKill_spec (bb : Fin n) : ∃ kill, loopKill dom hdrs bb = some kill ∧ ∀ i, i ∈ kill ↔ hdrs.get i = bb := by
  by_cases header : g.IsHeader bb
  · obtain ⟨kill,added,all⟩ := addHeader_spec found ∅ header
    exact ⟨kill,by rw [loopKill,if_pos ((loopHeader_iff exact_).mpr header),added],fun i => by simp [all i]⟩
  · refine ⟨∅,if_neg fun set => header ((loopHeader_iff exact_).mp set),fun i => ?_⟩
    simp only [Finset.notMem_empty,false_iff]
    rintro rfl
    exact header (isHeader_get found i)

include exact_ scanned in
theorem loopInfoProblem_spec : ∃ prob, loopInfoProblem g dom hdrs = some prob ∧ prob.empty = ∅ ∧ Dfa.Lawful prob ∧
    ∀ outs b i, i ∈ prob.output outs b ↔ FlowGraph.BackEdge g.Flow g.entry b (hdrs.get i) ∧ b ≠ hdrs.get i ∨
      (∃ s, g.Flow b s ∧ i ∈ outs s) ∧ b ≠ hdrs.get i := by
  have gens bb := loopGen_spec exact_ scanned found bb
  have kills bb := loopKill_spec exact_ found bb
  have defined : (∀ bb, (loopGen g dom hdrs bb).isSome) ∧ ∀ bb, (loopKill dom hdrs bb).isSome := by
    refine ⟨fun bb => ?_,fun bb => ?_⟩
    · obtain ⟨gen,done,_⟩ := gens bb; rw [done]; rfl
    · obtain ⟨kill,done,_⟩ := kills bb; rw [done]; rfl
  refine ⟨_,dif_pos defined,rfl,⟨fun _ _ => decide_eq_true_iff,fun a b => ?_⟩,fun outs b i => ?_⟩
  · show a ∈ g.successors b ↔ b ∈ g.predecessors a
    rw [g.mem_successors,g.mem_predecessors]
  · obtain ⟨gen,genDone,genAll⟩ := gens b
    obtain ⟨kill,killDone,killAll⟩ := kills b
    have input : i ∈ (g.successors b).foldl (fun set s => set ∪ outs s) ∅ ↔ ∃ s, g.Flow b s ∧ i ∈ outs s := by
      rw [mem_union_fold]
      simp [g.mem_successors]
    show i ∈ (_ \ (loopKill dom hdrs b).get _) ∪ (loopGen g dom hdrs b).get _ ↔ _
    simp only [genDone,killDone,Option.get_some]
    rw [Finset.mem_union,Finset.mem_sdiff,genAll,killAll,or_comm,eq_comm]
    exact or_congr_right (and_congr_left fun _ => input)

include exact_ scanned in
theorem loops_spec : ∃ prob s, loopInfoProblem g dom hdrs = some prob ∧
    prob.compute (n + n * (n * hdrs.length)) = some s ∧ ∀ i b, i ∈ s.outs b ↔ g.Body (hdrs.get i) b := by
  classical
  obtain ⟨prob,defined,empty,lawful,output⟩ := loopInfoProblem_spec exact_ scanned found
  have descent : Worklist.Descent (Dfa.equations lawful) (fun x y : HeaderSet hdrs => y ⊆ x)
      (fun set => hdrs.length - set.card) := by
    refine ⟨Finset.Subset.refl,fun first second => second.trans first,fun b above i member => ?_,fun {x y} above differ => ?_⟩
    · rw [Dfa.equations,output] at member ⊢
      rcases member with latch | ⟨⟨s,flow,inside⟩,rest⟩
      · exact Or.inl latch
      · exact Or.inr ⟨⟨s,flow,above s inside⟩,rest⟩
    · have less := Finset.card_lt_card (Finset.ssubset_iff_subset_ne.mpr ⟨above,Ne.symm differ⟩)
      have all : x.card ≤ hdrs.length := by simpa using Finset.card_le_univ x
      omega
  obtain ⟨s,computed,fixed,greatest⟩ := Dfa.compute_spec lawful descent (fun x => by rw [empty]; exact Finset.empty_subset x)
    (k := n + n * (n * hdrs.length)) (by simp [empty])
  refine ⟨prob,s,defined,computed,fun i b => ⟨fun member => ?_,fun body => ?_⟩⟩
  · -- the bodies are a solution, and the sets of the engine are below all of them
    have below := greatest (fun b => Finset.univ.filter fun i => g.Body (hdrs.get i) b) (fun b => ?_) b member
    · simpa using below
    · ext j
      rw [output]
      simp only [Finset.mem_filter,Finset.mem_univ,true_and]
      exact FlowGraph.body_iff.symm
  · generalize place : hdrs.get i = h at body
    induction body with
    | latch back differ =>
      rw [← fixed,output,place]
      exact Or.inl ⟨back,differ⟩
    | step flow _ differ ih =>
      rw [← fixed,output,place]
      exact Or.inr ⟨⟨_,flow,ih⟩,differ⟩

end Flow

end Otawa.Cfg
