import Otawa.BitVector
import Otawa.ParExeGraph

/-!
The contentions of a parametric execution graph: `analyzeContentions` gives to the nodes of the
functional units the set of their possible contenders, and `buildContendersMasks` lists the subsets
of this set. The list of a new node gets each subset once (`count_subsets`), but nothing empties it,
so it grows each time that the graph is analyzed again (`masks_again_iff`).
-/
namespace Otawa.ParExe
open Otawa (BitVector)
open Otawa.BitVector (Holds holds_make)

variable {n count : Nat}

/-! ### The masks of a node -/

/-- What `BitVector::OneIterator` goes through. -/
def ones (v : BitVector n) : List (Fin n) := (List.finRange n).filter v.bit

/-- The body of the loop of `buildContendersMasks`. -/
def addOne (masks : List (BitVector n)) (one : Fin n) : List (BitVector n) :=
  if masks.isEmpty then [.make n false,(BitVector.make n false).set one]
  else masks ++ masks.map fun mask => mask.set one

/-- `buildContendersMasks`, from the list that the node has; the asserted sizes are in the types. -/
def buildContendersMasks (possible : BitVector n) (masks : List (BitVector n)) : List (BitVector n) :=
  let masks := if possible.countBits = 0 then masks ++ [.make n false] else masks
  (ones possible).foldl addOne masks

/-! ### The subsets -/

variable {within : Fin n → Bool} {masks : List (BitVector n)}

private theorem count_double {L : List (Fin n → Bool)} {one : Fin n} (fresh : within one = false)
    (counts : ∀ S, L.count S = if ∀ i, S i = true → within i = true then 1 else 0) (S : Fin n → Bool) :
    (L ++ L.map fun elems => Function.update elems one true).count S =
      if ∀ i, S i = true → Function.update within one true i = true then 1 else 0 := by
  have without : ∀ elems ∈ L, elems one = false := by
    intro elems member
    have counted := List.count_pos_iff.mpr member
    rw [counts elems] at counted
    split at counted
    case isTrue inside => exact Bool.eq_false_iff.mpr fun has => by simp [inside one has] at fresh
    case isFalse => exact absurd counted (by simp)
  rw [List.count_append]
  cases has : S one with
  | false =>
    -- the new sets all have the element
    have new : (L.map fun elems => Function.update elems one true).count S = 0 := by
      refine List.count_eq_zero.mpr fun member => ?_
      obtain ⟨elems,-,rfl⟩ := List.mem_map.mp member
      simp at has
    have same : (∀ i, S i = true → Function.update within one true i = true) ↔ ∀ i, S i = true → within i = true := by
      refine forall_congr' fun i => ?_
      by_cases here : i = one
      · subst here
        simp [has]
      · simp [here]
    rw [new,counts S,Nat.add_zero]
    simp only [same]
  | true =>
    -- the old ones do not, and the set comes from the one without it
    have old : L.count S = 0 := by
      refine List.count_eq_zero.mpr fun member => ?_
      rw [without S member] at has
      cases has
    have back : ∀ elems ∈ L, (Function.update elems one true = S ↔ elems = Function.update S one false) := by
      intro elems member
      constructor
      · rintro rfl
        rw [Function.update_idem,← without elems member,Function.update_eq_self]
      · rintro rfl
        rw [Function.update_idem,← has,Function.update_eq_self]
    have new : (L.map fun elems => Function.update elems one true).count S = L.count (Function.update S one false) := by
      rw [List.count,List.countP_map,List.count]
      refine List.countP_congr fun elems member => ?_
      simpa using back elems member
    have same : (∀ i, Function.update S one false i = true → within i = true) ↔
        ∀ i, S i = true → Function.update within one true i = true := by
      refine forall_congr' fun i => ?_
      by_cases here : i = one
      · subst here
        simp
      · simp [here]
    rw [old,new,counts,Nat.zero_add]
    simp only [same]

/-- The masks of the subsets of `within`, each once. -/
structure Subsets (within : Fin n → Bool) (masks : List (BitVector n)) : Prop where
  holds : ∀ mask ∈ masks, ∃ elems, Holds mask elems false
  counts : ∀ S, (masks.map BitVector.bit).count S = if ∀ i, S i = true → within i = true then 1 else 0

private theorem subsets_make : Subsets (fun _ => false) [BitVector.make n false] := by
  have empty : (BitVector.make n false).bit = fun _ => false := funext (holds_make false).bit
  refine ⟨fun mask member => ⟨fun _ => false,?_⟩,fun S => ?_⟩
  · rw [List.mem_singleton.mp member]
    exact holds_make false
  · rw [List.map_singleton,empty,List.count_singleton]
    by_cases none : ∀ i, S i = false
    · have same : S = fun _ => false := funext none
      simp [same]
    · have differ : S ≠ fun _ => false := fun same => none (congrFun same)
      simpa [Ne.symm differ] using none

private theorem Subsets.double (subsets : Subsets within masks)
    {one : Fin n} (fresh : within one = false) :
    Subsets (Function.update within one true) (masks ++ masks.map fun mask => mask.set one) := by
  refine ⟨fun mask member => ?_,fun S => ?_⟩
  · rcases List.mem_append.mp member with old | new
    · exact subsets.holds mask old
    · obtain ⟨before,known,rfl⟩ := List.mem_map.mp new
      obtain ⟨elems,holds⟩ := subsets.holds before known
      exact ⟨_,holds.set one⟩
  · have bits : (masks.map fun mask => mask.set one).map BitVector.bit =
        (masks.map BitVector.bit).map fun elems => Function.update elems one true := by
      rw [List.map_map,List.map_map]
      refine List.map_congr_left fun mask member => ?_
      obtain ⟨elems,holds⟩ := subsets.holds mask member
      have before : mask.bit = elems := funext holds.bit
      rw [Function.comp_apply,Function.comp_apply,before]
      exact funext (holds.set one).bit
    rw [List.map_append,bits]
    exact count_double fresh subsets.counts S

theorem addOne_of_ne_nil (filled : masks ≠ []) (one : Fin n) :
    addOne masks one = masks ++ masks.map fun mask => mask.set one := by
  rw [addOne,if_neg (by simpa using filled)]

private theorem Subsets.ne_nil (subsets : Subsets within masks) :
    masks ≠ [] := by
  rintro rfl
  have counted := subsets.counts fun _ => false
  simp at counted

private theorem foldl_addOne {list : List (Fin n)} (nodup : list.Nodup)
    (subsets : Subsets within masks) (fresh : ∀ one ∈ list, within one = false) :
    Subsets (fun i => within i || decide (i ∈ list)) (list.foldl addOne masks) := by
  induction list generalizing within masks with
  | nil => simpa using subsets
  | cons one rest ih =>
    obtain ⟨new,nodup⟩ := List.nodup_cons.mp nodup
    have doubled := subsets.double (fresh one (by simp))
    rw [List.foldl_cons,addOne_of_ne_nil subsets.ne_nil]
    have still : ∀ later ∈ rest, Function.update within one true later = false := by
      intro later member
      have other : later ≠ one := by
        rintro rfl
        exact new member
      rw [Function.update_of_ne other]
      exact fresh later (by simp [member])
    have run := ih nodup doubled still
    convert run using 2 with i
    by_cases here : i = one
    · subst here
      simp
    · simp [here]

theorem mem_ones {v : BitVector n} {i : Fin n} : i ∈ ones v ↔ v.bit i = true := by simp [ones]

theorem ones_nodup (v : BitVector n) : (ones v).Nodup := (List.nodup_finRange n).filter _

private theorem countBits_eq_zero {possible : BitVector n} {elems : Fin n → Bool} (holds : Holds possible elems false) :
    possible.countBits = 0 ↔ ones possible = [] := by
  have same : possible.countBits = possible.countOnes := by
    have difference := BitVector.countZeroes_eq possible
    rw [BitVector.countZeroes] at difference
    omega
  rw [same,holds.countOnes_eq,List.eq_nil_iff_forall_not_mem]
  simp [mem_ones,holds.bit]

theorem subsets_build {possible : BitVector n} {elems : Fin n → Bool} (holds : Holds possible elems false) :
    Subsets elems (buildContendersMasks possible []) := by
  have start : buildContendersMasks possible [] = (ones possible).foldl addOne [.make n false] := by
    rw [buildContendersMasks]
    by_cases none : ones possible = []
    · rw [if_pos ((countBits_eq_zero holds).mpr none),List.nil_append]
    · rw [if_neg (mt (countBits_eq_zero holds).mp none)]
      obtain ⟨one,rest,split⟩ := List.exists_cons_of_ne_nil none
      rw [split]
      rfl
  have run := foldl_addOne (ones_nodup possible) subsets_make fun _ _ => rfl
  rw [start]
  convert run using 2 with i
  simp [mem_ones,holds.bit]

/-- A stage of the pipeline: its policy, and the first stage of each of its functional units. -/
structure PipelineStage (count : Nat) where
  orderPolicy : OrderPolicy
  fus : List (ParExeStage count)

/-- A graph with what the analysis reads of its instructions and of its microprocessor. A node is
    made on one stage and added to the nodes of this stage only. -/
structure ContentionGraph (count : Nat) extends ParExeGraph count where
  inst : Fin count → Int
  lastPrologueNode : Option (Fin count)
  pipeline : List (PipelineStage count)
  queueSizes : List Int
  width : Fin count → Int
  own : ∀ st ∈ pipeline, ∀ fu ∈ st.fus, ∀ node ∈ fu.nodes, stage node = fu

namespace ContentionGraph
variable (g : ContentionGraph count)

def size (node : Fin count) : Nat := (g.stage node).nodes.length

/-- What the analysis changes: the delays, and for each node the possible contenders (null at
    first), the number of late contenders and the list of masks. -/
structure State where
  delays : Delays count
  possible : (node : Fin count) → Option (BitVector (g.size node))
  late : Fin count → Int
  masks : (node : Fin count) → List (BitVector (g.size node))

def capacity : Int := g.queueSizes.foldl (fun _ size => size) 0

def compare (s : Delays count) (node cont : Fin count) (contenders : Int) (found : Bool × Bool) (res : Resource count) : Bool × Bool :=
  match res.type with
  | .internalConflict _ | .externalConflict _ => found
  | _ =>
    let r := res.index
    let finishesBefore := found.1 && !s.e cont r
    let delay := contenders.tdiv (g.width node) * g.latency node
    let readyAfter :=
      if s.e node r then found.2 && !(!s.e cont r || decide (s.d cont r ≤ s.d node r + delay)) else found.2
    (finishesBefore,readyAfter)

/-- The loop on the resources, which stops at the first one that shows a possible contention. -/
def contends (s : Delays count) (node cont : Fin count) (contenders : Int) : Bool × Bool → List (Resource count) → Bool
  | _,[] => false
  | found,res :: rest =>
    let found := g.compare s node cont contenders found res
    if !found.1 && !found.2 then true else contends s node cont contenders found rest

/-- The counts of a node: the possible contenders and the early ones, with their set. -/
structure Counts (n : Nat) where
  possible : Int
  early : Int
  set : BitVector n

def contender (s : Delays count) (node : Fin count) (counts : Counts (g.size node)) (index : Fin (g.size node)) : Counts (g.size node) :=
  let cont := (g.stage node).nodes.get index
  if g.inst cont ≥ g.inst node then counts
  else if g.inst cont ≥ g.inst node - g.capacity ∧ g.contends s node cont counts.possible (true,true) g.resources then
    if g.lastPrologueNode.any fun last => g.inst cont ≤ g.inst last then
      ⟨counts.possible + 1,counts.early + 1,counts.set.set index⟩
    else { counts with possible := counts.possible + 1 }
  else counts

def counts (s : Delays count) (node : Fin count) : Counts (g.size node) :=
  let start := ⟨if g.latency node > 1 then 1 else 0,0,.make _ false⟩
  (List.finRange (g.size node)).foldl (g.contender s node) start

/-- The body of `analyzeContentions` for a node. -/
def analyzeNode (s : g.State) (node : Fin count) : g.State :=
  let counts := g.counts s.delays node
  { s with
    possible := Function.update s.possible node (some counts.set)
    late := Function.update s.late node (counts.possible - counts.early)
    masks := Function.update s.masks node (buildContendersMasks counts.set (s.masks node)) }

def analyzeContentions (s : g.State) : g.State :=
  g.pipeline.foldl (fun s st =>
    if st.orderPolicy = .outOfOrder then st.fus.foldl (fun s fu => fu.nodes.foldl g.analyzeNode s) s else s) s

/-- `analyze`, with at most k turns of the loops on the nodes, up to the cost that it reads. -/
def analyze (k : Nat) (s : g.State) : Option g.State := do
  let cleared ← g.clearDelays k s.delays
  let delays ← g.propagate k (g.initDelays cleared)
  return g.analyzeContentions { s with delays := delays }

/-- The node is in the first stage of a functional unit of a stage that is out of order. -/
def Contended (node : Fin count) : Prop := ∃ st ∈ g.pipeline, st.orderPolicy = .outOfOrder ∧ ∃ fu ∈ st.fus, node ∈ fu.nodes

/-- What a part of the analysis does to the list of a node: it grows, or is left when the node is not met. -/
def Grows (s s' : g.State) (node : Fin count) (met : Prop) : Prop :=
  (s.masks node).length ≤ (s'.masks node).length ∧ (met → (s.masks node).length < (s'.masks node).length) ∧
    (¬met → s'.masks node = s.masks node)

variable {g}

private theorem grows_foldl {A : Type} {body : g.State → A → g.State} {meets : A → Prop} {node : Fin count}
    (step : ∀ s a, g.Grows s (body s a) node (meets a)) (list : List A) (s : g.State) :
    g.Grows s (list.foldl body s) node (∃ a ∈ list, meets a) := by
  induction list generalizing s with
  | nil => simp [Grows]
  | cons a list ih =>
    obtain ⟨here,met,left⟩ := step s a
    obtain ⟨later,metLater,leftLater⟩ := ih (body s a)
    simp only [List.foldl_cons,List.exists_mem_cons_iff]
    refine ⟨here.trans later,?_,?_⟩
    · rintro (now | after)
      · exact (met now).trans_le later
      · exact here.trans_lt (metLater after)
    · intro never
      rw [not_or] at never
      rw [leftLater never.2,left never.1]

end ContentionGraph

theorem length_addOne (masks : List (BitVector n)) (one : Fin n) : masks.length < (addOne masks one).length := by
  cases masks with
  | nil => simp [addOne]
  | cons mask masks => simp [addOne]

theorem length_foldl_addOne (list : List (Fin n)) (masks : List (BitVector n)) :
    masks.length ≤ (list.foldl addOne masks).length := by
  induction list generalizing masks with
  | nil => exact le_rfl
  | cons one list ih => exact (length_addOne masks one).le.trans (ih _)

theorem length_build {possible : BitVector n} {elems : Fin n → Bool} (holds : Holds possible elems false)
    (masks : List (BitVector n)) : masks.length < (buildContendersMasks possible masks).length := by
  rw [buildContendersMasks]
  by_cases none : ones possible = []
  · rw [if_pos ((countBits_eq_zero holds).mpr none),none]
    simp
  · rw [if_neg (mt (countBits_eq_zero holds).mp none)]
    obtain ⟨one,rest,split⟩ := List.exists_cons_of_ne_nil none
    rw [split,List.foldl_cons]
    exact (length_addOne masks one).trans_le (length_foldl_addOne rest _)

namespace ContentionGraph
variable {g : ContentionGraph count}

private theorem holds_counts (s : Delays count) (node : Fin count) : ∃ elems, Holds (g.counts s node).set elems false := by
  rw [counts]
  refine List.foldlRecOn (motive := fun counts : Counts (g.size node) => ∃ elems, Holds counts.set elems false)
    _ _ ⟨_,holds_make false⟩ ?_
  rintro counts ⟨elems,holds⟩ index -
  rw [contender]
  split
  · exact ⟨elems,holds⟩
  · split
    · split
      · exact ⟨_,holds.set index⟩
      · exact ⟨elems,holds⟩
    · exact ⟨elems,holds⟩

private theorem grows_analyzeNode (node : Fin count) (s : g.State) (met : Fin count) :
    g.Grows s (g.analyzeNode s met) node (met = node) := by
  by_cases here : met = node
  · subst here
    obtain ⟨elems,holds⟩ := holds_counts (g := g) s.delays met
    have longer := length_build holds (s.masks met)
    simp [Grows,analyzeNode,longer,longer.le]
  · simp [Grows,analyzeNode,here,Function.update_of_ne (Ne.symm here)]

private theorem grows_analyzeContentions (node : Fin count) (s : g.State) :
    g.Grows s (g.analyzeContentions s) node (g.Contended node) := by
  have stage : ∀ (s : g.State) (st : PipelineStage count), g.Grows s
      (if st.orderPolicy = .outOfOrder then st.fus.foldl (fun s fu => fu.nodes.foldl g.analyzeNode s) s else s) node
      (st.orderPolicy = .outOfOrder ∧ ∃ fu ∈ st.fus, ∃ met ∈ fu.nodes, met = node) := by
    intro s st
    by_cases out : st.orderPolicy = .outOfOrder
    · simp only [out,if_true,true_and]
      exact grows_foldl (fun s fu => grows_foldl (grows_analyzeNode node) fu.nodes s) st.fus s
    · simp [out,Grows]
  simpa [Contended,analyzeContentions] using grows_foldl stage g.pipeline s

theorem analyze_grows {k : Nat} {s s' : g.State} (analyzed : g.analyze k s = some s') (node : Fin count) :
    g.Grows s s' node (g.Contended node) := by
  simp only [analyze,Option.bind_eq_bind,Option.pure_def,Option.bind_eq_some_iff,Option.some.injEq] at analyzed
  obtain ⟨cleared,-,delays,-,rfl⟩ := analyzed
  exact grows_analyzeContentions node { s with delays := delays }

theorem exists_analyze (g : ContentionGraph count) (acyclic : ∀ n, ¬ Relation.TransGen g.graph.Edge n n)
    (reachable : ∀ n, Relation.ReflTransGen g.graph.Edge g.firstNode n) {k : Nat} (enough : count ≤ k) (s : g.State) :
    ∃ s', g.analyze k s = some s' := by
  obtain ⟨order,-,-,-,runs⟩ := Preorder.loop_create (g := g.graph) g.firstNode acyclic reachable
  have cleared : g.clearDelays k s.delays = some _ := runs k enough _ _ s.delays
  have delays : ∀ s, g.propagate k s = some _ := fun s => runs k enough _ _ s
  simp [analyze,cleared,delays]

/-- The first list of a node has each subset of its possible contenders once and nothing else; a
    new analysis of the graph leaves the list of a node only when it makes none. -/
theorem masks_again_iff (possible : BitVector n) (elems : Fin n → Bool) (holds : Holds possible elems false)
    (g : ContentionGraph count) (k : Nat) (first second : g.State) (again : g.analyze k first = some second)
    (node : Fin count) :
    (∀ S, ((buildContendersMasks possible []).map BitVector.bit).count S =
      if ∀ i, S i = true → elems i = true then 1 else 0) ∧
    (second.masks node = first.masks node ↔ ¬g.Contended node) := by
  have grows := analyze_grows again node
  refine ⟨(subsets_build holds).counts,fun same met => ?_,grows.2.2⟩
  have longer := grows.2.1 met
  rw [same] at longer
  exact lt_irrefl _ longer

end ContentionGraph

attribute [local instance] neZero_four

def unitStage : ParExeStage 4 := ⟨.fu,.inOrder,[1,3]⟩

private theorem zero_ne_one : (0 : Fin 4) ≠ 1 := by decide
private theorem zero_ne_two : (0 : Fin 4) ≠ 2 := by decide
private theorem two_ne_three : (2 : Fin 4) ≠ 3 := by decide

/-- The fetch and the execution of two instructions, the first of them in the prologue. -/
def pair : ContentionGraph 4 where
  edges := [⟨0,1,.solid,0,zero_ne_one⟩,⟨0,2,.slashed,0,zero_ne_two⟩,⟨2,3,.solid,0,two_ne_three⟩]
  firstNode := 0
  latency _ := 1
  stage n := if n = 1 ∨ n = 3 then unitStage else ⟨.fetch,.inOrder,[0,2]⟩
  resources := [⟨0,.blockStart⟩]
  numbered := by decide
  inst n := if n.val < 2 then 0 else 1
  lastPrologueNode := some 1
  pipeline := [⟨.inOrder,[]⟩,⟨.outOfOrder,[unitStage]⟩]
  queueSizes := [4]
  width _ := 1
  own := by simp [unitStage]

def created (g : ContentionGraph count) : g.State where
  delays := ⟨fun _ _ => false,fun _ _ => 0,fun _ _ => false,fun _ => none⟩
  possible _ := none
  late _ := 0
  masks _ := []

theorem masks_again_pair : ∃ second, pair.analyze 4 (created pair) = some second ∧
    (∀ S, ((buildContendersMasks ((BitVector.make 3 false).set 1) []).map BitVector.bit).count S =
      if ∀ i, S i = true → Function.update (fun _ => false) 1 true i = true then 1 else 0) ∧
    (second.masks 3 = [] ↔ ¬pair.Contended 3) := by
  have returns : (pair.analyze 4 (created pair)).isSome = true := by decide +kernel
  obtain ⟨second,again⟩ := Option.isSome_iff_exists.mp returns
  exact ⟨second,again,ContentionGraph.masks_again_iff _ _ ((holds_make false).set 1) pair 4 _ second again 3⟩

theorem exists_analyze_pair : ∃ s, pair.analyze 4 (created pair) = some s := by
  have first : pair.graph.Edge 0 1 := ⟨_,List.mem_cons_self,rfl,rfl⟩
  have second : pair.graph.Edge 0 2 := ⟨_,List.mem_cons_of_mem _ List.mem_cons_self,rfl,rfl⟩
  have third : pair.graph.Edge 2 3 := ⟨_,List.mem_cons_of_mem _ (List.mem_cons_of_mem _ List.mem_cons_self),rfl,rfl⟩
  have ascends {a b : Fin 4} (edge : pair.graph.Edge a b) : a < b := by
    obtain ⟨e,member,rfl,rfl⟩ := edge
    revert e
    decide
  have acyclic (n : Fin 4) (cycle : Relation.TransGen pair.graph.Edge n n) : False := by
    have path {a b : Fin 4} (path : Relation.TransGen pair.graph.Edge a b) : a < b := by
      induction path with
      | single edge => exact ascends edge
      | tail _ edge ih => exact ih.trans (ascends edge)
    exact lt_irrefl n (path cycle)
  refine pair.exists_analyze acyclic (fun n => ?_) (Nat.le_refl 4) _
  match n with
  | 0 => exact .refl
  | 1 => exact .single first
  | 2 => exact .single second
  | 3 => exact (Relation.ReflTransGen.single second).tail third

/-- The second instruction has one possible contender: its two subsets become four masks. -/
theorem masks_doubled : ¬∀ (count : Nat) (g : ContentionGraph count) (k : Nat) (first second : g.State),
    g.analyze k (created g) = some first → g.analyze k first = some second →
    ∀ node, second.masks node = first.masks node := by
  intro all
  have lengths : ((pair.analyze 4 (created pair)).map fun s => (s.masks 3).length) = some 2 ∧
      (((pair.analyze 4 (created pair)).bind (pair.analyze 4)).map fun s => (s.masks 3).length) = some 4 := by
    decide +kernel
  obtain ⟨once,twice⟩ := lengths
  obtain ⟨first,analyzed,short⟩ := Option.map_eq_some_iff.mp once
  rw [analyzed,Option.bind_some] at twice
  obtain ⟨second,again,long⟩ := Option.map_eq_some_iff.mp twice
  have same := all 4 pair 4 first second analyzed again 3
  rw [same,short] at long
  exact absurd long (by decide)

end Otawa.ParExe
