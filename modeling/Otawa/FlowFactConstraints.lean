import Otawa.Dominance
import Otawa.Ilp
import Mathlib.Tactic.Linarith
import Mathlib.Tactic.FinCases

/-!
`FlowFactConstraintBuilder`: the bounds of a loop as constraints on the edges that enter its
header, when the first iterations of the loop may have been unrolled. The header and its
unrolled copies cut the loop into regions, one for each copy, and an activation goes through
them one after the other. A minimum below the number of copies forbids the remaining loop,
and the total counts entries of the loop as iterations (`constraints_faithful_iff`).
-/
namespace Otawa.FlowFactConstraints
open Otawa.Cfg
open Otawa.Ilp

variable {n m : Nat}

/-! ### The constraints -/

/-- MAX_ITERATION, MIN_ITERATION and TOTAL_ITERATION of a header; an absent one is negative. -/
structure Bounds where
  max : Int
  min : Int
  total : Int

/-- `0 = sum{(i, h)} eih`, the sum being added `times` times. -/
def zeroConstraint (g : CFG n m) (bb : Fin n) (times : Nat) : Constraint (Fin m) :=
  (List.range times).foldl (fun cons _ => (g.ins bb).foldl (fun cons e => cons.addLeft 1 (some e)) cons)
    (Constraint.new .eq 0)

def addBound (g : CFG n m) (dom : DominanceInfo n m) (bb : Fin n) (bound : Int) (cons : Constraint (Fin m))
    (e : Fin m) : Constraint (Fin m) :=
  if bb ∈ dom.reverseDom (g.source e) then cons.addLeft 1 (some e)
  else cons.addRight (if bound < 0 then 0 else bound) (some e)

def iterationConstraints (g : CFG n m) (dom : DominanceInfo n m) (unrolled : List (Fin n)) (bb : Fin n)
    (comparator : Comparator) (bound : Int) : List (Constraint (Fin m)) :=
  let bound := bound-unrolled.length
  (if bound < 0 then [zeroConstraint g bb (-bound).toNat] else []) ++
    [(g.ins bb).foldl (addBound g dom bb bound) (Constraint.new comparator 0)]

def maxConstraints (g : CFG n m) (dom : DominanceInfo n m) (unrolled : List (Fin n)) (bb : Fin n) (max : Int) :=
  iterationConstraints g dom unrolled bb .le max
def minConstraints (g : CFG n m) (dom : DominanceInfo n m) (unrolled : List (Fin n)) (bb : Fin n) (min : Int) :=
  iterationConstraints g dom unrolled bb .ge min

/-- The body of the loop over the unrolled headers, `dominates(edge->source(), hd)`. -/
def addUnrolled (g : CFG n m) (dom : DominanceInfo n m) (cons : Constraint (Fin m)) (hd : Fin n) : Constraint (Fin m) :=
  (g.ins hd).foldl
    (fun cons e => if g.source e ∈ dom.reverseDom hd then cons.addLeft 1 (some e) else cons) cons

/-- `sum{h dom i} eih + sum{u in unrolled(h)} eiu <= total`. -/
def totalConstraint (g : CFG n m) (dom : DominanceInfo n m) (unrolled : List (Fin n)) (bb : Fin n) (total : Int) :
    Constraint (Fin m) :=
  unrolled.foldl (addUnrolled g dom) ((g.ins bb).foldl
    (fun cons e => if bb ∈ dom.reverseDom (g.source e) then cons.addLeft 1 (some e) else cons)
    ((Constraint.new .le 0).addRight total none))

/-- `sum{h dom i} eih <= total * sum{(i, h) / not h dom i} eih`. -/
def zeroTotalConstraint (g : CFG n m) (dom : DominanceInfo n m) (bb : Fin n) (total : Int) : Constraint (Fin m) :=
  (g.ins bb).foldl
    (fun cons e => if bb ∈ dom.reverseDom (g.source e) then cons.addLeft 1 (some e) else cons.addRight total (some e))
    (Constraint.new .le 0)

/-- `processBB`: the constraints it adds for a block. `unrolled` are the blocks that
    UNROLLED_FROM leads to from the block, one after the other. `Dominance::dominates` is read
    from its sets, its assertion being met (`dominates_spec`). -/
def processBB (g : CFG n m) (dom : DominanceInfo n m) (unrolled : List (Fin n)) (bounds : Bounds) (bb : Fin n) :
    List (Constraint (Fin m)) :=
  if ¬ dom.loopHeader bb then []
  else if bounds.max < 0 ∧ bounds.total < 0 then []
  else
    (if bounds.max ≥ 0 then maxConstraints g dom unrolled bb bounds.max else []) ++
    (if bounds.min ≥ 0 then minConstraints g dom unrolled bb bounds.min else []) ++
    (if bounds.total ≥ 0 then
      [totalConstraint g dom unrolled bb bounds.total,zeroTotalConstraint g dom bb bounds.total] else [])

/-- A loop whose first iterations are unrolled, with the marks of `Dominance`. The headers of
    its copies are bb, for the remaining loop, then the unrolled ones, the first iteration last.
    `region` is the copy that a block of the loop belongs to: a copy is entered at its header
    only, the first one from outside and each other one by the back edges of the copy before
    it; the back edges of the remaining loop stay in it. The edges that enter the loop are no
    back edges. -/
structure UnrolledLoop (n m : Nat) where
  graph : CFG n m
  dom : DominanceInfo n m
  bb : Fin n
  unrolled : List (Fin n)
  region : Fin n → Option Nat
  connected : graph.Connected
  dominance : dom.Exact graph
  header : dom.loopHeader bb = true
  outside : region graph.entry = none
  region_le : ∀ b i, region b = some i → i ≤ unrolled.length
  region_header : ∀ i h, (bb :: unrolled)[i]? = some h → region h = some i
  region_target : ∀ e i, graph.kind e ≠ .call → region (graph.target e) = some i →
    region (graph.source e) = some i ∧ (i = 0 ∨ (bb :: unrolled)[i]? ≠ some (graph.target e)) ∨
    region (graph.source e) = some (i+1) ∧ (bb :: unrolled)[i]? = some (graph.target e) ∨
    region (graph.source e) = none ∧ (bb :: unrolled)[i]? = some (graph.target e) ∧ i = unrolled.length
  enters : ∀ e, graph.kind e ≠ .call → region (graph.source e) = none → region (graph.target e) ≠ none →
    ¬ graph.Dominates (graph.target e) (graph.source e)

def Walk (g : CFG n m) : Fin n → List (Fin m) → Prop
  | _, [] => True
  | b, e :: es => g.kind e ≠ .call ∧ g.source e = b ∧ Walk g (g.target e) es

namespace UnrolledLoop
variable (l : UnrolledLoop n m)

def entering (e : Fin m) : Bool :=
  decide (l.region (l.graph.source e) = none ∧ l.region (l.graph.target e) ≠ none)

def isUnrolled (b : Fin n) : Bool := l.unrolled.any fun hd => hd = b

@[simp] theorem isUnrolled_iff {b : Fin n} : l.isUnrolled b = true ↔ b ∈ l.unrolled := by simp [isUnrolled]

/-- A back edge of the original loop: it leads from the loop to the header of a copy. -/
def iterating (e : Fin m) : Bool :=
  decide (l.region (l.graph.source e) ≠ none ∧ (l.graph.target e = l.bb ∨ l.isUnrolled (l.graph.target e)))

theorem iterating_iff {e : Fin m} :
    l.iterating e = true ↔ l.region (l.graph.source e) ≠ none ∧ l.graph.target e ∈ l.bb :: l.unrolled := by
  simp [iterating]

/-- The iterations up to the next entry of the loop, then those of each activation that begins
    there. -/
def scan : List (Fin m) → Nat × List Nat
  | [] => (0,[])
  | e :: es =>
    if l.entering e then (0,(scan es).1 :: (scan es).2)
    else if l.iterating e then ((scan es).1+1,(scan es).2) else scan es

/-- The iterations of each activation of the loop in the runs of its CFG. -/
def activations (runs : List (List (Fin m))) : List Nat := runs.flatMap fun run => (l.scan run).2

/-- The runs of the CFG in an execution that meets the bounds of the loop. -/
structure Meets (bounds : Bounds) (runs : List (List (Fin m))) : Prop where
  walk : ∀ run ∈ runs, Walk l.graph l.graph.entry run
  max : 0 ≤ bounds.max → ∀ j ∈ l.activations runs, (j : Int) ≤ bounds.max
  min : 0 ≤ bounds.min → ∀ j ∈ l.activations runs, bounds.min ≤ (j : Int)
  total : 0 ≤ bounds.total → ((l.activations runs).sum : Int) ≤ bounds.total

/-- How often an execution takes each edge. -/
def counts (runs : List (List (Fin m))) (e : Fin m) : Int := runs.flatten.count e

def remaining (e : Fin m) : Bool := decide (l.graph.target e = l.bb ∧ l.region (l.graph.source e) = some 0)
def resuming (e : Fin m) : Bool := decide (l.graph.target e = l.bb ∧ l.region (l.graph.source e) ≠ some 0)

def iterations (a : Fin m → Int) : Int := (((l.graph.ins l.bb).filter l.remaining).map a).sum
def entries (a : Fin m → Int) : Int := (((l.graph.ins l.bb).filter l.resuming).map a).sum

/-- An edge that enters the first copy from a block that dominates it: the total counts it. -/
def mistaken (e : Fin m) : Bool :=
  decide (l.isUnrolled (l.graph.target e) ∧ l.region (l.graph.source e) = none ∧
    l.graph.source e ∈ l.dom.reverseDom (l.graph.target e))

/-- A back edge of the original loop that the total does not count: it leads to the remaining
    loop, or to another copy from a block that does not dominate it. -/
def missed (e : Fin m) : Bool :=
  decide (l.region (l.graph.source e) ≠ none ∧
    (l.graph.target e = l.bb ∧ l.region (l.graph.source e) ≠ some 0 ∨
      l.isUnrolled (l.graph.target e) ∧ l.graph.source e ∉ l.dom.reverseDom (l.graph.target e)))

/-- Either there are no bounds but a minimum, or no activation reaches the remaining loop when
    the minimum is below the number of copies, and the total stands what is counted by mistake. -/
def Fair (bounds : Bounds) (runs : List (List (Fin m))) : Prop :=
  bounds.max < 0 ∧ bounds.total < 0 ∨
    (0 ≤ bounds.min → bounds.min < l.unrolled.length → ∀ j ∈ l.activations runs, j < l.unrolled.length) ∧
    (0 ≤ bounds.total → (l.activations runs).sum+(runs.flatten.countP l.mistaken : Int) ≤
      bounds.total+runs.flatten.countP l.missed)

theorem region_bb : l.region l.bb = some 0 := l.region_header 0 l.bb rfl

theorem getElem_header {h : Fin n} (mem : h ∈ l.bb :: l.unrolled) {i : Nat} (inside : l.region h = some i) :
    (l.bb :: l.unrolled)[i]? = some h := by
  obtain ⟨j,found⟩ := List.mem_iff_getElem?.mp mem
  have same := (l.region_header j h found).symm.trans inside
  cases same
  exact found

theorem region_of_mem {h : Fin n} (mem : h ∈ l.bb :: l.unrolled) : l.region h ≠ none := by
  obtain ⟨j,found⟩ := List.mem_iff_getElem?.mp mem
  rw [l.region_header j h found]
  simp

theorem nodup_headers : (l.bb :: l.unrolled).Nodup := by
  rw [List.nodup_iff_getElem?_ne_getElem?]
  intro i j less inside same
  have found : (l.bb :: l.unrolled)[j]? = some (l.bb :: l.unrolled)[j] := List.getElem?_eq_getElem inside
  have region := (l.region_header i _ (same.trans found)).symm.trans (l.region_header j _ found)
  cases region
  exact lt_irrefl _ less

theorem bb_notMem : l.bb ∉ l.unrolled := (List.nodup_cons.mp l.nodup_headers).1

def Avoids (b : Fin n) : Prop := ∃ visited, FlowGraph.Path l.graph.Flow l.graph.entry visited b ∧ l.bb ∉ visited

theorem avoids_step {l : UnrolledLoop n m} {a b : Fin n} (avoids : l.Avoids a) (flow : l.graph.Flow a b)
    (other : b ≠ l.bb) : l.Avoids b := by
  obtain ⟨visited,path,without⟩ := avoids
  exact ⟨b :: visited,path.step flow,by rw [List.mem_cons,not_or]; exact ⟨Ne.symm other,without⟩⟩

theorem avoids_of_region (several : 0 < l.unrolled.length) {first : Fin n}
    (isFirst : (l.bb :: l.unrolled)[l.unrolled.length]? = some first) {visited : List (Fin n)} {b : Fin n}
    (path : FlowGraph.Path l.graph.Flow l.graph.entry visited b) :
    (l.Avoids b ∨ l.Avoids first) ∧ (l.region b ≠ none → l.Avoids first) ∧
      ∀ i, l.region b = some (i+1) → l.Avoids b := by
  have other {b : Fin n} (region : l.region b ≠ some 0) : b ≠ l.bb := fun same => region (same ▸ l.region_bb)
  induction path with
  | root =>
    have start : l.Avoids l.graph.entry :=
      ⟨_,.root,by rw [List.mem_singleton]; exact Ne.symm (other (by simp [l.outside]))⟩
    exact ⟨.inl start,fun inside => absurd l.outside inside,fun _ _ => start⟩
  | @step visited a b _ flow ih =>
    obtain ⟨reached,entered,copied⟩ := ih
    have ⟨e,kind,source,target⟩ := flow
    cases region : l.region b with
    | none =>
      refine ⟨?_,by simp,by simp⟩
      rcases reached with here | first
      · exact .inl (avoids_step here flow (other (by simp [region])))
      · exact .inr first
    | some i =>
      have from_ := l.region_target e i kind (target ▸ region)
      rw [source,target] at from_
      cases i with
      | zero =>
        have started : l.Avoids first := by
          rcases from_ with ⟨inside,_⟩ | ⟨before,_⟩ | ⟨_,_,last⟩
          · exact entered (by simp [inside])
          · exact entered (by simp [before])
          · omega
        exact ⟨.inr started,fun _ => started,by simp⟩
      | succ i =>
        have notBb := other (b := b) (by simp [region])
        rcases from_ with ⟨inside,_⟩ | ⟨before,_⟩ | ⟨_,isHeader,last⟩
        · have here := avoids_step (copied i inside) flow notBb
          exact ⟨.inl here,fun _ => entered (by simp [inside]),fun _ _ => here⟩
        · have here := avoids_step (copied (i+1) before) flow notBb
          exact ⟨.inl here,fun _ => entered (by simp [before]),fun _ _ => here⟩
        · have same : b = first := by
            rw [last,isFirst] at isHeader
            exact (Option.some.inj isHeader).symm
          have started : l.Avoids first := by
            rcases reached with here | started
            · exact same ▸ avoids_step here flow notBb
            · exact started
          exact ⟨.inr started,fun _ => started,fun _ _ => same ▸ started⟩

/-- The dominance tests tell the back edges of the remaining loop from its entries. -/
theorem dominates_iff {e : Fin m} (mem : e ∈ l.graph.ins l.bb) :
    l.bb ∈ l.dom.reverseDom (l.graph.source e) ↔ l.region (l.graph.source e) = some 0 := by
  obtain ⟨kind,target⟩ := l.graph.mem_ins.mp mem
  rw [l.dominance.dominators]
  constructor
  · intro dom
    have from_ := l.region_target e 0 kind (target ▸ l.region_bb)
    rcases from_ with ⟨inside,_⟩ | ⟨before,_⟩ | ⟨outside,_⟩
    · exact inside
    · obtain ⟨visited,path⟩ := l.connected e kind
      have several : 0 < l.unrolled.length := l.region_le _ _ before
      obtain ⟨_,avoiding,without⟩ :=
        (l.avoids_of_region several (List.getElem?_eq_getElem (by simp)) path).2.2 0 before
      exact absurd (dom _ avoiding) without
    · exact absurd (target ▸ dom) (l.enters e kind outside (by simp [target,l.region_bb]))
  · intro inside
    refine FlowGraph.dominates_of_cut (p := fun b => l.region b ≠ some 0) (by simp [l.outside]) ?_ (by simp [inside])
    rintro a b notIn ⟨e,kind,rfl,rfl⟩ other region
    rcases l.region_target e 0 kind region with ⟨inside,_⟩ | ⟨_,isHeader⟩ | ⟨_,isHeader,_⟩
    · exact notIn inside
    · exact other (Option.some.inj isHeader).symm
    · exact other (Option.some.inj isHeader).symm

/-! ### What an execution counts -/

/-- The iterations that a walk makes are those of the activation it starts in and of the next ones. -/
theorem count_iterating (run : List (Fin m)) :
    run.countP l.iterating = (l.scan run).1+(l.scan run).2.sum := by
  induction run with
  | nil => rfl
  | cons e es ih =>
    rw [List.countP_cons,ih,scan]
    by_cases enter : l.entering e = true
    · have no : l.iterating e = false := by
        simp only [entering,decide_eq_true_eq] at enter
        simp [iterating,enter.1]
      simp [enter,no]
    · by_cases iterate : l.iterating e = true
      · simp [enter,iterate]; omega
      · simp [enter,iterate]

/-- What an activation with j iterations adds from the copy i on: it goes through the header
    of the remaining loop, and iterates there, when enough iterations are left. -/
structure Counted (i j : Nat) (acts : List Nat) (es : List (Fin m)) : Prop where
  remaining : es.countP l.remaining = j-i+(acts.map fun a => a-l.unrolled.length).sum
  resuming : es.countP l.resuming = (if 0 < i ∧ i ≤ j then 1 else 0)+acts.countP (l.unrolled.length ≤ ·)

theorem walk_counted {b : Fin n} {run : List (Fin m)} (walk : Walk l.graph b run) :
    (l.region b = none → (l.scan run).1 = 0 ∧ l.Counted 0 0 (l.scan run).2 run) ∧
      ∀ i, l.region b = some i → l.Counted i (l.scan run).1 (l.scan run).2 run := by
  induction run generalizing b with
  | nil =>
    refine ⟨fun _ => ⟨rfl,by simp [scan],by simp [scan]⟩,fun i _ => ⟨by simp [scan],?_⟩⟩
    have never : ¬ (0 < i ∧ i ≤ 0) := by omega
    rw [scan,if_neg never]
    rfl
  | cons e es ih =>
    obtain ⟨kind,rfl,rest⟩ := walk
    obtain ⟨ihOut,ihIn⟩ := ih rest
    cases region : l.region (l.graph.target e) with
    | none =>
      -- the edge stays outside or leaves the loop
      have notHeader : l.graph.target e ∉ l.bb :: l.unrolled := fun mem => l.region_of_mem mem region
      have notBb : l.graph.target e ≠ l.bb := fun same => notHeader (by simp [same])
      have enter : l.entering e = false := by simp [entering,region]
      have iterate : l.iterating e = false := by
        rw [Bool.eq_false_iff,Ne,iterating_iff]
        exact fun both => notHeader both.2
      have scanned : l.scan (e :: es) = l.scan es := by simp [scan,enter,iterate]
      obtain ⟨ended,counted⟩ := ihOut region
      have zero : l.Counted 0 0 (l.scan es).2 (e :: es) :=
        ⟨by simp [remaining,notBb,counted.remaining],
          by simp [resuming,notBb,counted.resuming]⟩
      rw [scanned]
      refine ⟨fun _ => ⟨ended,zero⟩,fun i _ => ⟨?_,?_⟩⟩
      · rw [zero.remaining,ended]; omega
      · have never : ¬ (0 < i ∧ i ≤ 0) := by omega
        rw [zero.resuming,ended,if_neg never,if_neg (by omega)]
    | some t =>
      have counted := ihIn t region
      rcases l.region_target e t kind region with ⟨inside,which⟩ | ⟨before,isHeader⟩ | ⟨outer,isHeader,last⟩
      · -- the edge stays in its copy
        have enter : l.entering e = false := by simp [entering,inside]
        refine ⟨by simp [inside],fun i from_ => ?_⟩
        obtain rfl : t = i := Option.some.inj (inside.symm.trans from_)
        by_cases back : l.graph.target e = l.bb
        · have start : t = 0 := Option.some.inj (region.symm.trans (back ▸ l.region_bb))
          subst start
          have iterate : l.iterating e = true := by simp [iterating,inside,back]
          have scanned : l.scan (e :: es) = ((l.scan es).1+1,(l.scan es).2) := by simp [scan,enter,iterate]
          rw [scanned]
          refine ⟨?_,?_⟩
          · simp only [List.countP_cons,remaining,back,inside,counted.remaining,and_self,decide_true,if_true]
            omega
          · simp [resuming,back,inside,counted.resuming]
        · have iterate : l.iterating e = false := by
            rw [Bool.eq_false_iff,Ne,iterating_iff]
            rintro ⟨_,mem⟩
            have found := l.getElem_header mem region
            rcases which with rfl | other
            · exact back (Option.some.inj found).symm
            · exact other found
          have scanned : l.scan (e :: es) = l.scan es := by simp [scan,enter,iterate]
          rw [scanned]
          exact ⟨by simp [remaining,back,counted.remaining],
            by simp [resuming,back,counted.resuming]⟩
      · -- a back edge of the copy before
        have enter : l.entering e = false := by simp [entering,before]
        have iterate : l.iterating e = true :=
          l.iterating_iff.mpr ⟨by simp [before],List.mem_iff_getElem?.mpr ⟨t,isHeader⟩⟩
        have scanned : l.scan (e :: es) = ((l.scan es).1+1,(l.scan es).2) := by simp [scan,enter,iterate]
        rw [scanned]
        refine ⟨by simp [before],fun i from_ => ?_⟩
        obtain rfl : t+1 = i := Option.some.inj (before.symm.trans from_)
        have bbIff : l.graph.target e = l.bb ↔ t = 0 := by
          constructor
          · intro same; exact Option.some.inj (region.symm.trans (same ▸ l.region_bb))
          · rintro rfl; exact (Option.some.inj isHeader).symm
        refine ⟨?_,?_⟩
        · simp only [List.countP_cons,remaining,before,counted.remaining,Option.some.injEq,Nat.add_one_ne_zero,and_false,
            decide_false,Bool.false_eq_true,if_false]
          omega
        · simp only [List.countP_cons,resuming,before,counted.resuming,bbIff,ne_eq,Option.some.injEq,
            Nat.add_one_ne_zero,not_false_eq_true,and_true,decide_eq_true_eq]
          split <;> split <;> split <;> omega
      · -- the edge enters the first copy
        have enter : l.entering e = true := by simp [entering,outer,region]
        have scanned : l.scan (e :: es) = (0,(l.scan es).1 :: (l.scan es).2) := by simp [scan,enter]
        have bbIff : l.graph.target e = l.bb ↔ t = 0 := by
          constructor
          · intro same; exact Option.some.inj (region.symm.trans (same ▸ l.region_bb))
          · rintro rfl; exact (Option.some.inj isHeader).symm
        rw [scanned]
        refine ⟨fun _ => ⟨rfl,?_,?_⟩,by simp [outer]⟩
        · simp only [List.countP_cons,remaining,outer,counted.remaining,reduceCtorEq,and_false,decide_false,
            Bool.false_eq_true,if_false,List.map_cons,List.sum_cons,← last]
          omega
        · simp only [List.countP_cons,resuming,outer,counted.resuming,bbIff,ne_eq,reduceCtorEq,not_false_eq_true,and_true,
            decide_eq_true_eq,← last]
          split_ifs <;> omega

theorem walk_kind {b : Fin n} {run : List (Fin m)} (walk : Walk l.graph b run) : ∀ e ∈ run, l.graph.kind e ≠ .call := by
  induction run generalizing b with
  | nil => intro e mem; cases mem
  | cons e es ih =>
    intro d mem
    rcases List.mem_cons.mp mem with rfl | mem
    · exact walk.1
    · exact ih walk.2.2 d mem

theorem runs_counted {runs : List (List (Fin m))} (walk : ∀ run ∈ runs, Walk l.graph l.graph.entry run) :
    l.Counted 0 0 (l.activations runs) runs.flatten ∧ runs.flatten.countP l.iterating = (l.activations runs).sum := by
  induction runs with
  | nil => exact ⟨⟨rfl,rfl⟩,rfl⟩
  | cons run runs ih =>
    obtain ⟨later,iterated⟩ := ih fun run mem => walk run (List.mem_cons_of_mem _ mem)
    obtain ⟨ended,here⟩ := (l.walk_counted (walk run (List.mem_cons_self ..))).1 l.outside
    have count := l.count_iterating run
    simp only [activations,List.flatMap_cons,List.flatten_cons,List.countP_append,List.sum_append] at later iterated ⊢
    refine ⟨⟨?_,?_⟩,by omega⟩
    · rw [List.countP_append,here.remaining,later.remaining,List.map_append,List.sum_append]
      omega
    · rw [List.countP_append,here.resuming,later.resuming,List.countP_append]
      simp

theorem sum_counts (runs : List (List (Fin m))) {es : List (Fin m)} (here : Fin m → Bool) (nodup : es.Nodup)
    (mem : ∀ e ∈ runs.flatten, e ∈ es ↔ here e = true) :
    (es.map (counts runs)).sum = runs.flatten.countP here := by
  have sum := sum_count runs.flatten es nodup
  have same : runs.flatten.countP (· ∈ es) = runs.flatten.countP here :=
    List.countP_congr fun e taken => by simpa using mem e taken
  rw [← same]
  exact sum

section
variable {l : UnrolledLoop n m} {runs : List (List (Fin m))} (walk : ∀ run ∈ runs, Walk l.graph l.graph.entry run)
include walk

theorem kind_taken : ∀ e ∈ runs.flatten, l.graph.kind e ≠ .call := by
  intro e mem
  obtain ⟨run,inRuns,inRun⟩ := List.mem_flatten.mp mem
  exact l.walk_kind (walk run inRuns) e inRun

theorem iterations_counts :
    l.iterations (counts runs) = (((l.activations runs).map fun j => j-l.unrolled.length).sum : Nat) := by
  have counted := (l.runs_counted walk).1.remaining
  rw [iterations,sum_counts runs l.remaining ((l.graph.nodup_ins _).filter _),counted]
  · simp
  · intro e taken
    simp [remaining,kind_taken walk e taken]

theorem entries_counts :
    l.entries (counts runs) = (l.activations runs).countP (l.unrolled.length ≤ ·) := by
  have counted := (l.runs_counted walk).1.resuming
  rw [entries,sum_counts runs l.resuming ((l.graph.nodup_ins _).filter _),counted]
  · simp
  · intro e taken
    simp [resuming,kind_taken walk e taken]

end

/-- The edges that enter an unrolled copy from a block that dominates it. -/
def dominated : List (Fin m) :=
  l.unrolled.flatMap fun hd => (l.graph.ins hd).filter fun e => l.graph.source e ∈ l.dom.reverseDom hd

theorem nodup_dominated : l.dominated.Nodup := by
  refine List.nodup_flatMap.mpr ⟨fun hd _ => (l.graph.nodup_ins hd).filter _,?_⟩
  refine (List.nodup_cons.mp l.nodup_headers).2.imp ?_
  intro hd hd' apart e here there
  simp only [List.mem_filter,CFG.mem_ins] at here there
  exact apart (here.1.2.symm.trans there.1.2)

theorem dominated_counts {runs : List (List (Fin m))} (walk : ∀ run ∈ runs, Walk l.graph l.graph.entry run) :
    (l.dominated.map (counts runs)).sum+l.iterations (counts runs)+(runs.flatten.countP l.missed : Int) =
      (l.activations runs).sum+(runs.flatten.countP l.mistaken : Int) := by
  have copied : (l.dominated.map (counts runs)).sum = runs.flatten.countP fun e =>
      decide (l.graph.target e ∈ l.unrolled ∧ l.graph.source e ∈ l.dom.reverseDom (l.graph.target e)) := by
    refine sum_counts runs _ l.nodup_dominated fun e taken => ?_
    simp only [dominated,List.mem_flatMap,List.mem_filter,CFG.mem_ins,decide_eq_true_eq]
    constructor
    · rintro ⟨hd,mem,⟨_,rfl⟩,dom⟩; exact ⟨mem,dom⟩
    · rintro ⟨mem,dom⟩; exact ⟨_,mem,⟨kind_taken walk e taken,rfl⟩,dom⟩
  have remained : l.iterations (counts runs) = runs.flatten.countP l.remaining := by
    refine sum_counts runs _ ((l.graph.nodup_ins _).filter _) fun e taken => ?_
    simp [remaining,kind_taken walk e taken]
  rw [copied,remained,← (l.runs_counted walk).2]
  norm_cast
  -- each edge is counted on both sides alike
  generalize runs.flatten = es
  induction es with
  | nil => rfl
  | cons e es ih =>
    simp only [List.countP_cons] at ih ⊢
    have here : (if decide (l.graph.target e ∈ l.unrolled ∧ l.graph.source e ∈ l.dom.reverseDom (l.graph.target e)) = true
        then 1 else 0)+(if l.remaining e = true then 1 else 0)+(if l.missed e = true then 1 else 0) =
        (if l.iterating e = true then 1 else 0)+(if l.mistaken e = true then 1 else 0) := by
      simp only [remaining,missed,iterating,mistaken,decide_eq_true_eq,isUnrolled_iff]
      by_cases back : l.graph.target e = l.bb
      · have notCopy := l.bb_notMem
        rw [back]
        by_cases none : l.region (l.graph.source e) = none
        · simp [none,notCopy]
        · by_cases zero : l.region (l.graph.source e) = some 0 <;> simp [none,zero,notCopy]
      · by_cases mem : l.graph.target e ∈ l.unrolled
        · by_cases none : l.region (l.graph.source e) = none <;>
            by_cases dom : l.graph.source e ∈ l.dom.reverseDom (l.graph.target e) <;> simp [back,mem,none,dom]
        · simp [back,mem]
    omega

section
variable (a : Fin m → Int)

theorem filter_dominates : ((l.graph.ins l.bb).filter fun e => l.bb ∈ l.dom.reverseDom (l.graph.source e)) =
    (l.graph.ins l.bb).filter l.remaining := by
  refine List.filter_congr fun e mem => ?_
  have target := (l.graph.mem_ins.mp mem).2
  simp [remaining,target,l.dominates_iff mem]

theorem filter_not_dominates : ((l.graph.ins l.bb).filter fun e => ¬ l.bb ∈ l.dom.reverseDom (l.graph.source e)) =
    (l.graph.ins l.bb).filter l.resuming := by
  refine List.filter_congr fun e mem => ?_
  have target := (l.graph.mem_ins.mp mem).2
  simp [resuming,target,l.dominates_iff mem]

theorem sum_dominates (bound : Int) : ((l.graph.ins l.bb).map fun e =>
    if l.bb ∈ l.dom.reverseDom (l.graph.source e) then a e else -bound * a e).sum =
      l.iterations a-bound * l.entries a := by
  rw [List.sum_map_ite,filter_dominates,filter_not_dominates,List.sum_map_mul_left,iterations,entries]
  ring

theorem sum_ins : ((l.graph.ins l.bb).map a).sum = l.iterations a+l.entries a := by
  have sum := l.sum_dominates a (-1)
  simp only [neg_neg,one_mul,ite_self] at sum
  rw [sum]
  ring

theorem excess_zeroConstraint (times : Nat) :
    (zeroConstraint l.graph l.bb times).excess a = times * (l.iterations a+l.entries a) := by
  have once : ∀ (cons : Constraint (Fin m)) (_ : Nat),
      ((l.graph.ins l.bb).foldl (fun cons e => cons.addLeft 1 (some e)) cons).excess a =
        cons.excess a+(l.iterations a+l.entries a) := by
    intro cons _
    rw [Constraint.excess_foldl a _ a (fun cons e => by simp),sum_ins]
  rw [zeroConstraint,Constraint.excess_foldl a _ _ once,Constraint.excess_new]
  simp

theorem excess_bound (comparator : Comparator) (bound : Int) :
    ((l.graph.ins l.bb).foldl (addBound l.graph l.dom l.bb bound) (Constraint.new comparator 0)).excess a =
      l.iterations a-(if bound < 0 then 0 else bound) * l.entries a := by
  rw [Constraint.excess_foldl a _
    (fun e => if l.bb ∈ l.dom.reverseDom (l.graph.source e) then a e else -(if bound < 0 then 0 else bound) * a e),
    sum_dominates,Constraint.excess_new]
  · ring
  · intro cons e
    unfold addBound
    split <;> simp only [Constraint.excess_addLeft,Constraint.excess_addRight,Option.elim_some] <;> ring

theorem excess_zeroTotal (total : Int) :
    (zeroTotalConstraint l.graph l.dom l.bb total).excess a = l.iterations a-total * l.entries a := by
  rw [zeroTotalConstraint,Constraint.excess_foldl a _
    (fun e => if l.bb ∈ l.dom.reverseDom (l.graph.source e) then a e else -total * a e),sum_dominates,
    Constraint.excess_new]
  · ring
  · intro cons e
    split <;> simp only [Constraint.excess_addLeft,Constraint.excess_addRight,Option.elim_some] <;> ring

theorem excess_total (total : Int) :
    (totalConstraint l.graph l.dom l.unrolled l.bb total).excess a =
      l.iterations a+(l.dominated.map a).sum-total := by
  have copies : ∀ (cons : Constraint (Fin m)) (hd : Fin n), (addUnrolled l.graph l.dom cons hd).excess a =
      cons.excess a+(((l.graph.ins hd).filter fun e => l.graph.source e ∈ l.dom.reverseDom hd).map a).sum := by
    intro cons hd
    rw [addUnrolled,Constraint.excess_foldl a _ (fun e => if l.graph.source e ∈ l.dom.reverseDom hd then a e else 0),
      List.sum_map_ite]
    · simp
    · intro cons e
      split <;> simp
  have backs := l.sum_dominates a 0
  simp only [neg_zero,zero_mul,sub_zero] at backs
  rw [totalConstraint,Constraint.excess_foldl a _ _ copies,Constraint.excess_foldl a _
    (fun e => if l.bb ∈ l.dom.reverseDom (l.graph.source e) then a e else 0),backs]
  · have flat : (l.dominated.map a).sum = (l.unrolled.map fun hd =>
        (((l.graph.ins hd).filter fun e => l.graph.source e ∈ l.dom.reverseDom hd).map a).sum).sum := by
      unfold dominated
      induction l.unrolled with
      | nil => rfl
      | cons hd hds ih => rw [List.flatMap_cons,List.map_append,List.sum_append,ih,List.map_cons,List.sum_cons]
    rw [flat]
    simp only [Constraint.excess_addRight,Constraint.excess_new,Option.elim_none]
    ring
  · intro cons e
    split <;> simp

theorem holds_iterationConstraints (comparator : Comparator) (bound : Int) :
    (∀ cons ∈ iterationConstraints l.graph l.dom l.unrolled l.bb comparator bound, cons.Holds a) ↔
      (bound < l.unrolled.length → l.iterations a+l.entries a = 0) ∧
        comparator.Rel (l.iterations a-(if bound < l.unrolled.length then 0 else bound-l.unrolled.length) * l.entries a)
          0 := by
  have shift : bound-l.unrolled.length < 0 ↔ bound < l.unrolled.length := by omega
  have main : ((l.graph.ins l.bb).foldl (addBound l.graph l.dom l.bb (bound-l.unrolled.length))
      (Constraint.new comparator 0)).comparator = comparator := by
    rw [Constraint.comparator_foldl]
    · rfl
    · intro cons e
      unfold addBound
      split <;> simp
  have zero : ∀ times : Nat, (zeroConstraint l.graph l.bb times).comparator = .eq := by
    intro times
    rw [zeroConstraint,Constraint.comparator_foldl]
    · rfl
    · intro cons _
      exact Constraint.comparator_foldl _ (fun cons e => by simp) _ cons
  have bounded := l.excess_bound a comparator (bound-l.unrolled.length)
  simp only [shift] at bounded
  simp only [iterationConstraints,shift]
  by_cases few : bound < l.unrolled.length
  · have times : ((-(bound-l.unrolled.length)).toNat : Int) ≠ 0 := by omega
    simp only [few,if_true,List.cons_append,List.nil_append,List.mem_cons,List.not_mem_nil,or_false,forall_eq_or_imp,
      forall_eq,Constraint.holds_iff,zero,main,bounded,excess_zeroConstraint,Comparator.Rel,mul_eq_zero,times,false_or,
      true_implies]
  · simp only [few,if_false,List.nil_append,List.mem_singleton,forall_eq,Constraint.holds_iff,main,bounded,
      false_implies,true_and]

theorem holds_total (total : Int) : (totalConstraint l.graph l.dom l.unrolled l.bb total).Holds a ↔
    l.iterations a+(l.dominated.map a).sum ≤ total := by
  have le : (totalConstraint l.graph l.dom l.unrolled l.bb total).comparator = .le := by
    rw [totalConstraint,Constraint.comparator_foldl,Constraint.comparator_foldl]
    · rfl
    · intro cons e
      split <;> simp
    · intro cons hd
      refine Constraint.comparator_foldl _ (fun cons e => ?_) _ cons
      split <;> simp
  rw [Constraint.holds_iff,le,excess_total,Comparator.Rel]
  omega

theorem holds_zeroTotal (total : Int) : (zeroTotalConstraint l.graph l.dom l.bb total).Holds a ↔
    l.iterations a ≤ total * l.entries a := by
  have le : (zeroTotalConstraint l.graph l.dom l.bb total).comparator = .le := by
    rw [zeroTotalConstraint,Constraint.comparator_foldl]
    · rfl
    · intro cons e
      split <;> simp
  rw [Constraint.holds_iff,le,excess_zeroTotal,Comparator.Rel]
  omega

end

theorem holds_processBB (a : Fin m → Int) (bounds : Bounds) :
    (∀ cons ∈ processBB l.graph l.dom l.unrolled bounds l.bb, cons.Holds a) ↔
      bounds.max < 0 ∧ bounds.total < 0 ∨
        (0 ≤ bounds.max → ∀ cons ∈ maxConstraints l.graph l.dom l.unrolled l.bb bounds.max, cons.Holds a) ∧
        (0 ≤ bounds.min → ∀ cons ∈ minConstraints l.graph l.dom l.unrolled l.bb bounds.min, cons.Holds a) ∧
        (0 ≤ bounds.total → l.iterations a+(l.dominated.map a).sum ≤ bounds.total ∧
          l.iterations a ≤ bounds.total * l.entries a) := by
  have pieces (p : Prop) [Decidable p] (conss : List (Constraint (Fin m))) :
      (∀ cons ∈ (if p then conss else []), cons.Holds a) ↔ (p → ∀ cons ∈ conss, cons.Holds a) := by
    by_cases here : p <;> simp [here]
  by_cases absent : bounds.max < 0 ∧ bounds.total < 0
  · simp [processBB,absent]
  · simp only [processBB,l.header,not_true_eq_false,if_false,absent,false_or,List.forall_mem_append,pieces,ge_iff_le,
      List.mem_cons,List.not_mem_nil,or_false,forall_eq_or_imp,forall_eq,holds_total,holds_zeroTotal,and_assoc]

end UnrolledLoop

/-! ### The bounds of the activations -/

section
variable {k : Nat} {acts : List Nat}

theorem none_resumes (early : ∀ j ∈ acts, j < k) :
    (acts.map fun j => j-k).sum = 0 ∧ acts.countP (k ≤ ·) = 0 := by
  refine ⟨List.sum_eq_zero fun j mem => ?_,List.countP_eq_zero.mpr fun j mem => ?_⟩
  · obtain ⟨i,inside,rfl⟩ := List.mem_map.mp mem
    have less := early i inside
    omega
  · have less := early j mem
    simpa using less

theorem sum_le_max {max : Int} (most : ∀ j ∈ acts, (j : Int) ≤ max) :
    ((acts.map fun j => j-k).sum : Int) ≤ (max-k) * acts.countP (k ≤ ·) := by
  induction acts with
  | nil => simp
  | cons j acts ih =>
    have here := most j (List.mem_cons_self ..)
    have later := ih fun i mem => most i (List.mem_cons_of_mem _ mem)
    rw [List.map_cons,List.sum_cons,List.countP_cons]
    by_cases reached : k ≤ j
    · have left : ((j-k : Nat) : Int) = j-k := by omega
      simp only [reached,decide_true,if_true]
      rw [Nat.cast_add,left,Nat.cast_add,Nat.cast_one]
      linarith
    · have zero : j-k = 0 := by omega
      simp only [reached,decide_false,Bool.false_eq_true,if_false,zero]
      simpa using later

theorem sum_ge_min {min : Int} (enough : (k : Int) ≤ min) (least : ∀ j ∈ acts, min ≤ (j : Int)) :
    (min-k) * acts.countP (k ≤ ·) ≤ ((acts.map fun j => j-k).sum : Int) := by
  induction acts with
  | nil => simp
  | cons j acts ih =>
    have here := least j (List.mem_cons_self ..)
    have later := ih fun i mem => least i (List.mem_cons_of_mem _ mem)
    have reached : k ≤ j := by omega
    rw [List.map_cons,List.sum_cons,List.countP_cons]
    have left : ((j-k : Nat) : Int) = j-k := by omega
    simp only [reached,decide_true,if_true]
    rw [Nat.cast_add,Nat.cast_add,left,Nat.cast_one]
    linarith

theorem sum_le_total {total : Int} (all : (acts.sum : Int) ≤ total) :
    ((acts.map fun j => j-k).sum : Int) ≤ total * acts.countP (k ≤ ·) := by
  have fewer : (acts.map fun j => j-k).sum ≤ acts.sum := by
    have pointwise := List.sum_le_sum (l := acts) (f := fun j => j-k) (g := fun j => j) fun j _ => Nat.sub_le j k
    simpa using pointwise
  by_cases entered : acts.countP (k ≤ ·) = 0
  · have early : ∀ j ∈ acts, j < k := by
      intro j mem
      have less := List.countP_eq_zero.mp entered j mem
      simpa using less
    rw [(none_resumes early).1,entered]
    simp
  · have once : (1 : Int) ≤ acts.countP (k ≤ ·) := by omega
    have positive : (0 : Int) ≤ total := by omega
    calc ((acts.map fun j => j-k).sum : Int) ≤ total := by omega
      _ = total * 1 := (mul_one _).symm
      _ ≤ total * acts.countP (k ≤ ·) := mul_le_mul_of_nonneg_left once positive

end

/-- The counts of an execution that meets the bounds satisfy the constraints, and counts where
    the remaining loop iterates too much do not, exactly when the bounds are fair to it. -/
theorem constraints_faithful_iff (l : UnrolledLoop n m) (bounds : Bounds) (runs : List (List (Fin m)))
    (meets : l.Meets bounds runs) :
    ((∀ cons ∈ processBB l.graph l.dom l.unrolled bounds l.bb, cons.Holds (UnrolledLoop.counts runs)) ∧
      ∀ a : Fin m → Int, (∀ e, 0 ≤ a e) → 0 ≤ bounds.max →
        (bounds.max-l.unrolled.length) * l.entries a < l.iterations a →
        ∃ cons ∈ processBB l.graph l.dom l.unrolled bounds l.bb, ¬ cons.Holds a) ↔
      l.Fair bounds runs := by
  have iterations := UnrolledLoop.iterations_counts meets.walk
  have entries := UnrolledLoop.entries_counts meets.walk
  have balance := l.dominated_counts meets.walk
  have exceeding : ∀ a : Fin m → Int, (∀ e, 0 ≤ a e) → 0 ≤ bounds.max →
      (bounds.max-l.unrolled.length) * l.entries a < l.iterations a →
      ∃ cons ∈ processBB l.graph l.dom l.unrolled bounds l.bb, ¬ cons.Holds a := by
    intro a positive present exceeds
    by_contra all
    push Not at all
    rcases (l.holds_processBB a bounds).mp all with absent | ⟨most,_⟩
    · omega
    · obtain ⟨zero,bounded⟩ := (l.holds_iterationConstraints a .le bounds.max).mp (most present)
      have entered : 0 ≤ l.entries a := List.sum_nonneg fun x mem => by
        obtain ⟨e,_,rfl⟩ := List.mem_map.mp mem
        exact positive e
      have iterated : 0 ≤ l.iterations a := List.sum_nonneg fun x mem => by
        obtain ⟨e,_,rfl⟩ := List.mem_map.mp mem
        exact positive e
      by_cases few : bounds.max < l.unrolled.length
      · have none : l.entries a = 0 := by have := zero few; omega
        rw [none] at exceeds
        have := zero few
        omega
      · rw [if_neg few,Comparator.Rel] at bounded
        omega
  rw [l.holds_processBB]
  constructor
  · rintro ⟨absent | ⟨_,least,total⟩,_⟩
    · exact .inl absent
    · refine .inr ⟨?_,?_⟩
      · intro present few j mem
        obtain ⟨zero,_⟩ := (l.holds_iterationConstraints _ .ge bounds.min).mp (least present)
        have never := zero few
        rw [iterations,entries] at never
        have unresumed : (l.activations runs).countP (l.unrolled.length ≤ ·) = 0 := by omega
        have early := List.countP_eq_zero.mp unresumed j mem
        simpa using early
      · intro present
        have counted := (total present).1
        omega
  · intro fair
    refine ⟨?_,exceeding⟩
    rcases fair with absent | ⟨unreached,counted⟩
    · exact .inl absent
    · refine .inr ⟨?_,?_,?_⟩
      · intro present
        refine (l.holds_iterationConstraints _ .le bounds.max).mpr ?_
        rw [iterations,entries,Comparator.Rel]
        by_cases few : bounds.max < l.unrolled.length
        · have early : ∀ j ∈ l.activations runs, j < l.unrolled.length := by
            intro j mem
            have := meets.max present j mem
            omega
          obtain ⟨none,never⟩ := none_resumes early
          rw [none,never]
          simp
        · have bounded := sum_le_max (k := l.unrolled.length) (meets.max present)
          rw [if_neg few]
          exact ⟨fun less => absurd less few,by omega⟩
      · intro present
        refine (l.holds_iterationConstraints _ .ge bounds.min).mpr ?_
        rw [iterations,entries,Comparator.Rel]
        by_cases few : bounds.min < l.unrolled.length
        · obtain ⟨none,never⟩ := none_resumes (unreached present few)
          rw [none,never]
          simp
        · have bounded := sum_ge_min (k := l.unrolled.length) (by omega) (meets.min present)
          rw [if_neg few]
          exact ⟨fun less => absurd less few,by omega⟩
      · intro present
        refine ⟨?_,?_⟩
        · have := counted present
          omega
        · rw [iterations,entries]
          exact sum_le_total (meets.total present)

/-- The first copy is made of the blocks 2 and 3, the remaining loop of 4 and 5. -/
def onceGraph : CFG 9 10 where
  entry := 0
  source := ![0,1,2,3,2,4,5,4,6,7]
  target := ![1,2,3,4,6,5,4,6,7,8]
  kind := ![.virtual,.notTaken,.notTaken,.taken,.taken,.notTaken,.taken,.taken,.notTaken,.virtual]

theorem onceGraph_connected : onceGraph.Connected := by
  have step {e : Fin 10} (here : onceGraph.Reachable (onceGraph.source e)) (kind : onceGraph.kind e ≠ .call) :
      onceGraph.Reachable (onceGraph.target e) := here.step ⟨e,kind,rfl,rfl⟩
  have r0 : onceGraph.Reachable 0 := FlowGraph.reachable_root
  have r1 : onceGraph.Reachable 1 := step (e := 0) r0 (by decide)
  have r2 : onceGraph.Reachable 2 := step (e := 1) r1 (by decide)
  have r3 : onceGraph.Reachable 3 := step (e := 2) r2 (by decide)
  have r4 : onceGraph.Reachable 4 := step (e := 3) r3 (by decide)
  have r5 : onceGraph.Reachable 5 := step (e := 5) r4 (by decide)
  have r6 : onceGraph.Reachable 6 := step (e := 4) r2 (by decide)
  have r7 : onceGraph.Reachable 7 := step (e := 8) r6 (by decide)
  intro e _
  fin_cases e
  exacts [r0,r1,r2,r3,r2,r4,r5,r4,r6,r7]

theorem onceGraph_dominates : onceGraph.Dominates 4 5 := by
  refine FlowGraph.dominates_of_cut (p := fun b => b ≠ 4 ∧ b ≠ 5) (by decide) ?_ (by decide)
  rintro x y outside ⟨e,_,rfl,rfl⟩ other
  revert e
  decide

/-- With the marks that `Dominance` leaves. -/
def onceLoop (dom : DominanceInfo 9 10) (exact_ : dom.Exact onceGraph) : UnrolledLoop 9 10 where
  graph := onceGraph
  dom := dom
  bb := 4
  unrolled := [2]
  region := ![none,none,some 1,some 1,some 0,some 0,none,none,none]
  connected := onceGraph_connected
  dominance := exact_
  header := (exact_.header 4).mpr ⟨6,⟨by decide,onceGraph_dominates⟩,rfl⟩
  outside := rfl
  region_le := by decide
  region_header i h found := by
    match i with
    | 0 => cases found; rfl
    | 1 => cases found; rfl
    | i + 2 => cases found
  region_target e i _ region := by
    revert region
    fin_cases e <;> intro region <;> cases region <;> decide
  enters e _ outer inner := by
    have only : e = 1 := by revert e; decide
    subst only
    intro dom
    have path : FlowGraph.Path onceGraph.Flow 0 [1,0] 1 := .step .root ⟨0,by decide,rfl,rfl⟩
    have mem : (2 : Fin 9) ∈ [1,0] := dom _ path
    revert mem
    decide

def twoIterations : List (List (Fin 10)) := [[0,1,2,3,5,6,7,8,9]]

theorem twoIterations_walk : ∀ run ∈ twoIterations, Walk onceGraph 0 run := by
  simp [twoIterations,Walk,onceGraph]

theorem constraints_faithful_once : ∃ dom, dom.Exact onceGraph ∧
    ∀ cons ∈ processBB onceGraph dom [2] ⟨3,1,-1⟩ 4, cons.Holds (UnrolledLoop.counts twoIterations) := by
  obtain ⟨dom,_,exact_⟩ := processDominance_exact onceGraph_connected
  have acts : (onceLoop dom exact_).activations twoIterations = [2] := rfl
  have meets : (onceLoop dom exact_).Meets ⟨3,1,-1⟩ twoIterations :=
    ⟨twoIterations_walk,by rw [acts]; decide,by rw [acts]; decide,by rw [acts]; decide⟩
  have once : (onceLoop dom exact_).unrolled.length = 1 := rfl
  have fair : (onceLoop dom exact_).Fair ⟨3,1,-1⟩ twoIterations :=
    .inr ⟨fun _ few => absurd few (by rw [once]; decide),fun present => absurd present (by decide)⟩
  exact ⟨dom,exact_,((constraints_faithful_iff (onceLoop dom exact_) ⟨3,1,-1⟩ twoIterations meets).mpr fair).1⟩

/-- With a minimum of zero, the constraints forbid the remaining loop. -/
theorem minimum_excludes_execution : ¬ ∀ (n m : Nat) (l : UnrolledLoop n m) (bounds : Bounds)
    (runs : List (List (Fin m))), l.Meets bounds runs →
    (∀ cons ∈ processBB l.graph l.dom l.unrolled bounds l.bb, cons.Holds (UnrolledLoop.counts runs)) ∧
      ∀ a : Fin m → Int, (∀ e, 0 ≤ a e) → 0 ≤ bounds.max →
        (bounds.max-l.unrolled.length) * l.entries a < l.iterations a →
        ∃ cons ∈ processBB l.graph l.dom l.unrolled bounds l.bb, ¬ cons.Holds a := by
  intro faithful
  obtain ⟨dom,_,exact_⟩ := processDominance_exact onceGraph_connected
  have acts : (onceLoop dom exact_).activations twoIterations = [2] := rfl
  have meets : (onceLoop dom exact_).Meets ⟨5,0,-1⟩ twoIterations :=
    ⟨twoIterations_walk,by rw [acts]; decide,by rw [acts]; decide,by rw [acts]; decide⟩
  have once : (onceLoop dom exact_).unrolled.length = 1 := rfl
  have all := (faithful 9 10 (onceLoop dom exact_) ⟨5,0,-1⟩ twoIterations meets).1
  rcases ((onceLoop dom exact_).holds_processBB _ _).mp all with ⟨absent,_⟩ | ⟨_,least,_⟩
  · exact absurd absent (by decide)
  · have zero := (((onceLoop dom exact_).holds_iterationConstraints _ .ge 0).mp (least (by decide))).1
      (by rw [once]; decide)
    rw [UnrolledLoop.iterations_counts meets.walk,UnrolledLoop.entries_counts meets.walk,acts,once] at zero
    exact absurd zero (by decide)

end Otawa.FlowFactConstraints
