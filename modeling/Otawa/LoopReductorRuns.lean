import Otawa.LoopReductor

/-!
When the reduction of the loops returns. A duplicate is in the loops of the source of the
first irregular edge, and its number is out of the bit sets. So each edge that leads to
a duplicate has to come from the loops of the duplicate (`Calm`). Then only the blocks of
the source are duplicated, each at most once: after its turn every edge into it is regular
(`Settled`). A pass that is not the last one makes a duplicate, and the number of passes
is at most one more than the number of blocks.
-/
namespace Otawa.LoopReductor
open Otawa.Folds

/-! ### The search returns -/

def Search.unmarked (size : Nat) (s : Search) : Finset Nat := (Finset.range size).filter fun i => s.mark i = false

def Search.Marks (s t : Search) : Prop := ∀ i, s.mark i = true → t.mark i = true

theorem Search.Marks.unmarked {s t : Search} (marks : s.Marks t) (size : Nat) : t.unmarked size ⊆ s.unmarked size := by
  intro i member
  simp only [Search.unmarked,Finset.mem_filter,Finset.mem_range] at member ⊢
  refine ⟨member.1,?_⟩
  cases before : s.mark i with
  | false => rfl
  | true => simp [marks i before] at member

section
variable {successors : Nat → List Edge} {size fuel bb : Nat} {ancestors : List Nat} {s t : Search}

theorem depthFirstSearch_returns (inside : ∀ bb, ∀ e ∈ successors bb, ∀ i, e.target = .bb i → i < size)
    (enclosed : ∀ i ∈ ancestors, i < size) (bound : bb < size) (fresh : s.mark bb = false)
    (enough : (s.unmarked size).card ≤ fuel) :
    ∃ t, depthFirstSearch successors size fuel bb ancestors s = some t ∧ s.Marks t := by
  have member : bb ∈ s.unmarked size := by simp [Search.unmarked,bound,fresh]
  induction fuel generalizing bb ancestors s with
  | zero => exact absurd member (by simp [Finset.card_eq_zero.mp (Nat.le_zero.mp enough)])
  | succ fuel ih =>
    let first : Search := {s with mark := Function.update s.mark bb true}
    have marked : s.Marks first := fun i known => by
      simp only [first,Function.update_apply,known,ite_self]
    have fewer : (first.unmarked size).card ≤ fuel := by
      have left : first.unmarked size ⊂ s.unmarked size := by
        refine Finset.ssubset_iff_subset_ne.mpr ⟨marked.unmarked size,fun same => ?_⟩
        rw [← same] at member
        simp [Search.unmarked,first] at member
      have less := Finset.card_lt_card left
      omega
    have open_ : ∀ i ∈ ancestors ++ [bb], i < size := by
      intro i listed
      rcases List.mem_append.mp listed with old | new
      · exact enclosed i old
      · exact List.mem_singleton.mp new ▸ bound
    suffices loop : ∃ t, depthFirstSearch successors size (fuel + 1) bb ancestors s = some t ∧ first.Marks t by
      obtain ⟨t,done,marks⟩ := loop
      exact ⟨t,done,fun i known => marks i (marked i known)⟩
    refine foldlM_returns (fun _ t => first.Marks t) (fun seen edge rest same u marks => ?_) (fun _ known => known)
    have listed : edge ∈ successors bb := same ▸ List.mem_append_right seen List.mem_cons_self
    cases target : edge.target with
    | bb target' =>
      have small : target' < size := inside bb edge listed target' target
      by_cases call : edge.kind = .call
      · exact ⟨u,by simp [call],marks⟩
      cases mark : u.mark target' with
      | false =>
        obtain ⟨t,done,more⟩ := ih open_ small mark ((Finset.card_le_card (marks.unmarked size)).trans fewer)
          (by simp [Search.unmarked,small,mark])
        exact ⟨t,by simp [call,mark,done],fun i known => more i (marks i known)⟩
      | true =>
        by_cases ancestor : target' ∈ ancestors ++ [bb]
        · refine ⟨shareLoops size (ancestors ++ [bb]) target' {u with
            header := Function.update u.header target' true
            inLoops := addFrom (ancestors ++ [bb]) target' u.inLoops},?_,marks⟩
          simp only [call,if_false,mark,Bool.true_eq_false,ancestor,if_true,backEdge,small,Option.map_some]
        · refine ⟨shareLoops size (ancestors ++ [bb]) target' u,?_,marks⟩
          simp only [call,if_false,mark,Bool.true_eq_false,ancestor]
    | exit => exact ⟨u,rfl,marks⟩
    | called => exact ⟨u,rfl,marks⟩

theorem depthFirstSearch_mono (done : depthFirstSearch successors size fuel bb ancestors s = some t) :
    depthFirstSearch successors size (fuel + 1) bb ancestors s = some t := by
  induction fuel generalizing bb ancestors s t with
  | zero => cases done
  | succ fuel ih =>
    unfold depthFirstSearch at done ⊢
    refine foldlM_mono (fun u edge _ t turn => ?_) done
    cases target : edge.target with
    | bb target' =>
      simp only [target] at turn ⊢
      by_cases call : edge.kind = .call
      · simpa only [call,if_true] using turn
      cases mark : u.mark target' with
      | false =>
        simp only [call,mark,if_false,if_true] at turn ⊢
        exact ih turn
      | true => simpa only [call,mark,if_false,Bool.true_eq_false] using turn
    | exit | called => simpa only [target] using turn

end

/-! ### Blocks that are duplicated once -/

namespace Reduction
variable {n m : Nat} {g : SourceCFG n m} {s t : Reduction n}

/-- The test leaves an input edge of the block in place. -/
def Regular (s : Reduction n) (bb : Nat) (e : Edge) : Prop :=
  regular s.size (s.inLoops bb \ s.loopsOf e.source) bb = some true

def duplicated (s : Reduction n) : Finset Nat := (Finset.range s.size).filter fun i => (s.duplicateOf i).isSome

/-- Only blocks of the source have a duplicate; the other blocks are these duplicates. -/
structure Numbered (s : Reduction n) : Prop where
  blocks : ∀ i d, s.duplicateOf i = some d → i < s.size ∧ s.size ≤ d
  count : s.original.length = s.size + s.duplicated.card

structure Settled (s : Reduction n) : Prop extends Numbered s where
  quiet : ∀ i d, s.duplicateOf i = some d → ∀ e ∈ s.ins (.bb i), s.Regular i e

theorem Numbered.length_le (numbered : Numbered s) : s.original.length ≤ 2 * s.size := by
  have few : s.duplicated.card ≤ s.size := by
    simpa [duplicated] using Finset.card_filter_le (Finset.range s.size) fun i => (s.duplicateOf i).isSome
  rw [numbered.count]
  omega

theorem Numbered.size_le (numbered : Numbered s) : s.size ≤ s.original.length := numbered.count ▸ Nat.le_add_right _ _

theorem Numbered.redirect_fresh (numbered : Numbered s) {x : Vertex} {i : Nat} (target : s.redirect x = .bb i) :
    s.duplicateOf i = none := by
  cases x with
  | bb j =>
    cases known : s.duplicateOf j with
    | none =>
      simp only [redirect,known,Vertex.bb.injEq] at target
      exact target ▸ known
    | some d =>
      simp only [redirect,known,Vertex.bb.injEq] at target
      subst target
      cases again : s.duplicateOf d with
      | none => rfl
      | some d' =>
        have new := (numbered.blocks j d known).2
        have old := (numbered.blocks d d' again).1
        omega
  | exit => cases target
  | called => cases target

theorem source_known (covers : Covers g s.toVirtualCFG) (leaf : ∀ e, g.source e ≠ g.exit) {e : Edge}
    (listed : e ∈ s.edges) (kind : e.kind ≠ .call) : ∃ j < s.original.length, e.source = .bb j := by
  obtain ⟨a,b,source,-,edge⟩ := covers.down e listed kind
  cases known : e.source with
  | bb j =>
    rw [known] at source
    exact ⟨j,(List.getElem?_eq_some_iff.mp source).1,rfl⟩
  | exit =>
    rw [known] at source
    obtain ⟨o,-,from_,-⟩ := edge
    exact absurd (from_.trans source) (leaf o)
  | called =>
    rw [known] at source
    exact source.elim

theorem regular_returns {size number : Nat} (entered : Finset Nat) (small : number < size) :
    ∃ test, regular size entered number = some test := by
  simp only [regular,small,if_true]
  split
  · exact ⟨true,rfl⟩
  · split
    · exact ⟨_,rfl⟩
    · exact ⟨false,rfl⟩

theorem makeDuplicate_returns {bb : Nat} {block : Fin n} (known : s.original[bb]? = some block)
    (fresh : s.duplicateOf bb = none) (loops : Finset Nat) : ∃ t, s.makeDuplicate bb loops = some t := by
  simp only [makeDuplicate,known,fresh]
  exact ⟨_,rfl⟩

namespace Duplicated
variable {bb : Nat} {loops : Finset Nat} {block : Fin n}

theorem numbered (made : Duplicated s t bb loops block) (numbered : Numbered s) (small : bb < s.size)
    (fresh : s.duplicateOf bb = none) : Numbered t where
  blocks := by
    intro i d set
    rw [made.duplicateOf,Function.update_apply] at set
    rw [made.size]
    split at set
    case isTrue here =>
      cases set
      exact ⟨here ▸ small,numbered.size_le⟩
    case isFalse => exact numbered.blocks i d set
  count := by
    have more : t.duplicated = insert bb s.duplicated := by
      ext i
      simp only [duplicated,made.size,made.duplicateOf,Function.update_apply,Finset.mem_filter,Finset.mem_range,
        Finset.mem_insert]
      by_cases here : i = bb
      · simp [here,small]
      · simp [here]
    have new : bb ∉ s.duplicated := by simp [duplicated,fresh]
    rw [more,Finset.card_insert_of_notMem new,made.original,List.length_append,List.length_singleton,made.size,
      numbered.count]
    omega

theorem regular_iff (made : Duplicated s t bb loops block) {i : Nat} (bound : i < s.original.length) {e : Edge}
    (source : ∃ j < s.original.length, e.source = .bb j) : t.Regular i e ↔ s.Regular i e := by
  obtain ⟨j,known,source⟩ := source
  simp only [Regular,loopsOf,Reduction.loops,source,made.size,made.inLoops,Function.update_of_ne (Nat.ne_of_lt bound),
    Function.update_of_ne (Nat.ne_of_lt known)]

theorem ins_old (made : Duplicated s t bb loops block) (numbered : Numbered t) {i d : Nat}
    (duplicate : t.duplicateOf i = some d) {e : Edge} (member : e ∈ t.ins (.bb i)) : e ∈ s.ins (.bb i) := by
  obtain ⟨listed,kind,target⟩ := mem_ins.mp member
  rw [made.edges,List.mem_append,List.mem_reverse,List.mem_map] at listed
  rcases listed with ⟨o,-,rfl⟩ | old
  · rw [numbered.redirect_fresh target] at duplicate
    cases duplicate
  · exact mem_ins.mpr ⟨old,kind,target⟩

end Duplicated

structure Turn (s : Reduction n) (done : Bool) (bb : Nat) (seen : List Edge) (c : Scan n) : Prop where
  numbered : Numbered c.toReduction
  size : c.size = s.size
  others : ∀ i d, i ≠ bb → c.duplicateOf i = some d → ∀ e ∈ c.ins (.bb i), c.Regular i e
  inputs : ∀ e ∈ c.ins (.bb bb), e ∈ s.ins (.bb bb)
  listed : ∀ e ∈ seen, e ∈ s.ins (.bb bb)
  tested : ∀ e ∈ seen, c.Regular bb e ∨ e ∈ c.toDel
  same : c.duplicate = none → c = {s with duplicate := none, toDel := [], done}
  made : ∀ d, c.duplicate = some d → c.size ≤ d ∧ s.original.length < c.original.length

theorem Turn.lead {done : Bool} {bb d : Nat} {seen : List Edge} {c : Scan n} (turn : Turn s done bb seen c)
    (small : bb < c.size) (duplicate : c.duplicate = some d) {edge : Edge} (input : edge ∈ s.ins (.bb bb)) :
    Turn s done bb (seen ++ [edge]) {c with
      edges := ⟨edge.source,.bb d,edge.kind⟩ :: c.edges
      duplicate := some d
      toDel := c.toDel ++ [edge]
      done := false} where
  numbered := ⟨turn.numbered.blocks,turn.numbered.count⟩
  size := turn.size
  others := by
    intro i d' other known e member
    obtain ⟨listed,kind,target⟩ := mem_ins.mp member
    rcases List.mem_cons.mp listed with rfl | old
    · have here : d = i := Vertex.bb.inj target
      have new := (turn.made d duplicate).1
      have old := (turn.numbered.blocks i d' known).1
      omega
    · exact turn.others i d' other known e (mem_ins.mpr ⟨old,kind,target⟩)
  inputs := by
    intro e member
    obtain ⟨listed,kind,target⟩ := mem_ins.mp member
    rcases List.mem_cons.mp listed with rfl | old
    · have here : d = bb := Vertex.bb.inj target
      have new := (turn.made d duplicate).1
      omega
    · exact turn.inputs e (mem_ins.mpr ⟨old,kind,target⟩)
  listed := by
    intro e member
    rcases List.mem_append.mp member with old | new
    · exact turn.listed e old
    · exact List.mem_singleton.mp new ▸ input
  tested := by
    intro e member
    rcases List.mem_append.mp member with old | new
    · exact (turn.tested e old).imp id fun deleted => List.mem_append_left _ deleted
    · exact .inr (List.mem_append_right _ new)
  same := fun none => nomatch none
  made := fun d' known => turn.made d' (duplicate.trans known)

theorem Duplicated.turn {done : Bool} {bb : Nat} {seen : List Edge} {c : Scan n} {loops : Finset Nat} {block : Fin n}
    (made : Duplicated c.toReduction t bb loops block) (turn : Turn s done bb seen c) (first : c.duplicate = none)
    (small : bb < c.size) (fresh : c.duplicateOf bb = none)
    (sources : ∀ e ∈ c.edges, e.kind ≠ .call → ∃ j < c.original.length, e.source = .bb j) :
    Turn s done bb seen {t with duplicate := some c.original.length, toDel := c.toDel, done := c.done} := by
  have numbered : Numbered t := made.numbered turn.numbered small fresh
  have same := turn.same first
  have bound : ∀ i < c.size, i < c.original.length := fun i inside => Nat.lt_of_lt_of_le inside turn.numbered.size_le
  have kept : ∀ i < c.size, ∀ e ∈ c.ins (.bb i), c.Regular i e → t.Regular i e := by
    intro i inside e member regular
    obtain ⟨listed,kind,-⟩ := mem_ins.mp member
    exact (made.regular_iff (bound i inside) (sources e listed kind)).mpr regular
  refine
    { numbered
      size := made.size.trans turn.size
      others := fun i d other duplicate e member => ?_
      inputs := fun e member => turn.inputs e (made.ins_old numbered (d := c.original.length) ?_ member)
      listed := turn.listed
      tested := fun e member => (turn.tested e member).imp (fun regular => ?_) id
      same := fun none => nomatch none
      made := fun d known => ?_ }
  · have old := made.ins_old numbered duplicate member
    have before : c.duplicateOf i = some d := by
      rwa [made.duplicateOf,Function.update_of_ne other] at duplicate
    exact kept i (turn.numbered.blocks i d before).1 e old (turn.others i d other before e old)
  · simp [made.duplicateOf]
  · refine kept bb small e ?_ regular
    rw [same]
    exact turn.listed e member
  · cases known
    have old : c.original = s.original := by rw [same]
    rw [made.size,made.original,List.length_append,old,List.length_singleton]
    exact ⟨old ▸ turn.numbered.size_le,Nat.lt_succ_self _⟩

theorem processEdge_turn {done : Bool} {bb : Nat} {block : Fin n} {seen : List Edge} {c : Scan n} {edge : Edge}
    (settled : Settled s) (leaf : ∀ e, g.source e ≠ g.exit) (small : bb < s.size)
    (scanning : Scanning g (s.ins (.bb bb)) bb block c) (turn : Turn s done bb seen c)
    (input : edge ∈ s.ins (.bb bb)) :
    ∃ c', processEdge bb c edge = some c' ∧ Turn s done bb (seen ++ [edge]) c' := by
  have inside : bb < c.size := turn.size ▸ small
  have sources : ∀ e ∈ c.edges, e.kind ≠ .call → ∃ j < c.original.length, e.source = .bb j :=
    fun e listed kind => source_known scanning.reducing.covers leaf listed kind
  obtain ⟨j,-,source⟩ := sources edge (scanning.listed edge input) (mem_ins.mp input).2.1
  have known : c.loops edge.source = some (c.loopsOf edge.source) := by simp [source,loopsOf,Reduction.loops]
  obtain ⟨test,regular⟩ := regular_returns (c.inLoops bb \ c.loopsOf edge.source) inside
  cases test with
  | true =>
    refine ⟨c,?_,{turn with listed := ?_, tested := ?_}⟩
    · simp only [processEdge,Option.bind_eq_bind,known,Option.bind_some,regular,if_true]
    · exact fun e member => (List.mem_append.mp member).elim (turn.listed e)
        fun new => List.mem_singleton.mp new ▸ input
    · exact fun e member => (List.mem_append.mp member).elim (turn.tested e)
        fun new => .inl (List.mem_singleton.mp new ▸ regular)
  | false =>
    cases duplicate : c.duplicate with
    | some d =>
      refine ⟨_,?_,turn.lead inside duplicate input⟩
      simp only [processEdge,Option.bind_eq_bind,known,Option.bind_some,regular,Bool.false_eq_true,if_false,duplicate]
    | none =>
      have same := turn.same duplicate
      have fresh : c.duplicateOf bb = none := by
        cases before : c.duplicateOf bb with
        | none => rfl
        | some d =>
          rw [same] at before regular
          exact absurd ((settled.quiet bb d before edge input).symm.trans regular) (by simp)
      obtain ⟨t,made⟩ := makeDuplicate_returns scanning.known fresh (c.loopsOf edge.source)
      obtain ⟨block',fields⟩ := makeDuplicate_cases made
      have next := fields.turn turn duplicate inside fresh sources
      refine ⟨_,?_,next.lead (d := c.original.length) (fields.size ▸ inside) rfl input⟩
      simp only [processEdge,Option.bind_eq_bind,known,Option.bind_some,regular,Bool.false_eq_true,if_false,duplicate,
        made,Option.map_some]

theorem processBlock_source {done : Bool} {bb : Nat} (reducing : Reducing g s) (settled : Settled s)
    (leaf : ∀ e, g.source e ≠ g.exit) (small : bb < s.size) :
    ∃ t done', processBlock (s,done) bb = some (t,done') ∧ Settled t ∧ t.size = s.size ∧
      s.original.length ≤ t.original.length ∧
      (done' = false → done = false ∨ s.original.length < t.original.length) := by
  obtain ⟨block,known⟩ : ∃ block, s.original[bb]? = some block :=
    ⟨_,List.getElem?_eq_getElem (Nat.lt_of_lt_of_le small reducing.size)⟩
  let first : Scan n := {s with duplicate := none, toDel := [], done}
  obtain ⟨scan,scanned,-,turn⟩ : ∃ scan, (s.ins (.bb bb)).foldlM (processEdge bb) first = some scan ∧
      Scanning g (s.ins (.bb bb)) bb block scan ∧ Turn s done bb (s.ins (.bb bb)) scan := by
    refine foldlM_returns (fun seen c => Scanning g (s.ins (.bb bb)) bb block c ∧ Turn s done bb seen c)
      (fun seen e rest same c holds => ?_) ⟨?_,?_⟩
    · obtain ⟨scanning,turn⟩ := holds
      have input : e ∈ s.ins (.bb bb) := same ▸ List.mem_append_right seen List.mem_cons_self
      obtain ⟨c',one,next⟩ := processEdge_turn settled leaf small scanning turn input
      exact ⟨c',one,processEdge_scanning input (mem_ins.mp input).2.2 one scanning,next⟩
    · exact
        { reducing
          known
          listed := fun e member => (mem_ins.mp member).1
          duplicate := fun d same => nomatch same
          replaced := fun e member => nomatch member }
    · exact
        { numbered := settled.toNumbered
          size := rfl
          others := fun i d _ known => settled.quiet i d known
          inputs := fun e member => member
          listed := fun e member => nomatch member
          tested := fun e member => nomatch member
          same := fun _ => rfl
          made := fun d known => nomatch known }
  refine ⟨{scan.toReduction with edges := scan.edges.filter (· ∉ scan.toDel)},scan.done,?_,?_,turn.size,?_,?_⟩
  · simp only [processBlock,Option.bind_eq_bind]
    rw [scanned,Option.bind_some]
  · refine ⟨⟨turn.numbered.blocks,turn.numbered.count⟩,fun i d duplicate e member => ?_⟩
    obtain ⟨listed,kind,target⟩ := mem_ins.mp member
    obtain ⟨before,stays⟩ := List.mem_filter.mp listed
    have old : e ∈ scan.ins (.bb i) := mem_ins.mpr ⟨before,kind,target⟩
    by_cases here : i = bb
    · subst here
      exact (turn.tested e (turn.inputs e old)).resolve_right (of_decide_eq_true stays)
    · exact turn.others i d here duplicate e old
  · cases duplicate : scan.duplicate with
    | none => rw [turn.same duplicate]
    | some d => exact (turn.made d duplicate).2.le
  · intro changed
    cases duplicate : scan.duplicate with
    | none =>
      rw [turn.same duplicate] at changed
      exact .inl changed
    | some d => exact .inr (turn.made d duplicate).2

theorem processBlock_calm (done : Bool) {bb : Nat} (covers : Covers g s.toVirtualCFG) (leaf : ∀ e, g.source e ≠ g.exit)
    (calm : ∀ e ∈ s.ins (.bb bb), s.inLoops bb ⊆ s.loopsOf e.source) : processBlock (s,done) bb = some (s,done) := by
  let first : Scan n := {s with duplicate := none, toDel := [], done}
  obtain ⟨scan,scanned,rfl⟩ : ∃ scan, (s.ins (.bb bb)).foldlM (processEdge bb) first = some scan ∧ scan = first := by
    refine foldlM_returns (fun _ c => c = first) (fun seen e rest inputs c same => ⟨first,?_,rfl⟩) rfl
    have input : e ∈ s.ins (.bb bb) := inputs ▸ List.mem_append_right seen List.mem_cons_self
    obtain ⟨listed,kind,-⟩ := mem_ins.mp input
    obtain ⟨j,-,source⟩ := source_known covers leaf listed kind
    have inside : s.inLoops bb ⊆ s.inLoops j := by simpa [source,loopsOf,Reduction.loops] using calm e input
    have none : s.inLoops bb \ s.inLoops j = ∅ := Finset.sdiff_eq_empty_iff_subset.mpr inside
    have regular : regular s.size (s.inLoops bb \ s.inLoops j) bb = some true := by simp [none,Reduction.regular]
    have known : s.loops e.source = some (s.inLoops j) := by rw [source]; rfl
    simp only [processEdge,same,first,Option.bind_eq_bind,known,Option.bind_some,regular,if_true]
  simp [processBlock,first,scanned]

/-- The runs of the passes: the state before the next block, `done` and the blocks that
    are left in the pass. -/
inductive Visits (first : Reduction n) : Reduction n → Bool → List Nat → Prop
  | start : Visits first first true (List.range first.original.length)
  | block {s t : Reduction n} {done done' : Bool} {bb : Nat} {rest : List Nat} :
    Visits first s done (bb :: rest) → processBlock (s,done) bb = some (t,done') → Visits first t done' rest
  | again {s : Reduction n} : Visits first s false [] → Visits first s true (List.range s.original.length)

/-- Before its turn, a duplicate is entered from the blocks of all of its loops only. -/
def Calm (first : Reduction n) : Prop :=
  ∀ s done bb rest, Visits first s done (bb :: rest) → s.size ≤ bb →
    ∀ e ∈ s.ins (.bb bb), s.inLoops bb ⊆ s.loopsOf e.source

/-- A duplicate is entered, before its turn, by an edge that enters exactly one of its
    loops. -/
def EntersOne (first : Reduction n) : Prop :=
  ∃ s done bb rest, Visits first s done (bb :: rest) ∧ s.size ≤ bb ∧
    ∃ e ∈ s.ins (.bb bb), (s.inLoops bb \ s.loopsOf e.source).card = 1

section
variable {first : Reduction n}

theorem blocks_return {done : Bool} {rest : List Nat} (calm : Calm first) (leaf : ∀ e, g.source e ≠ g.exit)
    (visits : Visits first s done rest) (reducing : Reducing g s) (settled : Settled s) :
    ∃ t done', rest.foldlM processBlock (s,done) = some (t,done') ∧ Visits first t done' [] ∧ Reducing g t ∧ Settled t ∧
      t.size = s.size ∧ s.original.length ≤ t.original.length ∧
      (done' = false → done = false ∨ s.original.length < t.original.length) := by
  induction rest generalizing s done with
  | nil => exact ⟨s,done,rfl,visits,reducing,settled,rfl,Nat.le_refl _,.inl⟩
  | cons bb rest ih =>
    obtain ⟨u,one,turn,next,size,grown,changed⟩ : ∃ u one, processBlock (s,done) bb = some (u,one) ∧ Settled u ∧
        u.size = s.size ∧ s.original.length ≤ u.original.length ∧
        (one = false → done = false ∨ s.original.length < u.original.length) := by
      by_cases small : bb < s.size
      · exact processBlock_source reducing settled leaf small
      · have still := processBlock_calm done reducing.covers leaf
          (calm s done bb rest visits (Nat.le_of_not_lt small))
        exact ⟨s,done,still,settled,rfl,Nat.le_refl _,.inl⟩
    obtain ⟨t,last,others,visited,reducing',settled',size',grown',changed'⟩ :=
      ih (visits.block turn) (processBlock_reducing turn reducing) next
    refine ⟨t,last,?_,visited,reducing',settled',size'.trans size,grown.trans grown',fun false_ => ?_⟩
    · simp only [List.foldlM_cons,turn,Option.bind_eq_bind,Option.bind_some,others]
    · rcases changed' false_ with before | more
      · exact (changed before).imp id fun more => Nat.lt_of_lt_of_le more grown'
      · exact .inr (Nat.lt_of_le_of_lt grown more)

theorem passes_return {fuel : Nat} (calm : Calm first) (leaf : ∀ e, g.source e ≠ g.exit)
    (visits : Visits first s true (List.range s.original.length)) (reducing : Reducing g s) (settled : Settled s)
    (enough : 2 * s.size < fuel + s.original.length) : ∃ t, passes fuel s = some t := by
  induction fuel generalizing s with
  | zero =>
    have few := settled.length_le
    omega
  | succ fuel ih =>
    obtain ⟨t,done,turn,visited,reducing',settled',size,-,changed⟩ := blocks_return calm leaf visits reducing settled
    have turn : s.pass = some (t,done) := turn
    cases done with
    | true => exact ⟨t,by simp [passes,turn]⟩
    | false =>
      have more : s.original.length < t.original.length := (changed rfl).resolve_left (by simp)
      obtain ⟨u,returns⟩ := ih visited.again reducing' settled' (by omega)
      exact ⟨u,by simp [passes,turn,returns]⟩

theorem Visits.reducing {done : Bool} {rest : List Nat} (visits : Visits first s done rest)
    (reducing : Reducing g first) : Reducing g s := by
  induction visits with
  | start => exact reducing
  | block _ turn ih => exact processBlock_reducing turn ih
  | again _ ih => exact ih

theorem Visits.returns {done : Bool} {rest : List Nat} (visits : Visits first s done rest) {fuel : Nat}
    (returns : passes fuel first = some t) :
    ∃ u last, rest.foldlM processBlock (s,done) = some (u,last) ∧ (last = false → ∃ fuel, passes fuel u = some t) := by
  have passed {s : Reduction n} {fuel : Nat} (returns : passes fuel s = some t) :
      ∃ u last, s.pass = some (u,last) ∧ (last = false → ∃ fuel, passes fuel u = some t) := by
    cases fuel with
    | zero => cases returns
    | succ fuel =>
      simp only [passes,Option.bind_eq_bind,Option.bind_eq_some_iff,Prod.exists] at returns
      obtain ⟨u,last,turn,others⟩ := returns
      refine ⟨u,last,turn,fun false_ => ⟨fuel,?_⟩⟩
      simpa only [false_,Bool.false_eq_true,if_false] using others
  induction visits with
  | start => exact passed returns
  | block _ turn ih =>
    obtain ⟨u,last,others,later⟩ := ih
    simp only [List.foldlM_cons,turn,Option.bind_eq_bind,Option.bind_some] at others
    exact ⟨u,last,others,later⟩
  | again _ ih =>
    obtain ⟨u,last,none,later⟩ := ih
    obtain ⟨rfl,rfl⟩ : _ = u ∧ false = last := Prod.mk.inj (Option.some.inj none)
    obtain ⟨fuel,returns⟩ := later rfl
    exact passed returns

theorem processBlock_entered {c : Reduction n × Bool} {done : Bool} {bb : Nat} (turn : processBlock (s,done) bb = some c)
    (reducing : Reducing g s) (leaf : ∀ e, g.source e ≠ g.exit) (large : s.size ≤ bb) {e : Edge}
    (input : e ∈ s.ins (.bb bb)) : (s.inLoops bb \ s.loopsOf e.source).card ≠ 1 := by
  intro one
  obtain ⟨scan,scanned,-⟩ := processBlock_cases turn
  obtain ⟨block,known⟩ := known_of_mem_ins reducing.covers input
  have bound : bb < s.original.length := (List.getElem?_eq_some_iff.mp known).1
  obtain ⟨listed,kind,-⟩ := mem_ins.mp input
  obtain ⟨j,inside,source⟩ := source_known reducing.covers leaf listed kind
  let holds (c : Scan n) : Prop :=
    c.size = s.size ∧ s.original.length ≤ c.original.length ∧ ∀ i < s.original.length, c.inLoops i = s.inLoops i
  have step : ∀ c, ∀ e ∈ s.ins (.bb bb), ∀ c', processEdge bb c e = some c' → holds c → holds c' := by
    rintro c e - c' turn ⟨size,grown,same⟩
    obtain ⟨loops,-,⟨-,rfl⟩ | ⟨t,d,chosen,rfl⟩⟩ := processEdge_cases turn
    · exact ⟨size,grown,same⟩
    · rcases chosen with ⟨-,rfl⟩ | ⟨⟨block',made⟩,-⟩
      · exact ⟨size,grown,same⟩
      · refine ⟨made.size.trans size,?_,fun i old => ?_⟩
        · simp only [made.original,List.length_append]
          omega
        · simp only [made.inLoops]
          rw [Function.update_of_ne (Nat.ne_of_lt (Nat.lt_of_lt_of_le old grown)),same i old]
  obtain ⟨u,v,tested,size,-,same⟩ := foldlM_each holds step scanned ⟨rfl,Nat.le_refl _,fun _ _ => rfl⟩ e input
  have none : regular u.size (u.inLoops bb \ u.inLoops j) bb = none := by
    have entered : (s.inLoops bb \ s.inLoops j).card = 1 := by simpa [source,loopsOf,Reduction.loops] using one
    simp [regular,same bb bound,same j inside,entered,size,large]
  simp [processEdge,source,Reduction.loops,none] at tested

theorem not_entersOne {fuel : Nat} (returns : passes fuel first = some t) (leaf : ∀ e, g.source e ≠ g.exit)
    (reducing : Reducing g first) : ¬ EntersOne first := by
  rintro ⟨s,done,bb,rest,visits,large,e,input,one⟩
  obtain ⟨u,last,others,-⟩ := visits.returns returns
  simp only [List.foldlM_cons,Option.bind_eq_bind,Option.bind_eq_some_iff] at others
  obtain ⟨c,turn,-⟩ := others
  exact processBlock_entered turn (visits.reducing reducing) leaf large input one

end

end Reduction

namespace SourceCFG
variable {n m : Nat} (g : SourceCFG n m)

/-- The depth-first search of `reduce`. -/
def search (fuel : Nat) : Option Search :=
  depthFirstSearch g.successors g.copied.length fuel 0 [] ⟨fun _ => false,fun _ => false,fun _ => ∅⟩

def start (s : Search) : Reduction n :=
  {g.copy with
    size := g.copied.length
    inLoops := s.inLoops
    header := s.header
    duplicateOf := fun _ => none}

theorem reduce_eq (fuel : Nat) : g.reduce fuel = (g.search fuel).bind fun s => (g.start s).passes fuel := rfl

theorem mem_sortedAdd {address : Vertex → Nat} {value e : Edge} {list : List Edge} :
    e ∈ sortedAdd address value list ↔ e = value ∨ e ∈ list := by
  induction list with
  | nil => simp [sortedAdd]
  | cons current rest ih =>
    unfold sortedAdd
    split
    · simp
    · simp only [List.mem_cons,ih]
      tauto

variable {g}

theorem mem_successors {bb : Nat} {e : Edge} (member : e ∈ g.successors bb) : ∃ i, g.copyEdge i = e := by
  suffices all : ∀ outs list : List Edge, e ∈ outs.foldl (fun list e => sortedAdd g.addressOf e list) list →
      e ∈ list ∨ e ∈ outs by
    rcases all _ _ member with none | out
    · cases none
    · exact mem_copy_edges.mp (List.mem_filter.mp out).1
  intro outs
  induction outs with
  | nil => exact fun list member => .inl member
  | cons first rest ih =>
    intro list member
    rcases ih _ member with added | later
    · rcases mem_sortedAdd.mp added with here | before
      · exact .inr (here ▸ List.mem_cons_self)
      · exact .inl before
    · exact .inr (List.mem_cons_of_mem _ later)

theorem successors_inside (bb : Nat) (e : Edge) (member : e ∈ g.successors bb) (i : Nat) (target : e.target = .bb i) :
    i < g.copied.length := by
  obtain ⟨o,rfl⟩ := mem_successors member
  simp only [copyEdge] at target
  split at target
  case isTrue => cases target
  case isFalse =>
    have copy : g.copy.Copies g.exit (.bb i) (g.target o) := target ▸ copies_map
    exact (List.getElem?_eq_some_iff.mp copy).1

theorem search_returns {fuel : Nat} (enough : g.copied.length ≤ fuel) : ∃ s, g.search fuel = some s := by
  have first : 0 < g.copied.length := by simp [copied]
  let start : Search := ⟨fun _ => false,fun _ => false,fun _ => ∅⟩
  obtain ⟨s,done,-⟩ : ∃ t, depthFirstSearch g.successors g.copied.length fuel 0 [] start = some t ∧ start.Marks t :=
    depthFirstSearch_returns successors_inside (by simp) first rfl (by simpa [Search.unmarked,start] using enough)
  exact ⟨s,done⟩

theorem search_mono {fuel more : Nat} {s : Search} (done : g.search fuel = some s) (le : fuel ≤ more) :
    g.search more = some s := by
  induction more, le using Nat.le_induction with
  | base => exact done
  | succ more _ ih => exact depthFirstSearch_mono ih

theorem search_unique {fuel more : Nat} {s t : Search} (one : g.search fuel = some s) (two : g.search more = some t) :
    s = t := by
  rcases Nat.le_total fuel more with le | le
  · exact Option.some.inj ((search_mono one le).symm.trans two)
  · exact Option.some.inj (one.symm.trans (search_mono two le))

theorem start_reducing {fuel : Nat} {s : Search} (done : g.search fuel = some s) : Reduction.Reducing g (g.start s) where
  covers := covers_copy
  same := fun _ _ set => nomatch set
  size := Nat.le_refl _
  headers := depthFirstSearch_headers done fun _ h member => absurd member (Finset.notMem_empty h)

theorem start_settled (s : Search) : (g.start s).Settled where
  blocks := fun _ _ set => nomatch set
  count := by simp [start,copy,Reduction.duplicated]
  quiet := fun _ _ set => nomatch set

end SourceCFG

/-- The search ends. While each edge into a duplicate comes from a block of all the loops
    of the duplicate, the reduction returns: no block is duplicated a second time, no
    number out of the bit sets is tested, and the passes end. When an edge into
    a duplicate enters exactly one loop, the reduction never returns. -/
theorem reduce_returns {n m : Nat} (g : SourceCFG n m) (leaf : ∀ e, g.source e ≠ g.exit) {fuel : Nat}
    (enough : g.copied.length < fuel) :
    ∃ search, g.search fuel = some search ∧ ((g.start search).Calm → ∃ s, g.reduce fuel = some s) ∧
      ((g.start search).EntersOne → ∀ more, g.reduce more = none) := by
  obtain ⟨search,searched⟩ := SourceCFG.search_returns enough.le
  refine ⟨search,searched,fun calm => ?_,fun enters more => ?_⟩
  · rw [SourceCFG.reduce_eq,searched,Option.bind_some]
    refine Reduction.passes_return calm leaf .start (SourceCFG.start_reducing searched)
      (SourceCFG.start_settled search) ?_
    simp only [SourceCFG.start,SourceCFG.copy]
    omega
  · cases result : g.reduce more with
    | none => rfl
    | some t =>
      rw [SourceCFG.reduce_eq,Option.bind_eq_some_iff] at result
      obtain ⟨other,found,returns⟩ := result
      obtain rfl : other = search := SourceCFG.search_unique found searched
      exact (Reduction.not_entersOne returns leaf (SourceCFG.start_reducing searched) enters).elim

namespace Reduction
variable {n : Nat}

def advance : Reduction n × Bool × List Nat → Option (Reduction n × Bool × List Nat)
  | (s,done,bb :: rest) => (processBlock (s,done) bb).map fun c => (c.1,c.2,rest)
  | (s,false,[]) => some (s,true,List.range s.original.length)
  | (_,true,[]) => none

def position (first : Reduction n) : Nat → Option (Reduction n × Bool × List Nat)
  | 0 => some (first,true,List.range first.original.length)
  | k + 1 => (position first k).bind advance

theorem Visits.position {first s : Reduction n} {done : Bool} {rest : List Nat} (visits : Visits first s done rest) :
    ∃ k, first.position k = some (s,done,rest) := by
  induction visits with
  | start => exact ⟨0,rfl⟩
  | block _ turn ih =>
    obtain ⟨k,here⟩ := ih
    exact ⟨k + 1,by simp [Reduction.position,here,advance,turn]⟩
  | again _ ih =>
    obtain ⟨k,here⟩ := ih
    exact ⟨k + 1,by simp [Reduction.position,here,advance]⟩

theorem position_none {first : Reduction n} {k last : Nat} (stopped : first.position last = none) (le : last ≤ k) :
    first.position k = none := by
  induction k, le using Nat.le_induction with
  | base => exact stopped
  | succ k _ ih => simp [position,ih]

/-- The next scan is one of a block of the source or of a duplicate that is entered from
    its loops. -/
def CalmAt : Reduction n × Bool × List Nat → Bool
  | (s,_,bb :: _) => bb < s.size || (s.ins (.bb bb)).all fun e => s.inLoops bb ⊆ s.loopsOf e.source
  | _ => true

theorem calm_of_positions {first : Reduction n} {last : Nat} (stopped : first.position last = none)
    (all : ∀ k < last, (first.position k).all CalmAt = true) : first.Calm := by
  intro s done bb rest visits large e input
  obtain ⟨k,here⟩ := visits.position
  have bound : k < last := by
    by_contra beyond
    simp [position_none stopped (Nat.le_of_not_lt beyond)] at here
  have calm := all k bound
  simp only [here,Option.all_some,CalmAt,Bool.or_eq_true,decide_eq_true_eq,List.all_eq_true] at calm
  exact calm.resolve_left (Nat.not_lt.mpr large) e input

end Reduction

/-- The duplicate of the block 3 is entered from blocks of the outer loop. -/
theorem reduce_returns_twoEntries : ∃ search, twoEntries.search 8 = some search ∧ (twoEntries.start search).Calm ∧
    ∃ s, twoEntries.reduce 8 = some s := by
  obtain ⟨search,searched,returns,-⟩ := reduce_returns twoEntries (by decide) (show twoEntries.copied.length < 8 by decide)
  have stopped : ((twoEntries.search 8).bind fun s => (twoEntries.start s).position 15) = none := by decide +kernel
  have all : ∀ k < 15, ((twoEntries.search 8).bind fun s => (twoEntries.start s).position k).all Reduction.CalmAt = true := by
    decide +kernel
  simp only [searched,Option.bind_some] at stopped all
  have calm := Reduction.calm_of_positions stopped all
  exact ⟨search,searched,calm,returns calm⟩

attribute [local instance] Cfg.neZero_six Cfg.neZero_ten

def threeLoops : SourceCFG 6 10 where
  entry := 0
  source := ![0,0,0,1,2,3,4,3,4,2]
  target := ![1,3,4,2,1,3,4,2,2,5]
  kind := fun _ => .taken
  exit := 5
  address := ![0,4,8,12,16,0]
  entry_ne_exit := by decide

private theorem reachable_threeLoops (b : Fin 6) : threeLoops.Reachable b := by
  have step {e : Fin 10} (here : threeLoops.Reachable (threeLoops.source e)) :
      threeLoops.Reachable (threeLoops.target e) := here.step ⟨e,by simp [threeLoops],rfl,rfl⟩
  have r0 : threeLoops.Reachable 0 := FlowGraph.reachable_root
  have r1 : threeLoops.Reachable 1 := step (e := 0) r0
  have r2 : threeLoops.Reachable 2 := step (e := 3) r1
  have r3 : threeLoops.Reachable 3 := step (e := 1) r0
  have r4 : threeLoops.Reachable 4 := step (e := 2) r0
  have r5 : threeLoops.Reachable 5 := step (e := 9) r2
  match b with
  | 0 => exact r0
  | 1 => exact r1
  | 2 => exact r2
  | 3 => exact r3
  | 4 => exact r4
  | 5 => exact r5

/-- The duplicate of the block 2 is in the loop of the block 4 and is entered from the
    block 3: its number is tested and is out of the bit set. -/
theorem duplicate_out_of_set : (∀ b, threeLoops.Reachable b) ∧ (∀ e, threeLoops.source e ≠ threeLoops.exit) ∧
    ∀ fuel, threeLoops.reduce fuel = none := by
  refine ⟨reachable_threeLoops,by decide,fun fuel => ?_⟩
  have fails : ((threeLoops.search 8).bind fun s => (threeLoops.start s).pass.bind fun c =>
      if c.2 then some c else c.1.pass).isNone = true := by decide +kernel
  cases result : threeLoops.reduce fuel with
  | none => rfl
  | some t =>
    rw [SourceCFG.reduce_eq,Option.bind_eq_some_iff] at result
    obtain ⟨s,found,returns⟩ := result
    obtain ⟨search,searched⟩ : ∃ search, threeLoops.search 8 = some search :=
      Option.isSome_iff_exists.mp (by decide +kernel)
    obtain rfl := SourceCFG.search_unique found searched
    rw [searched,Option.bind_some] at fails
    cases fuel with
    | zero => cases returns
    | succ fuel =>
      simp only [Reduction.passes,Option.bind_eq_bind,Option.bind_eq_some_iff,Prod.exists] at returns
      obtain ⟨u,done,first,returns⟩ := returns
      rw [first,Option.bind_some] at fails
      cases done with
      | true => simp at fails
      | false =>
        simp only [Bool.false_eq_true,if_false,Option.isNone_iff_eq_none] at fails returns
        cases fuel with
        | zero => cases returns
        | succ fuel => simp [Reduction.passes,fails] at returns

end Otawa.LoopReductor
