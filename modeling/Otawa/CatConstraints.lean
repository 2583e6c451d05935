import Otawa.InstCategories

/-!
`CAT2OnlyConstraintBuilder`: the constraints on the misses of an instruction cache. Each
l-block has a variable for its misses; a constraint for each category bounds it by the
executions of its block, and for the first misses by the entries of their loop, once for
a group of linked l-blocks. The counts of every path with sound categories satisfy them
(`misses_satisfy`).
-/
namespace Otawa.Cat2
open Otawa.Ilp

/-! ### The constraints -/

/-- The variables of the system: `VAR` of the blocks and the edges, `MISS_VAR` of the l-blocks. -/
inductive Var (Block Edge L : Type)
  | block (b : Block)
  | edge (e : Edge)
  | miss (l : L)
  deriving DecidableEq

namespace LBlockSets
variable {p : Program} (s : LBlockSets p)

abbrev Vars := Var p.Block p.Edge s.Id

/-- `MISS_VAR`, null (`none`) before it is made, and the constraints of the system. -/
structure System where
  missVar : s.Id → Option s.Vars
  constraints : List (Constraint s.Vars)

variable {s}

def System.add (st : s.System) (cons : Constraint s.Vars) : s.System :=
  { st with constraints := cons :: st.constraints }

variable (s)

def addEntries (header : p.Block) (cons : Constraint s.Vars) : Constraint s.Vars :=
  (p.entryEdges header).foldl (fun cons e => cons.addRight 1 (some (.edge e))) cons

/-- `x_miss <= sum of entry edges`, for a group of linked l-blocks at its last one only. -/
def addFirstMissBound (linked : Option (List s.Id)) (header : p.Block) (st : s.System) (l : s.Id) : s.System :=
  match linked with
  | some linked =>
    if linked.getLast? = some l then
      st.add (s.addEntries header (linked.foldl (fun cons lb => cons.addLeft 1 (st.missVar lb)) (Constraint.new .le 0)))
    else st
  | none => st.add (s.addEntries header ((Constraint.new .le 0).addLeft 1 (st.missVar l)))

/-- The constraint depending on the category; a first miss without header and an invalid
    category fail an assertion (`none`). -/
def addCategory (linked : s.Id → Option (List s.Id)) (st : s.System) (l : s.Id) : Option s.System :=
  let miss := st.missVar l
  let x := some (.block (s.bb l))
  match s.category l with
  | .ALWAYS_HIT => some (st.add ((Constraint.new .eq 0).addLeft 1 miss))
  | .FIRST_HIT | .NOT_CLASSIFIED => some (st.add (((Constraint.new .le 0).addLeft 1 miss).addRight 1 x))
  | .ALWAYS_MISS => some (st.add (((Constraint.new .eq 0).addLeft 1 miss).addRight 1 x))
  | .FIRST_MISS =>
    (s.header l).map fun header =>
      (s.addFirstMissBound (linked l) header st l).add (((Constraint.new .le 0).addRight 1 x).addLeft 1 miss)
  | .INVALID_CATEGORY => none

/-- The body of the loops of `processWorkSpace`. -/
def processLBlock (linked : s.Id → Option (List s.Id)) (st : s.System) (l : s.Id) : Option s.System :=
  if s.isEnd l then some st
  else s.addCategory linked { st with missVar := Function.update st.missVar l (some (.miss l)) } l

def ids : List s.Id := (List.finRange s.rows).flatMap fun i => (List.finRange (s.count i)).map fun l => ⟨i,l⟩

/-- `processWorkSpace`, with `LINKED_BLOCKS` of the l-blocks. -/
def processWorkSpace (linked : s.Id → Option (List s.Id)) : Option s.System :=
  s.ids.foldlM (s.processLBlock linked) ⟨fun _ => none,[]⟩

abbrev Events := List (Event p.Block p.Edge s.Id)

variable {s}

def missed (l : s.Id) : Event p.Block p.Edge s.Id → Bool
  | .block b misses => decide (b = s.bb l) && misses l
  | .edge _ => false

def groupMisses (group : List s.Id) (ev : Event p.Block p.Edge s.Id) : Nat := group.countP fun l => missed l ev

def counts (trace : s.Events) : s.Vars → Int
  | .block b => (trace.filterMap Event.block?).count b
  | .edge e => (trace.filterMap Event.edge?).count e
  | .miss l => trace.countP (missed l)

structure Sound (linked : s.Id → Option (List s.Id)) (trace : s.Events) : Prop where
  alwaysHit : ∀ l, ¬ s.isEnd l → s.category l = .ALWAYS_HIT → ∀ misses, .block (s.bb l) misses ∈ trace → misses l = false
  alwaysMiss : ∀ l, ¬ s.isEnd l → s.category l = .ALWAYS_MISS → ∀ misses, .block (s.bb l) misses ∈ trace → misses l = true
  firstMiss : ∀ l h, ¬ s.isEnd l → s.category l = .FIRST_MISS → s.header l = some h →
    AtMostOncePerEntry h (groupMisses [l]) trace
  group : ∀ l h group, ¬ s.isEnd l → s.category l = .FIRST_MISS → s.header l = some h → linked l = some group →
    AtMostOncePerEntry h (groupMisses group) trace

end LBlockSets

/-! ### What the constraints say -/

section
variable {p : Program} {s : LBlockSets p} {frames : List p.Block} {trace : s.Events}
open LBlockSets

theorem missed_le (l : s.Id) (trace : s.Events) : trace.countP (missed l) ≤ (trace.filterMap Event.block?).count (s.bb l) := by
  induction trace with
  | nil => simp
  | cons ev trace ih =>
    cases ev with
    | edge e =>
      rw [List.filterMap_cons_none (by rfl),List.countP_cons_of_neg (by simp [missed])]
      exact ih
    | block b misses =>
      rw [List.filterMap_cons_some (by rfl),List.count_cons,List.countP_cons]
      by_cases same : b = s.bb l
      · have executed : (b == s.bb l) = true := by simpa using same
        simp only [executed,if_true]
        split <;> omega
      · have hit : missed l (Event.block b misses) = false := by simp [missed,same]
        simp only [hit,Bool.false_eq_true,if_false]
        omega

theorem missed_eq {l : s.Id} (always : ∀ misses, .block (s.bb l) misses ∈ trace → misses l = true) :
    trace.countP (missed l) = (trace.filterMap Event.block?).count (s.bb l) := by
  induction trace with
  | nil => rfl
  | cons ev trace ih =>
    have rest := ih fun misses member => always misses (List.mem_cons_of_mem _ member)
    cases ev with
    | edge e =>
      rw [List.filterMap_cons_none (by rfl),List.countP_cons_of_neg (by simp [missed])]
      exact rest
    | block b misses =>
      rw [List.filterMap_cons_some (by rfl),List.count_cons,List.countP_cons,rest]
      by_cases same : b = s.bb l
      · subst same
        simp [missed,always misses (List.mem_cons_self ..)]
      · simp [missed,same]

theorem sum_misses (group : List s.Id) (trace : s.Events) :
    (group.map fun l => counts trace (.miss l)).sum = ((trace.map (groupMisses group)).sum : Nat) := by
  induction group with
  | nil =>
    have none : groupMisses ([] : List s.Id) = fun _ => 0 := rfl
    simp [none]
  | cons l group ih =>
    have split : (trace.map (groupMisses (l :: group))).sum = trace.countP (missed l)+(trace.map (groupMisses group)).sum := by
      clear ih
      induction trace with
      | nil => rfl
      | cons ev trace ih =>
        simp only [List.map_cons,List.sum_cons,List.countP_cons,ih]
        simp only [groupMisses,List.countP_cons]
        omega
    rw [List.map_cons,List.sum_cons,ih,split]
    push_cast
    rfl

theorem excess_addEntries (a : s.Vars → Int) (header : p.Block) (cons : Constraint s.Vars) :
    (s.addEntries header cons).excess a = cons.excess a-((p.entryEdges header).map fun e => a (.edge e)).sum := by
  have sum := Constraint.excess_foldl a (fun cons e => cons.addRight 1 (some (.edge e))) (fun e => -1 * a (.edge e))
    (fun cons e => by rw [Constraint.excess_addRight,Option.elim_some]; ring) (p.entryEdges header) cons
  rw [addEntries,sum,List.sum_map_mul_left]
  ring

theorem comparator_addEntries (header : p.Block) (cons : Constraint s.Vars) :
    (s.addEntries header cons).comparator = cons.comparator :=
  Constraint.comparator_foldl (fun (cons : Constraint s.Vars) (e : p.Edge) => cons.addRight 1 (some (.edge e)))
    (fun cons e => Constraint.comparator_addRight cons 1 (some (.edge e))) (p.entryEdges header) cons

theorem misses_le_entries (path : p.Path s.Id frames trace) {h : p.Block} {group : List s.Id}
    (inside : ∀ l ∈ group, p.InLoop h (s.bb l)) (some_ : p.InLoop h h)
    (once : AtMostOncePerEntry h (groupMisses group) trace) :
    (group.map fun l => counts trace (.miss l)).sum ≤ ((p.entryEdges h).map fun e => counts trace (.edge e)).sum := by
  classical
  have outside (ev : Event p.Block p.Edge s.Id) (out : ¬ Within h ev) : groupMisses group ev = 0 := by
    refine List.countP_eq_zero.mpr fun l member miss => ?_
    cases ev with
    | edge e => cases miss
    | block b misses =>
      simp only [missed,Bool.and_eq_true,decide_eq_true_eq] at miss
      exact out ⟨b,misses,rfl,miss.1 ▸ inside l member⟩
  have bound := sum_le_entries path outside once
  rw [sum_misses]
  simp only [counts]
  rw [count_enters some_]
  exact_mod_cast bound

/-- The system while the l-blocks are processed: the ones that were `seen` have their variable. -/
structure Built (s : LBlockSets p) (trace : s.Events) (seen : s.Id → Prop) (st : s.System) : Prop where
  missVar : ∀ l, seen l → ¬ s.isEnd l → st.missVar l = some (.miss l)
  constraints : ∀ cons ∈ st.constraints, cons.Holds (counts trace)

theorem Built.add {seen : s.Id → Prop} {st : s.System} (built : Built s trace seen st) {cons : Constraint s.Vars}
    (holds : cons.Holds (counts trace)) : Built s trace seen (st.add cons) := by
  refine ⟨built.missVar,fun other member => ?_⟩
  rcases List.mem_cons.mp member with rfl | member
  · exact holds
  · exact built.constraints other member

theorem excess_addMisses (a : s.Vars → Int) {missVar : s.Id → Option s.Vars} {group : List s.Id}
    (made : ∀ lb ∈ group, missVar lb = some (.miss lb)) (cons : Constraint s.Vars) :
    (group.foldl (fun cons lb => cons.addLeft 1 (missVar lb)) cons).excess a =
      cons.excess a+(group.map fun lb => a (.miss lb)).sum := by
  have sum := Constraint.excess_foldl a (fun cons lb => cons.addLeft 1 (missVar lb)) (fun lb => (missVar lb).elim 1 a)
    (fun cons lb => by rw [Constraint.excess_addLeft,one_mul]) group cons
  rw [sum]
  congr 2
  exact List.map_congr_left fun lb member => by rw [made lb member]; rfl

theorem firstMiss_holds (path : p.Path s.Id frames trace) {h : p.Block} {group : List s.Id}
    (inside : ∀ l ∈ group, p.InLoop h (s.bb l)) (self : p.InLoop h h)
    (once : AtMostOncePerEntry h (groupMisses group) trace) {missVar : s.Id → Option s.Vars}
    (made : ∀ lb ∈ group, missVar lb = some (.miss lb)) :
    (s.addEntries h (group.foldl (fun cons lb => cons.addLeft 1 (missVar lb)) (Constraint.new .le 0))).Holds
      (counts trace) := by
  have comparator := Constraint.comparator_foldl (fun (cons : Constraint s.Vars) lb => cons.addLeft 1 (missVar lb))
    (fun cons lb => Constraint.comparator_addLeft cons 1 (missVar lb)) group (Constraint.new .le 0)
  have bound := misses_le_entries path inside self once
  rw [Constraint.holds_iff,comparator_addEntries,comparator,excess_addEntries,excess_addMisses _ made]
  simp only [Constraint.comparator_new,Constraint.excess_new,Comparator.Rel]
  omega

theorem ids_ordered (s : LBlockSets p) :
    s.ids.Pairwise fun a b => a.1 = b.1 → a.2.val < b.2.val := by
  refine List.pairwise_flatMap.mpr ⟨fun i _ => List.pairwise_map.mpr ?_,?_⟩
  · refine List.Pairwise.imp ?_ (List.pairwise_lt_finRange (s.count i))
    intro a b less _
    exact less
  · refine (List.nodup_finRange s.rows).imp fun differ => ?_
    rintro a memA b memB same
    obtain ⟨x,_,rfl⟩ := List.mem_map.mp memA
    obtain ⟨y,_,rfl⟩ := List.mem_map.mp memB
    exact absurd same differ

theorem mem_ids (l : s.Id) : l ∈ s.ids :=
  List.mem_flatMap.mpr ⟨l.1,List.mem_finRange _,List.mem_map.mpr ⟨l.2,List.mem_finRange _,rfl⟩⟩

variable {pre post : List s.Id} {linked : s.Id → Option (List s.Id)}

theorem mem_before {i : Fin s.rows} {a b : Fin (s.count i)} (split : s.ids = pre ++ ⟨i,b⟩ :: post)
    (less : a < b) : (⟨i,a⟩ : s.Id) ∈ pre := by
  have ordered := ids_ordered s
  have member := mem_ids (⟨i,a⟩ : s.Id)
  rw [split] at ordered member
  rcases List.mem_append.mp member with before | after
  · exact before
  · rcases List.mem_cons.mp after with same | after
    · obtain rfl := eq_of_heq (Sigma.mk.inj_iff.mp same).2
      exact absurd less (lt_irrefl _)
    · have later := (List.pairwise_cons.mp (List.pairwise_append.mp ordered).2.1).1 _ after rfl
      simp only at later
      omega

theorem group_made {l : s.Id} (split : s.ids = pre ++ l :: post) {lbs : List (Fin (s.count l.1))}
    (grouped : Grouped s l.1 l.2 lbs) (last : (lbs.map fun lb => (⟨l.1,lb⟩ : s.Id)).getLast? = some l) :
    ∀ lb ∈ lbs, (⟨l.1,lb⟩ : s.Id) ∈ pre ∨ (⟨l.1,lb⟩ : s.Id) = l := by
  intro lb member
  rw [List.getLast?_map,Option.map_eq_some_iff] at last
  obtain ⟨b,final,same⟩ := last
  obtain rfl : b = l.2 := eq_of_heq (Sigma.mk.inj_iff.mp same).2
  obtain ⟨front,rfl⟩ := List.getLast?_eq_some_iff.mp final
  rcases List.mem_append.mp member with early | here
  · have less := (List.pairwise_append.mp grouped.sorted).2.2 lb early l.2 (List.mem_singleton_self _)
    exact .inl (mem_before split less)
  · rw [List.mem_singleton.mp here]
    exact .inr rfl

/-- What the detector leaves, or nothing when it is not run. -/
def Links (s : LBlockSets p) (linked : s.Id → Option (List s.Id)) : Prop :=
  (linked = fun _ => none) ∨ s.linkedBlocks = some linked

theorem Links.grouped {linked : s.Id → Option (List s.Id)} (links : Links s linked) {l : s.Id} {group : List s.Id}
    (found : linked l = some group) : ∃ lbs, group = lbs.map (fun lb => ⟨l.1,lb⟩) ∧ Grouped s l.1 l.2 lbs := by
  rcases links with rfl | detected
  · cases found
  · obtain ⟨linked',detected',grouped⟩ := linkedBlocks_grouped s
    obtain rfl : linked = linked' := Option.some.inj (detected.symm.trans detected')
    exact grouped l group found

theorem holds_block (a : s.Vars → Int) (cmp : Comparator) (l : s.Id) :
    (((Constraint.new cmp 0).addLeft 1 (some (.miss l))).addRight 1 (some (.block (s.bb l)))).Holds a ↔
      cmp.Rel (a (.miss l)-a (.block (s.bb l))) 0 := by
  rw [Constraint.holds_iff]
  simp

theorem addFirstMissBound_built (path : p.Path s.Id frames trace)
    (links : Links s linked) (sound : Sound linked trace) {l : s.Id}
    (split : s.ids = pre ++ l :: post) (inner : ¬ s.isEnd l) (first : s.category l = .FIRST_MISS) {h : p.Block}
    (header : s.header l = some h) (inside : p.InLoop h (s.bb l)) {st : s.System}
    (built : Built s trace (fun x => x ∈ pre ∨ x = l) st) :
    Built s trace (fun x => x ∈ pre ∨ x = l) (s.addFirstMissBound (linked l) h st l) := by
  have self : p.InLoop h h := by
    obtain ⟨x,_,loop⟩ := inside
    exact ⟨h.2,rfl,loop.1,.inl rfl⟩
  cases found : linked l with
  | none =>
    have made : ∀ lb ∈ [l], st.missVar lb = some (.miss lb) := by
      intro lb member
      rw [List.mem_singleton.mp member]
      exact built.missVar l (.inr rfl) inner
    have once := sound.firstMiss l h inner first header
    exact built.add (firstMiss_holds path (by simpa using inside) self once made)
  | some group =>
    simp only [addFirstMissBound]
    split
    case isFalse => exact built
    case isTrue last =>
      obtain ⟨lbs,rfl,grouped⟩ := links.grouped found
      have members (x : s.Id) (member : x ∈ lbs.map fun lb => (⟨l.1,lb⟩ : s.Id)) :
          p.InLoop h (s.bb x) ∧ st.missVar x = some (.miss x) := by
        obtain ⟨lb,mem,rfl⟩ := List.mem_map.mp member
        have linkable := grouped.linkable lb mem
        obtain ⟨k,header',around⟩ := header_of_linkable linkable
        have same := (grouped.header lb mem).symm.trans header'
        obtain rfl : h = k := Option.some.inj (header.symm.trans same)
        exact ⟨around,built.missVar _ (group_made split grouped last lb mem) linkable.1⟩
      exact built.add (firstMiss_holds path (fun x member => (members x member).1) self
        (sound.group l h _ inner first header found) fun x member => (members x member).2)

theorem addCategory_built (path : p.Path s.Id frames trace) (links : Links s linked)
    (sound : Sound linked trace) {l : s.Id} (split : s.ids = pre ++ l :: post)
    (inner : ¬ s.isEnd l) {st : s.System} (built : Built s trace (fun x => x ∈ pre ∨ x = l) st) :
    ∃ st', s.addCategory linked st l = some st' ∧ Built s trace (fun x => x ∈ pre ∨ x = l) st' := by
  have miss := built.missVar l (.inr rfl) inner
  have le : counts trace (.miss l) ≤ counts trace (.block (s.bb l)) := Int.ofNat_le.mpr (missed_le l trace)
  simp only [addCategory,miss]
  cases category : s.category l with
  | INVALID_CATEGORY => exact absurd category (s.lblock l.1 l.2).classification.valid
  | ALWAYS_HIT =>
    refine ⟨_,rfl,built.add ?_⟩
    have never : trace.countP (missed l) = 0 := by
      refine List.countP_eq_zero.mpr fun ev member hit => ?_
      cases ev with
      | edge e => cases hit
      | block b misses =>
        simp only [missed,Bool.and_eq_true,decide_eq_true_eq] at hit
        obtain ⟨rfl,hit⟩ := hit
        simp [sound.alwaysHit l inner category misses member] at hit
    rw [Constraint.holds_iff]
    simp [Comparator.Rel,counts,never]
  | FIRST_HIT | NOT_CLASSIFIED =>
    refine ⟨_,rfl,built.add ((holds_block _ .le l).mpr ?_)⟩
    simp only [Comparator.Rel]
    omega
  | ALWAYS_MISS =>
    refine ⟨_,rfl,built.add ((holds_block _ .eq l).mpr ?_)⟩
    have all := missed_eq (sound.alwaysMiss l inner category)
    simp only [Comparator.Rel,counts,all]
    omega
  | FIRST_MISS =>
    obtain ⟨h,header,inside⟩ := (s.lblock l.1 l.2).classification.around category
    have found : s.header l = some h := header
    have first := addFirstMissBound_built path links sound split inner category found inside built
    refine ⟨_,by rw [found]; rfl,first.add ?_⟩
    rw [Constraint.holds_iff]
    simp only [Constraint.comparator_addLeft,Constraint.comparator_addRight,Constraint.comparator_new,Comparator.Rel,
      Constraint.excess_addLeft,Constraint.excess_addRight,Constraint.excess_new,Option.elim_some]
    omega

theorem processLBlock_built (path : p.Path s.Id frames trace) (links : Links s linked)
    (sound : Sound linked trace) {l : s.Id} (split : s.ids = pre ++ l :: post) {st : s.System}
    (built : Built s trace (· ∈ pre) st) :
    ∃ st', s.processLBlock linked st l = some st' ∧ Built s trace (fun x => x ∈ pre ∨ x = l) st' := by
  unfold processLBlock
  split
  case isTrue end_ =>
    refine ⟨st,rfl,fun x seen inner => ?_,built.constraints⟩
    rcases seen with seen | rfl
    · exact built.missVar x seen inner
    · exact absurd end_ inner
  case isFalse inner =>
    refine addCategory_built path links sound split inner ⟨fun x seen notEnd => ?_,built.constraints⟩
    simp only
    by_cases same : x = l
    · subst same
      exact Function.update_self ..
    · rw [Function.update_of_ne same]
      exact built.missVar x (seen.resolve_right same) notEnd

/-- The builder fails no assertion, and the counts of a path on which the categories are sound
    satisfy all constraints that it adds. -/
theorem misses_satisfy {linked : s.Id → Option (List s.Id)} (links : Links s linked) (path : p.Path s.Id frames trace)
    (sound : Sound linked trace) :
    ∃ st, s.processWorkSpace linked = some st ∧ ∀ cons ∈ st.constraints, cons.Holds (counts trace) := by
  suffices ∀ post pre : List s.Id, s.ids = pre ++ post → ∀ st, Built s trace (· ∈ pre) st →
      ∃ st', post.foldlM (s.processLBlock linked) st = some st' ∧ Built s trace (· ∈ s.ids) st' by
    obtain ⟨st,done,built⟩ := this s.ids [] rfl ⟨fun _ => none,[]⟩ ⟨by simp,by simp⟩
    exact ⟨st,done,built.constraints⟩
  intro post
  induction post with
  | nil =>
    intro pre all st built
    rw [List.append_nil] at all
    exact ⟨st,rfl,all ▸ built⟩
  | cons l post ih =>
    intro pre all st built
    obtain ⟨next,done,built'⟩ := processLBlock_built path links sound all built
    obtain ⟨last,rest,final⟩ := ih (pre ++ [l]) (by simpa using all) next
      ⟨fun x seen => built'.missVar x (by simpa using seen),built'.constraints⟩
    exact ⟨last,by rw [List.foldlM_cons,done]; exact rest,final⟩

end

private theorem loop_scanned : Cfg.selfLoop.Scanned := by
  have first : Cfg.selfLoop.Reachable 1 := FlowGraph.reachable_root.step ⟨0,by decide,rfl,rfl⟩
  have second : Cfg.selfLoop.Reachable 2 := first.step ⟨1,by decide,rfl,rfl⟩
  refine ⟨by decide,fun e _ => ?_⟩
  match e with
  | 0 => exact FlowGraph.reachable_root
  | 1 => exact first
  | 2 => exact second
  | 3 => exact second

private theorem loop_dominance : (Cfg.processDominance Cfg.selfLoop).isSome := by
  obtain ⟨info,processed,_⟩ := Cfg.processDominance_exact loop_scanned.connected
  rw [processed]; rfl

private theorem loop_loopInfo :
    (Cfg.processLoopInfo Cfg.selfLoop ((Cfg.processDominance Cfg.selfLoop).get loop_dominance)).isSome := by
  obtain ⟨dom,processed,exact_⟩ := Cfg.processDominance_exact loop_scanned.connected
  obtain ⟨info,found,_⟩ := Cfg.processLoopInfo_picked exact_ loop_scanned
  rw [Option.get_of_eq_some loop_dominance processed,found]; rfl

def loopProgram : Program where
  cfgs := 1
  blocks _ := 4
  edges _ := 4
  cfg _ := Cfg.selfLoop
  exit _ := Fin.last 3
  calledCFG _ _ := none
  entryCFG := Fin.last 0
  dom _ := (Cfg.processDominance Cfg.selfLoop).get loop_dominance
  loops _ := (Cfg.processLoopInfo Cfg.selfLoop ((Cfg.processDominance Cfg.selfLoop).get loop_dominance)).get loop_loopInfo
  scanned _ := loop_scanned
  dominance _ := (Option.some_get _).symm
  loopInfo _ := (Option.some_get _).symm

attribute [local instance] Cfg.neZero_four

abbrev loopBlock (b : Fin 4) : loopProgram.Block := ⟨Fin.last 0,b⟩
abbrev loopEdge (e : Fin 4) : loopProgram.Edge := ⟨Fin.last 0,e⟩

/-- Two l-blocks of the loop in one cache block, between the ends of their set, before they have a
    category. -/
def loopSets : LBlockSets loopProgram where
  rows := 1
  count _ := 4
  lblock _ _ := ⟨loopBlock 2,1,⟨.ALWAYS_MISS,none,by decide,fun first => absurd first (by decide)⟩⟩
  bounded _ _ := by decide

/-- The builder finds them persistent in the loop. -/
def loopBlocks : LBlockSets loopProgram := loopSets.categorize .FML_INNER fun _ => ⟨true,false,none,1,fun _ => true⟩

private theorem loop_header : loopProgram.loopHeader (loopBlock 2) = true := by decide +kernel

private theorem loop_category {l : loopBlocks.Id} (inner : ¬ loopBlocks.isEnd l) : loopBlocks.category l = .FIRST_MISS := by
  have classified := @LBlockSets.categorize_category _ loopSets .FML_INNER (fun _ => ⟨true,false,none,1,fun _ => true⟩) l inner
  refine classified.trans ?_
  simp [classify,firstMiss,innerHeader,LBlockSets.bb,loopSets,loop_header]

/-- The loop is executed twice; the first l-block misses, the first time. -/
def loopTrace : loopBlocks.Events :=
  [.block (loopBlock 3) fun _ => false,.edge (loopEdge 3),.block (loopBlock 2) fun _ => false,.edge (loopEdge 2),
    .block (loopBlock 2) fun l => decide (l.2.val = 1),.edge (loopEdge 1),.block (loopBlock 1) fun _ => false,
    .edge (loopEdge 0),.block (loopBlock 0) fun _ => false]

private theorem loop_path : loopProgram.Path loopBlocks.Id [loopBlock 3] loopTrace := by
  have entry : loopProgram.Path loopBlocks.Id [loopBlock 0] _ := .start fun _ => false
  have first : loopProgram.Path loopBlocks.Id [loopBlock 1] _ :=
    @Program.Path.step loopProgram _ (0 : Fin 1) (0 : Fin 4) [] _ entry (by decide) fun _ => false
  have second : loopProgram.Path loopBlocks.Id [loopBlock 2] _ :=
    @Program.Path.step loopProgram _ (0 : Fin 1) (1 : Fin 4) [] _ first (by decide) fun l => decide (l.2.val = 1)
  have again : loopProgram.Path loopBlocks.Id [loopBlock 2] _ :=
    @Program.Path.step loopProgram _ (0 : Fin 1) (2 : Fin 4) [] _ second (by decide) fun _ => false
  exact @Program.Path.step loopProgram _ (0 : Fin 1) (3 : Fin 4) [] _ again (by decide) fun _ => false

private theorem loop_once {group : List loopBlocks.Id} (nodup : group.Nodup) (h : loopProgram.Block) :
    AtMostOncePerEntry h (LBlockSets.groupMisses group) loopTrace := by
  intro part inside _
  have total : (loopTrace.map (LBlockSets.groupMisses group)).sum ≤ 1 := by
    have quiet (b : loopProgram.Block) : group.countP (fun l => LBlockSets.missed l (.block b fun _ => false)) = 0 :=
      List.countP_eq_zero.mpr fun l _ => by simp [LBlockSets.missed]
    have edge (e : loopProgram.Edge) : group.countP (fun l => LBlockSets.missed l (.edge e)) = 0 :=
      List.countP_eq_zero.mpr fun l _ => by simp [LBlockSets.missed]
    have single : group.countP (fun l => LBlockSets.missed l (.block (loopBlock 2) fun l => decide (l.2.val = 1))) ≤
        group.count ⟨(0 : Fin 1),(1 : Fin 4)⟩ := by
      refine List.countP_mono_left fun l _ miss => ?_
      simp only [LBlockSets.missed,Bool.and_eq_true,decide_eq_true_eq] at miss
      obtain ⟨i,l⟩ := l
      obtain rfl : i = (0 : Fin 1) := Fin.eq_zero i
      obtain rfl : l = (1 : Fin 4) := Fin.ext miss.2
      exact beq_self_eq_true _
    have one := List.nodup_iff_count_le_one.mp nodup ⟨(0 : Fin 1),(1 : Fin 4)⟩
    simp only [loopTrace,List.map_cons,List.map_nil,List.sum_cons,List.sum_nil,LBlockSets.groupMisses,quiet,edge]
    omega
  exact (List.Sublist.sum_le_sum (inside.sublist.map _) (by simp)).trans total

theorem misses_satisfy_loop : ∃ linked, loopBlocks.linkedBlocks = some linked ∧
    ∃ st, loopBlocks.processWorkSpace linked = some st ∧ ∀ cons ∈ st.constraints, cons.Holds (LBlockSets.counts loopTrace) := by
  obtain ⟨linked,detected,grouped⟩ := linkedBlocks_grouped loopBlocks
  refine ⟨linked,detected,misses_satisfy (.inr detected) loop_path ⟨?_,?_,?_,?_⟩⟩
  · exact fun l inner hit => by rw [loop_category inner] at hit; cases hit
  · exact fun l inner miss => by rw [loop_category inner] at miss; cases miss
  · exact fun l h _ _ _ => loop_once (List.nodup_singleton l) h
  · intro l h group _ _ _ found
    obtain ⟨lbs,rfl,right⟩ := grouped l group found
    refine loop_once (List.Nodup.map (fun a b same => eq_of_heq (Sigma.mk.inj_iff.mp same).2) ?_) h
    exact right.sorted.imp fun less => Fin.ne_of_lt less

end Otawa.Cat2
