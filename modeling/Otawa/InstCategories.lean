import Otawa.ProgramPaths

/-!
The l-blocks of an instruction cache with their categories (`CAT2Builder`), and the first
misses of one cache block that share a header (`LinkedBlocksDetector`). The header of a
first miss is the one of a loop around its block; a group of linked l-blocks is in the
order of their numbers (`linkedBlocks_grouped`).
-/
namespace Otawa.Cat2
open Otawa.Cfg

/-- `cache::category_t`. -/
inductive Category where
  | INVALID_CATEGORY | ALWAYS_HIT | FIRST_HIT | FIRST_MISS | ALWAYS_MISS | NOT_CLASSIFIED
  deriving DecidableEq

/-- `CATEGORY` and `CATEGORY_HEADER` of an l-block of a block: a first miss has the header of a
    loop around the block. -/
structure Classification (p : Program) (bb : p.Block) where
  category : Category
  header : Option p.Block
  valid : category ≠ .INVALID_CATEGORY
  around : category = .FIRST_MISS → ∃ h, header = some h ∧ p.InLoop h bb

/-! ### `CAT2Builder` -/

/-- `fmlevel_t`. -/
inductive FmLevel where
  | FML_INNER | FML_OUTER | FML_MULTI | FML_NONE
  deriving DecidableEq

/-- What the abstract cache states of a block say of one of its l-blocks: `LBLOCK_ISFIRST`, the
    MUST state, the MAY state if there is one, and the levels of the persistence state. -/
structure Acs where
  isFirst : Bool
  must : Bool
  may : Option Bool
  levels : Nat
  isPersistent : Nat → Bool

section
variable {p : Program} {bb : p.Block}

/-- The innermost loop header of a block: the block itself, or `ENCLOSING_LOOP_HEADER`. -/
def innerHeader (bb : p.Block) : Option {h // p.InLoop h bb} :=
  if header : p.loopHeader bb = true then some ⟨bb,Program.inLoop_self header⟩
  else match found : p.enclosing bb with
    | none => none
    | some h => some ⟨h,Program.inLoop_enclosing found⟩

/-- `ENCLOSING_LOOP_HEADER` of a header. -/
def outerHeader (h : {h // p.InLoop h bb}) : Option {h // p.InLoop h bb} :=
  match found : p.enclosing h.1 with
  | none => none
  | some k => some ⟨k,Program.inLoop_outer h.2 found⟩

/-- The loop on the levels of the persistence state from the innermost one to `bound`; it also
    tells whether the l-block is persistent at all of them. -/
def firstMiss (acs : Acs) (bound : Nat) :
    Nat → Option {h // p.InLoop h bb} → Classification p bb × Bool → Classification p bb × Bool
  | 0,_,st => st
  | _+1,none,st => st
  | k+1,some h,(cls,perfect) =>
    if k < bound then (cls,perfect)
    else firstMiss acs bound k (outerHeader h)
      (if acs.isPersistent k then (⟨.FIRST_MISS,some h.1,by simp,fun _ => ⟨h.1,rfl,h.2⟩⟩,perfect) else (cls,false))

/-- The body of the loop of `processLBlockSet`. -/
def classify (level : FmLevel) (acs : Acs) : Classification p bb :=
  let always category (valid : category ≠ .INVALID_CATEGORY) (other : category ≠ .FIRST_MISS) : Classification p bb :=
    ⟨category,none,valid,fun same => absurd same other⟩
  if acs.isFirst then
    let first := if acs.may.isSome then always .NOT_CLASSIFIED (by simp) (by simp) else always .ALWAYS_MISS (by simp) (by simp)
    if acs.must then always .ALWAYS_HIT (by simp) (by simp)
    else if acs.may = some false then always .ALWAYS_MISS (by simp) (by simp)
    else if level ≠ .FML_NONE then
      let bound := if acs.levels > 1 ∧ level = .FML_INNER then acs.levels-1 else 0
      let (cls,perfect) := firstMiss acs bound acs.levels (innerHeader bb) (first,true)
      if level = .FML_OUTER ∧ perfect = false then ⟨.ALWAYS_MISS,cls.header,by simp,by simp⟩ else cls
    else first
  else always .ALWAYS_MISS (by simp) (by simp)

end

/-- An l-block: its block, the number of its cache block in its set, and its category. The two
    l-blocks at the ends of a set have none of these; nothing reads theirs. -/
structure LBlock (p : Program) where
  bb : p.Block
  cacheblock : Nat
  classification : Classification p bb

/-- `LBLOCKS`: for each set of the cache its l-blocks by their numbers, those at the ends
    included. -/
structure LBlockSets (p : Program) where
  rows : Nat
  count : Fin rows → Nat
  lblock (i : Fin rows) : Fin (count i) → LBlock p
  bounded (i : Fin rows) (l : Fin (count i)) : (lblock i l).cacheblock < count i

namespace LBlockSets
variable {p : Program} (s : LBlockSets p)

abbrev Id := Σ i : Fin s.rows, Fin (s.count i)

def isEnd (l : s.Id) : Prop := l.2.val = 0 ∨ l.2.val = s.count l.1-1

instance (l : s.Id) : Decidable (s.isEnd l) := inferInstanceAs (Decidable (_ ∨ _))

def bb (l : s.Id) : p.Block := (s.lblock l.1 l.2).bb
def category (l : s.Id) : Category := (s.lblock l.1 l.2).classification.category
def header (l : s.Id) : Option p.Block := (s.lblock l.1 l.2).classification.header

/-- `CAT2Builder::processLBlockSet` on all sets. -/
def categorize (level : FmLevel) (acs : s.Id → Acs) : LBlockSets p where
  rows := s.rows
  count := s.count
  lblock i l :=
    if s.isEnd ⟨i,l⟩ then s.lblock i l
    else { s.lblock i l with classification := classify level (acs ⟨i,l⟩) }
  bounded i l := by split <;> exact s.bounded i l

theorem categorize_category {level : FmLevel} {acs : s.Id → Acs} {l : s.Id} (inner : ¬ s.isEnd l) :
    (s.categorize level acs).category l = (@classify p (s.bb l) level (acs l)).category := by
  change (if s.isEnd l then s.lblock l.1 l.2 else _ : LBlock p).classification.category = _
  rw [if_neg inner]
  rfl

/-- `NumberOrder::compare`; a null header crashes (`none`). -/
def compareNumber (i : Fin s.rows) (lb1 lb2 : Fin (s.count i)) : Option Int := do
  let header1 ← s.header ⟨i,lb1⟩
  let header2 ← s.header ⟨i,lb2⟩
  some ((header1.2.val : Int)-header2.2.val)

def addFirstMiss (i : Fin s.rows) (blockList : Nat → List (Fin (s.count i))) (lb : Fin (s.count i)) :
    Option (Nat → List (Fin (s.count i))) :=
  if s.isEnd ⟨i,lb⟩ then some blockList
  else if s.category ⟨i,lb⟩ = .FIRST_MISS then
    let cbid := (s.lblock i lb).cacheblock
    (sortedAdd (s.compareNumber i) lb (blockList cbid)).map fun list => Function.update blockList cbid list
  else some blockList

/-- `equiv`, `old_header` and `LINKED_BLOCKS`. -/
structure Linking (i : Fin s.rows) where
  equiv : List (Fin (s.count i))
  oldHeader : Option p.Block
  linked : Fin (s.count i) → Option (List (Fin (s.count i)))

def recordBlocks {i : Fin s.rows} (equiv : List (Fin (s.count i))) (linked : Fin (s.count i) → Option (List (Fin (s.count i)))) :
    Fin (s.count i) → Option (List (Fin (s.count i))) :=
  if equiv.length = 1 then linked else equiv.foldl (fun linked lb => Function.update linked lb (some equiv)) linked

def link {i : Fin s.rows} (st : s.Linking i) (lb : Fin (s.count i)) : s.Linking i :=
  let header := s.header ⟨i,lb⟩
  if st.oldHeader.isSome ∧ st.oldHeader ≠ header then ⟨[lb],header,s.recordBlocks st.equiv st.linked⟩
  else ⟨st.equiv ++ [lb],header,st.linked⟩

def linkList {i : Fin s.rows} (linked : Fin (s.count i) → Option (List (Fin (s.count i)))) (list : List (Fin (s.count i))) :
    Fin (s.count i) → Option (List (Fin (s.count i))) :=
  let st := list.foldl s.link ⟨[],none,linked⟩
  s.recordBlocks st.equiv st.linked

/-- `processWorkSpace` on one set. -/
def linkSet (i : Fin s.rows) : Option (Fin (s.count i) → Option (List (Fin (s.count i)))) := do
  let blockList ← (List.finRange (s.count i)).foldlM (s.addFirstMiss i) fun _ => []
  some (((List.range (s.count i)).map blockList).foldl s.linkList fun _ => none)

/-- `LINKED_BLOCKS` of all l-blocks. -/
def linkedBlocks : Option (s.Id → Option (List s.Id)) :=
  if defined : ∀ i, (s.linkSet i).isSome then
    some fun l => ((s.linkSet l.1).get (defined l.1) l.2).map (List.map fun lb => ⟨l.1,lb⟩)
  else none

end LBlockSets

/-! ### The groups -/

section
variable {p : Program} {s : LBlockSets p} {i : Fin s.rows}
open LBlockSets

def Linkable (s : LBlockSets p) (l : s.Id) : Prop := ¬ s.isEnd l ∧ s.category l = .FIRST_MISS

def headerNumber (s : LBlockSets p) (i : Fin s.rows) (lb : Fin (s.count i)) : Int :=
  (s.header ⟨i,lb⟩).elim 0 fun h => h.2.val

/-- The order of a list of first misses: by the number of the header, then by their own. -/
def Before (s : LBlockSets p) (i : Fin s.rows) (a b : Fin (s.count i)) : Prop :=
  headerNumber s i a < headerNumber s i b ∨ headerNumber s i a = headerNumber s i b ∧ a < b

theorem header_of_linkable {l : s.Id} (linkable : Linkable s l) :
    ∃ h, s.header l = some h ∧ p.InLoop h (s.bb l) :=
  (s.lblock l.1 l.2).classification.around linkable.2

theorem compareNumber_eq {a b : Fin (s.count i)} (linkableA : Linkable s ⟨i,a⟩) (linkableB : Linkable s ⟨i,b⟩) :
    s.compareNumber i a b = some (headerNumber s i a-headerNumber s i b) := by
  obtain ⟨h,headerA,_⟩ := header_of_linkable linkableA
  obtain ⟨k,headerB,_⟩ := header_of_linkable linkableB
  simp [compareNumber,headerNumber,headerA,headerB]

/-- An l-block with a greater number than those of the list joins it in the order. -/
theorem sortedAdd_before {value : Fin (s.count i)} (linkable : Linkable s ⟨i,value⟩) {list : List (Fin (s.count i))}
    (all : ∀ a ∈ list, Linkable s ⟨i,a⟩) (smaller : ∀ a ∈ list, a < value) (sorted : list.Pairwise (Before s i)) :
    ∃ added, sortedAdd (s.compareNumber i) value list = some added ∧ added.Pairwise (Before s i) ∧
      ∀ a, a ∈ added ↔ a = value ∨ a ∈ list := by
  induction list with
  | nil => exact ⟨[value],rfl,List.pairwise_singleton .. ,by simp⟩
  | cons current rest ih =>
    have compare := compareNumber_eq linkable (all current (List.mem_cons_self ..))
    obtain ⟨first,later⟩ := List.pairwise_cons.mp sorted
    by_cases less : headerNumber s i value < headerNumber s i current
    · refine ⟨value :: current :: rest,?_,?_,by simp⟩
      · have negative : headerNumber s i value-headerNumber s i current < 0 := by omega
        simp [sortedAdd,compare,negative]
      · refine List.pairwise_cons.mpr ⟨fun a member => .inl ?_,sorted⟩
        rcases List.mem_cons.mp member with rfl | member
        · exact less
        · rcases first a member with before | ⟨same,_⟩ <;> omega
    · obtain ⟨added,done,ordered,mem⟩ := ih (fun a member => all a (List.mem_cons_of_mem _ member))
        (fun a member => smaller a (List.mem_cons_of_mem _ member)) later
      have notNegative : ¬ headerNumber s i value-headerNumber s i current < 0 := by omega
      refine ⟨current :: added,by simp [sortedAdd,compare,notNegative,done],?_,by simp [mem,or_left_comm]⟩
      refine List.pairwise_cons.mpr ⟨fun a member => ?_,ordered⟩
      rcases (mem a).mp member with rfl | member
      · have number := smaller current (List.mem_cons_self ..)
        by_cases same : headerNumber s i current = headerNumber s i a
        · exact .inr ⟨same,number⟩
        · exact .inl (by omega)
      · exact first a member

/-- The lists of the first loop, after the l-blocks that were `seen`. -/
structure Listed (s : LBlockSets p) (i : Fin s.rows) (seen : Fin (s.count i) → Prop)
    (blockList : Nat → List (Fin (s.count i))) : Prop where
  linkable : ∀ cbid, ∀ a ∈ blockList cbid, Linkable s ⟨i,a⟩
  seen : ∀ cbid, ∀ a ∈ blockList cbid, seen a
  sorted : ∀ cbid, (blockList cbid).Pairwise (Before s i)

theorem addFirstMiss_listed {seen : Fin (s.count i) → Prop} {blockList : Nat → List (Fin (s.count i))}
    (listed : Listed s i seen blockList) {lb : Fin (s.count i)} (next : ∀ a, seen a → a < lb) :
    ∃ blockList', s.addFirstMiss i blockList lb = some blockList' ∧
      Listed s i (fun a => seen a ∨ a = lb) blockList' := by
  have same : Listed s i (fun a => seen a ∨ a = lb) blockList :=
    ⟨listed.linkable,fun cbid a member => .inl (listed.seen cbid a member),listed.sorted⟩
  unfold addFirstMiss
  split
  case isTrue => exact ⟨_,rfl,same⟩
  case isFalse inner =>
    split
    case isFalse => exact ⟨_,rfl,same⟩
    case isTrue first =>
      obtain ⟨added,done,ordered,mem⟩ := sortedAdd_before (⟨inner,first⟩ : Linkable s ⟨i,lb⟩)
        (listed.linkable (s.lblock i lb).cacheblock) (fun a member => next a (listed.seen _ a member)) (listed.sorted _)
      refine ⟨Function.update blockList (s.lblock i lb).cacheblock added,by simp only [done,Option.map_some],?_⟩
      refine ⟨fun cbid a member => ?_,fun cbid a member => ?_,fun cbid => ?_⟩
      all_goals by_cases here : cbid = (s.lblock i lb).cacheblock
      all_goals simp only [here,Function.update_self,Function.update_of_ne,ne_eq,not_false_eq_true] at *
      · rcases (mem a).mp member with rfl | member
        · exact ⟨inner,first⟩
        · exact listed.linkable _ a member
      · exact listed.linkable cbid a member
      · rcases (mem a).mp member with rfl | member
        · exact .inr rfl
        · exact .inl (listed.seen _ a member)
      · exact .inl (listed.seen cbid a member)
      · exact ordered
      · exact listed.sorted cbid

theorem addFirstMisses_listed : ∀ (lbs : List (Fin (s.count i))) {seen : Fin (s.count i) → Prop}
    {blockList : Nat → List (Fin (s.count i))}, Listed s i seen blockList → (∀ a, seen a → ∀ b ∈ lbs, a < b) →
    lbs.Pairwise (· < ·) →
    ∃ blockList', lbs.foldlM (s.addFirstMiss i) blockList = some blockList' ∧
      Listed s i (fun a => seen a ∨ a ∈ lbs) blockList' := by
  intro lbs
  induction lbs with
  | nil => intro seen blockList listed _ _; exact ⟨blockList,rfl,by simpa using listed⟩
  | cons lb lbs ih =>
    intro seen blockList listed next sorted
    obtain ⟨first,later⟩ := List.pairwise_cons.mp sorted
    obtain ⟨blockList',done,listed'⟩ := addFirstMiss_listed listed fun a old => next a old lb (List.mem_cons_self ..)
    obtain ⟨blockList'',rest,listed''⟩ := ih listed' (by
      rintro a (old | rfl) b member
      · exact next a old b (List.mem_cons_of_mem _ member)
      · exact first b member) later
    refine ⟨blockList'',by rw [List.foldlM_cons,done]; exact rest,?_⟩
    simpa [or_assoc] using listed''

/-- The group of an l-block: first misses with its header, in the order of their numbers. -/
structure Grouped (s : LBlockSets p) (i : Fin s.rows) (lb : Fin (s.count i)) (group : List (Fin (s.count i))) : Prop where
  mem : lb ∈ group
  sorted : group.Pairwise (· < ·)
  linkable : ∀ a ∈ group, Linkable s ⟨i,a⟩
  header : ∀ a ∈ group, s.header ⟨i,a⟩ = s.header ⟨i,lb⟩

def AllGrouped (s : LBlockSets p) (i : Fin s.rows) (linked : Fin (s.count i) → Option (List (Fin (s.count i)))) : Prop :=
  ∀ lb group, linked lb = some group → Grouped s i lb group

structure Linked (s : LBlockSets p) (i : Fin s.rows) (st : s.Linking i) (rest : List (Fin (s.count i))) : Prop where
  header : ∀ a ∈ st.equiv, s.header ⟨i,a⟩ = st.oldHeader
  sorted : st.equiv.Pairwise (· < ·)
  linkable : ∀ a ∈ st.equiv, Linkable s ⟨i,a⟩
  before : ∀ a ∈ st.equiv, ∀ b ∈ rest, Before s i a b
  grouped : AllGrouped s i st.linked

theorem recordBlocks_grouped {equiv : List (Fin (s.count i))} {linked : Fin (s.count i) → Option (List (Fin (s.count i)))}
    (grouped : AllGrouped s i linked) (members : ∀ lb ∈ equiv, Grouped s i lb equiv) :
    AllGrouped s i (s.recordBlocks equiv linked) := by
  unfold recordBlocks
  split
  case isTrue => exact grouped
  case isFalse =>
    suffices ∀ lbs : List (Fin (s.count i)), (∀ lb ∈ lbs, lb ∈ equiv) → ∀ linked, AllGrouped s i linked →
        AllGrouped s i (lbs.foldl (fun linked lb => Function.update linked lb (some equiv)) linked) from
      this equiv (fun lb member => member) linked grouped
    intro lbs
    induction lbs with
    | nil => intro _ linked grouped; exact grouped
    | cons lb lbs ih =>
      intro inside linked grouped
      refine ih (fun a member => inside a (List.mem_cons_of_mem _ member)) _ fun a group found => ?_
      simp only at found
      by_cases same : a = lb
      · subst same
        rw [Function.update_self] at found
        cases found
        exact members a (inside a (List.mem_cons_self ..))
      · rw [Function.update_of_ne same] at found
        exact grouped a group found

theorem Linked.members {st : s.Linking i} {rest : List (Fin (s.count i))} (linked : Linked s i st rest) :
    ∀ lb ∈ st.equiv, Grouped s i lb st.equiv :=
  fun lb member => ⟨member,linked.sorted,linked.linkable,fun a other =>
    (linked.header a other).trans (linked.header lb member).symm⟩

theorem link_linked {st : s.Linking i} {lb : Fin (s.count i)} {rest : List (Fin (s.count i))}
    (linked : Linked s i st (lb :: rest)) (linkable : Linkable s ⟨i,lb⟩) (before : ∀ b ∈ rest, Before s i lb b) :
    Linked s i (s.link st lb) rest := by
  simp only [link]
  split
  case isTrue =>
    refine ⟨by simp,by simp,by simpa using linkable,by simpa using before,?_⟩
    exact recordBlocks_grouped linked.grouped linked.members
  case isFalse same =>
    -- the members of the group have the header of the l-block, and smaller numbers
    have header (a : Fin (s.count i)) (member : a ∈ st.equiv) : s.header ⟨i,a⟩ = s.header ⟨i,lb⟩ := by
      obtain ⟨h,found,_⟩ := header_of_linkable (linked.linkable a member)
      have old := linked.header a member
      by_contra differ
      exact same ⟨by rw [← old,found]; rfl,by rw [← old]; exact differ⟩
    have smaller (a : Fin (s.count i)) (member : a ∈ st.equiv) : a < lb := by
      rcases linked.before a member lb (List.mem_cons_self ..) with less | ⟨_,less⟩
      · rw [headerNumber,headerNumber,header a member] at less
        omega
      · exact less
    refine ⟨?_,?_,?_,?_,linked.grouped⟩
    · intro a member
      rcases List.mem_append.mp member with member | member
      · exact header a member
      · rw [List.mem_singleton.mp member]
    · refine List.pairwise_append.mpr ⟨linked.sorted,List.pairwise_singleton ..,fun a member b last => ?_⟩
      rw [List.mem_singleton.mp last]
      exact smaller a member
    · intro a member
      rcases List.mem_append.mp member with member | member
      · exact linked.linkable a member
      · rw [List.mem_singleton.mp member]
        exact linkable
    · intro a member b later
      rcases List.mem_append.mp member with member | member
      · exact linked.before a member b (List.mem_cons_of_mem _ later)
      · rw [List.mem_singleton.mp member]
        exact before b later

theorem linkList_grouped {linked : Fin (s.count i) → Option (List (Fin (s.count i)))} (grouped : AllGrouped s i linked)
    {list : List (Fin (s.count i))} (linkable : ∀ a ∈ list, Linkable s ⟨i,a⟩) (sorted : list.Pairwise (Before s i)) :
    AllGrouped s i (s.linkList linked list) := by
  suffices ∀ rest : List (Fin (s.count i)), (∀ a ∈ rest, Linkable s ⟨i,a⟩) → rest.Pairwise (Before s i) →
      ∀ st : s.Linking i, Linked s i st rest → Linked s i (rest.foldl s.link st) [] by
    have last := this list linkable sorted ⟨[],none,linked⟩ ⟨by simp,by simp,by simp,by simp,grouped⟩
    exact recordBlocks_grouped last.grouped last.members
  intro rest
  induction rest with
  | nil => intro _ _ st linked; exact linked
  | cons lb rest ih =>
    intro linkable sorted st linked
    obtain ⟨first,later⟩ := List.pairwise_cons.mp sorted
    exact ih (fun a member => linkable a (List.mem_cons_of_mem _ member)) later _
      (link_linked linked (linkable lb (List.mem_cons_self ..)) first)

theorem linkSet_grouped (s : LBlockSets p) (i : Fin s.rows) :
    ∃ linked, s.linkSet i = some linked ∧ AllGrouped s i linked := by
  obtain ⟨blockList,done,listed⟩ := addFirstMisses_listed (List.finRange (s.count i))
    (⟨by simp,by simp,by simp⟩ : Listed s i (fun _ => False) fun _ => []) (by simp) (List.pairwise_lt_finRange _)
  refine ⟨_,by rw [linkSet,done]; rfl,?_⟩
  suffices ∀ lists : List (List (Fin (s.count i))),
      (∀ list ∈ lists, (∀ a ∈ list, Linkable s ⟨i,a⟩) ∧ list.Pairwise (Before s i)) → ∀ linked,
      AllGrouped s i linked → AllGrouped s i (lists.foldl s.linkList linked) by
    refine this _ (fun list member => ?_) _ fun _ _ none => by cases none
    obtain ⟨cbid,_,rfl⟩ := List.mem_map.mp member
    exact ⟨listed.linkable cbid,listed.sorted cbid⟩
  intro lists
  induction lists with
  | nil => intro _ linked grouped; exact grouped
  | cons list lists ih =>
    intro sorted linked grouped
    obtain ⟨linkable,ordered⟩ := sorted list (List.mem_cons_self ..)
    exact ih (fun other member => sorted other (List.mem_cons_of_mem _ member)) _ (linkList_grouped grouped linkable ordered)

/-- The detector links first misses of one set that share a header, and the last one of a group
    has the greatest number. -/
theorem linkedBlocks_grouped (s : LBlockSets p) :
    ∃ linked, s.linkedBlocks = some linked ∧ ∀ l group, linked l = some group →
      ∃ lbs, group = lbs.map (fun lb => ⟨l.1,lb⟩) ∧ Grouped s l.1 l.2 lbs := by
  have all (i : Fin s.rows) : (s.linkSet i).isSome := by
    obtain ⟨linked,done,_⟩ := linkSet_grouped s i
    rw [done]; rfl
  refine ⟨_,dif_pos all,fun l group found => ?_⟩
  obtain ⟨lbs,here,rfl⟩ := Option.map_eq_some_iff.mp found
  obtain ⟨linked,done,grouped⟩ := linkSet_grouped s l.1
  refine ⟨lbs,rfl,grouped l.2 lbs ?_⟩
  exact (Option.get_of_eq_some _ done ▸ here :)

end

end Otawa.Cat2
