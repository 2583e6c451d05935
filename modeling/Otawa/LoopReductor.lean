import Otawa.Cfg
import Otawa.Folds
import Otawa.PathReads
import Mathlib.Data.Fin.VecNotation
import Mathlib.Data.Finset.Card
import Mathlib.Data.Finset.SDiff
import Mathlib.Data.List.Nodup

/-!
`LoopReductor::reduce`: makes the loops of a CFG reducible by duplicating the blocks
that an irregular edge enters. A virtual copy of the CFG is made, a depth-first search
records in `IN_LOOPS` the headers of the loops of each block, and passes over the blocks
lead each irregular edge to a duplicate until no edge is irregular. Every state of the
virtual CFG covers the source (`Covers`): its edges are copies of edges of the source,
and each copy of a block has a copy of each edge of the block. So the paths read the
same blocks (`reduce_regular`). The last pass has found no irregular edge.
-/
namespace Otawa.LoopReductor
open Otawa.Cfg (CFG EdgeKind)
open Otawa.Folds
open Otawa.PathReads (LabelledGraph)

/-! ### The CFGs -/

structure SourceCFG (n m : Nat) extends CFG n m where
  exit : Fin n
  address : Fin n → Nat
  entry_ne_exit : entry ≠ exit

/-- A block of the virtual CFG by its number, its exit, or the entry of a called CFG. -/
inductive Vertex
  | bb (number : Nat) | exit | called
  deriving DecidableEq

structure Edge where
  source : Vertex
  target : Vertex
  kind : EdgeKind
  deriving DecidableEq

/-- The blocks of the virtual CFG, each given by the source block it is made from, and
    its edges, the newest first. -/
structure VirtualCFG (n : Nat) where
  original : List (Fin n)
  edges : List Edge

/-- `InIterator`: a call edge is in no list of input edges. -/
def VirtualCFG.ins {n : Nat} (v : VirtualCFG n) (bb : Vertex) : List Edge :=
  v.edges.filter fun e => e.kind ≠ .call ∧ e.target = bb

/-- `OutIterator`. -/
def VirtualCFG.outs {n : Nat} (v : VirtualCFG n) (bb : Vertex) : List Edge := v.edges.filter fun e => e.source = bb

namespace SourceCFG
variable {n m : Nat} (g : SourceCFG n m)

def copied : List (Fin n) := g.entry :: g.blocks.filter fun b => b ≠ g.entry ∧ b ≠ g.exit

/-- `map`: the copy of a block. -/
def map (b : Fin n) : Vertex := if b = g.exit then .exit else .bb (g.copied.idxOf b)

def copyEdge (e : Fin m) : Edge :=
  ⟨g.map (g.source e),if g.kind e = .call then .called else g.map (g.target e),g.kind e⟩

def copy : VirtualCFG n :=
  ⟨g.copied,(g.blocks.flatMap fun b => (g.outs b).map g.copyEdge).reverse⟩

/-- `address()` of a vertex of the copy; the entry and the exit have no code. -/
def addressOf : Vertex → Nat
  | .bb i =>
    match g.copied[i]? with
    | some b => if b = g.entry then 0 else g.address b
    | none => 0
  | _ => 0

end SourceCFG

def compare (address : Vertex → Nat) (e f : Edge) : Int :=
  if address e.target ≠ 0 ∧ address f.target ≠ 0 then
    if address e.target > address f.target then 1 else -1
  else 0

/-- `SortedSLList::add`. -/
def sortedAdd (address : Vertex → Nat) (value : Edge) : List Edge → List Edge
  | [] => [value]
  | current :: rest =>
    if compare address value current < 0 then value :: current :: rest
    else current :: sortedAdd address value rest

/-- The list `successors` of a block. -/
def SourceCFG.successors {n m : Nat} (g : SourceCFG n m) (bb : Nat) : List Edge :=
  (g.copy.outs (.bb bb)).foldl (fun list e => sortedAdd g.addressOf e list) []

/-- The properties that the search sets: `MARK`, `LOOP_HEADER` and `IN_LOOPS`. -/
structure Search where
  mark : Nat → Bool
  header : Nat → Bool
  inLoops : Nat → Finset Nat

def addFrom (ancestors : List Nat) (bit : Nat) (inLoops : Nat → Finset Nat) : Nat → Finset Nat :=
  (ancestors.dropWhile (· ≠ bit)).foldl (fun sets member => Function.update sets member (insert bit (sets member)))
    inLoops

/-- The target of an edge is an ancestor: it is a loop header. Adding its number to a bit
    set fails out of the size of the set. -/
def backEdge (size : Nat) (ancestors : List Nat) (target : Nat) (s : Search) : Option Search :=
  if target < size then
    some {s with header := Function.update s.header target true, inLoops := addFrom ancestors target s.inLoops}
  else none

/-- The ancestors are in the loops of the target of an edge that are open. -/
def shareLoops (size : Nat) (ancestors : List Nat) (target : Nat) (s : Search) : Search :=
  let bits := (List.range size).filter (· ∈ s.inLoops target)
  {s with inLoops := bits.foldl (fun sets bit => addFrom ancestors bit sets) s.inLoops}

/-- `depthFirstSearch`, on a stack of at most `fuel` calls. -/
def depthFirstSearch (successors : Nat → List Edge) (size : Nat) :
    Nat → Nat → List Nat → Search → Option Search
  | 0, _, _, _ => none
  | fuel + 1, bb, ancestors, s =>
    (successors bb).foldlM (fun s edge =>
      match edge.target with
      | .bb target =>
        if edge.kind = .call then some s
        else if s.mark target = false then
          depthFirstSearch successors size fuel target (ancestors ++ [bb]) s
        else if target ∈ ancestors ++ [bb] then
          (backEdge size (ancestors ++ [bb]) target s).map (shareLoops size (ancestors ++ [bb]) target)
        else some (shareLoops size (ancestors ++ [bb]) target s)
      | _ => some s)
      {s with mark := Function.update s.mark bb true}

/-! ### The reduction -/

/-- The virtual CFG with `IN_LOOPS`, whose sets have one size, `LOOP_HEADER` and
    `DUPLICATE_OF`. -/
structure Reduction (n : Nat) extends VirtualCFG n where
  size : Nat
  inLoops : Nat → Finset Nat
  header : Nat → Bool
  duplicateOf : Nat → Option Nat

namespace Reduction
variable {n : Nat}

/-- The bit set `IN_LOOPS` of a vertex; the exit has none. -/
def loops (s : Reduction n) : Vertex → Option (Finset Nat)
  | .bb i => some (s.inLoops i)
  | _ => none

/-- `DUPLICATE_OF` of a vertex if it is set, or else the vertex. -/
def redirect (s : Reduction n) : Vertex → Vertex
  | .bb i =>
    match s.duplicateOf i with
    | some d => .bb d
    | none => .bb i
  | v => v

def makeDuplicate (s : Reduction n) (bb : Nat) (loops : Finset Nat) : Option (Reduction n) :=
  match s.original[bb]?, s.duplicateOf bb with
  | some block, none =>
    let number := s.original.length
    let t := {s with
      original := s.original ++ [block]
      duplicateOf := Function.update s.duplicateOf bb (some number)
      inLoops := Function.update s.inLoops number loops
      header := Function.update s.header number (s.header bb)}
    some {t with
      edges := ((s.outs (.bb bb)).map fun e => ⟨.bb number,t.redirect e.target,e.kind⟩).reverse ++ s.edges}
  | _, _ => none

/-- An edge that enters the given loops with the block is a regular entry. `contains`
    fails out of the size of the set. -/
def regular (size : Nat) (entered : Finset Nat) (number : Nat) : Option Bool :=
  if entered.card = 0 then some true
  else if entered.card = 1 then
    if number < size then some (decide (number ∈ entered)) else none
  else some false

end Reduction

/-- The variables of the loop over the input edges of a block. -/
structure Scan (n : Nat) extends Reduction n where
  duplicate : Option Nat
  toDel : List Edge
  done : Bool

namespace Reduction
variable {n : Nat}

/-- The body of the loop over the input edges. -/
def processEdge (bb : Nat) (c : Scan n) (edge : Edge) : Option (Scan n) := do
  let source ← c.loops edge.source
  if ← regular c.size (c.inLoops bb \ source) bb then
    some c
  else
    let (s,d) ← match c.duplicate with
      | some d => some (c.toReduction,d)
      | none => (c.makeDuplicate bb source).map fun s => (s,c.original.length)
    some {s with
      edges := ⟨edge.source,.bb d,edge.kind⟩ :: s.edges
      duplicate := some d
      toDel := c.toDel ++ [edge]
      done := false}

/-- The body of the loop over the blocks. Equal input edges are irregular together, so
    that removing the edges to delete as values removes the same ones. -/
def processBlock (c : Reduction n × Bool) (bb : Nat) : Option (Reduction n × Bool) := do
  let scan ← (c.1.ins (.bb bb)).foldlM (processEdge bb) {c.1 with duplicate := none, toDel := [], done := c.2}
  some ({scan.toReduction with edges := scan.edges.filter (· ∉ scan.toDel)},scan.done)

/-- The body of the loop `while(!done)`. The iterator keeps the number of blocks that it
    was built with, so that the new duplicates wait for the next pass. -/
def pass (s : Reduction n) : Option (Reduction n × Bool) :=
  (List.range s.original.length).foldlM processBlock (s,true)

/-- The loop `while(!done)`, for at most `fuel` passes. -/
def passes : Nat → Reduction n → Option (Reduction n)
  | 0, _ => none
  | fuel + 1, s => do
    let (s,done) ← s.pass
    if done then some s else passes fuel s

end Reduction

def SourceCFG.reduce {n m : Nat} (g : SourceCFG n m) (fuel : Nat) : Option (Reduction n) := do
  let s ← depthFirstSearch g.successors g.copied.length fuel 0 [] ⟨fun _ => false,fun _ => false,fun _ => ∅⟩
  Reduction.passes fuel {g.copy with
    size := g.copied.length
    inLoops := s.inLoops
    header := s.header
    duplicateOf := fun _ => none}

def VirtualCFG.Copies {n : Nat} (v : VirtualCFG n) (exit : Fin n) : Vertex → Fin n → Prop
  | .bb i, b => v.original[i]? = some b
  | .exit, b => b = exit
  | .called, _ => False

/-- The edges are copies of edges of the source, and a copy of a block has a copy of each
    edge of the block. -/
structure Covers {n m : Nat} (g : SourceCFG n m) (v : VirtualCFG n) : Prop where
  entry : v.original[0]? = some g.entry
  exit : g.exit ∉ v.original
  down : ∀ e ∈ v.edges, e.kind ≠ .call →
    ∃ a b, v.Copies g.exit e.source a ∧ v.Copies g.exit e.target b ∧ g.Flow a b
  up : ∀ x a b, v.Copies g.exit x a → g.Flow a b →
    ∃ e ∈ v.edges, e.kind ≠ .call ∧ e.source = x ∧ v.Copies g.exit e.target b

namespace VirtualCFG
variable {n : Nat} {v w : VirtualCFG n} {exit : Fin n} {x : Vertex} {a b : Fin n}

theorem Copies.unique (one : v.Copies exit x a) (two : v.Copies exit x b) : a = b := by
  cases x with
  | bb i => exact Option.some.inj (one.symm.trans two)
  | exit => exact one.trans two.symm
  | called => exact one.elim

theorem Copies.grow {added : List (Fin n)} (blocks : w.original = v.original ++ added) (copy : v.Copies exit x a) :
    w.Copies exit x a := by
  cases x with
  | bb i =>
    simp only [Copies] at copy ⊢
    rw [blocks,List.getElem?_append_left (List.getElem?_eq_some_iff.mp copy).1,copy]
  | exit => exact copy
  | called => exact copy.elim

end VirtualCFG

namespace SourceCFG
variable {n m : Nat} {g : SourceCFG n m} {a b : Fin n} {x : Vertex}

theorem mem_copied : b ∈ g.copied ↔ b ≠ g.exit := by
  by_cases entry : b = g.entry
  · simp [copied,entry,g.entry_ne_exit]
  · simp [copied,entry]

theorem nodup_copied : g.copied.Nodup :=
  List.nodup_cons.mpr ⟨by simp,(List.nodup_finRange n).filter _⟩

theorem copies_map : g.copy.Copies g.exit (g.map b) b := by
  unfold map
  split
  case isTrue exit => exact exit
  case isFalse inner =>
    have member : b ∈ g.copied := mem_copied.mpr inner
    exact List.getElem?_eq_some_iff.mpr ⟨List.idxOf_lt_length_of_mem member,List.getElem_idxOf _⟩

theorem eq_map (copy : g.copy.Copies g.exit x b) : x = g.map b := by
  cases x with
  | bb i =>
    obtain ⟨bound,same⟩ := List.getElem?_eq_some_iff.mp copy
    have inner : b ≠ g.exit := mem_copied.mp (same ▸ List.getElem_mem bound)
    have index : g.copied.idxOf b = i := by
      subst same
      exact (nodup_copied (g := g)).idxOf_getElem i bound
    simp [map,inner,index]
  | exit =>
    have exit : b = g.exit := copy
    simp [map,exit]
  | called => exact copy.elim

theorem mem_copy_edges {e : Edge} : e ∈ g.copy.edges ↔ ∃ i, g.copyEdge i = e := by
  simp [copy]

theorem covers_copy : Covers g g.copy where
  entry := rfl
  exit := fun member => mem_copied.mp member rfl
  down := by
    intro e member flow
    obtain ⟨i,rfl⟩ := mem_copy_edges.mp member
    have kind : g.kind i ≠ .call := flow
    refine ⟨g.source i,g.target i,copies_map,?_,i,kind,rfl,rfl⟩
    simp only [copyEdge,kind,if_false]
    exact copies_map
  up := by
    rintro x a b copy ⟨i,kind,rfl,rfl⟩
    refine ⟨g.copyEdge i,mem_copy_edges.mpr ⟨i,rfl⟩,kind,(eq_map copy).symm,?_⟩
    simp only [copyEdge,kind,if_false]
    exact copies_map

end SourceCFG

namespace Reduction
variable {n m : Nat} {g : SourceCFG n m} {s t : Reduction n}

/-- `DUPLICATE_OF` gives a copy of the same block. -/
def SameDuplicates (s : Reduction n) : Prop :=
  ∀ i d, s.duplicateOf i = some d → ∃ b, s.original[i]? = some b ∧ s.original[d]? = some b

theorem copies_redirect (same : s.SameDuplicates) {exit b : Fin n} {x : Vertex} (copy : s.Copies exit x b) :
    s.Copies exit (s.redirect x) b := by
  cases x with
  | bb i =>
    cases d : s.duplicateOf i with
    | none => simpa only [redirect,d] using copy
    | some j =>
      obtain ⟨c,one,two⟩ := same i j d
      obtain rfl : c = b := Option.some.inj (one.symm.trans copy)
      simp only [redirect,d]
      exact two
  | exit => exact copy
  | called => exact copy.elim

structure Duplicated (s t : Reduction n) (bb : Nat) (loops : Finset Nat) (block : Fin n) : Prop where
  known : s.original[bb]? = some block
  original : t.original = s.original ++ [block]
  edges : t.edges = ((s.outs (.bb bb)).map fun e =>
    ⟨.bb s.original.length,t.redirect e.target,e.kind⟩).reverse ++ s.edges
  size : t.size = s.size
  inLoops : t.inLoops = Function.update s.inLoops s.original.length loops
  header : t.header = Function.update s.header s.original.length (s.header bb)
  duplicateOf : t.duplicateOf = Function.update s.duplicateOf bb (some s.original.length)

theorem makeDuplicate_cases {bb : Nat} {loops : Finset Nat} (made : s.makeDuplicate bb loops = some t) :
    ∃ block, Duplicated s t bb loops block := by
  cases known : s.original[bb]? with
  | none => simp [makeDuplicate,known] at made
  | some block =>
    cases first : s.duplicateOf bb with
    | none =>
      simp only [makeDuplicate,known,first,Option.some.injEq] at made
      subst made
      exact ⟨block,known,rfl,rfl,rfl,rfl,rfl,rfl⟩
    | some d => simp [makeDuplicate,known,first] at made

namespace Duplicated
variable {bb : Nat} {loops : Finset Nat} {block : Fin n}

theorem duplicate (made : Duplicated s t bb loops block) : t.original[s.original.length]? = some block := by
  rw [made.original,List.getElem?_concat_length]

theorem kept (made : Duplicated s t bb loops block) {e : Edge} (member : e ∈ s.edges) : e ∈ t.edges := by
  rw [made.edges]
  exact List.mem_append_right _ member

theorem grow (made : Duplicated s t bb loops block) {i : Nat} {b : Fin n} (known : s.original[i]? = some b) :
    t.original[i]? = some b := by
  rw [made.original,List.getElem?_append_left (List.getElem?_eq_some_iff.mp known).1,known]

theorem sameDuplicates (made : Duplicated s t bb loops block) (same : s.SameDuplicates) : t.SameDuplicates := by
  intro i d set
  rw [made.duplicateOf,Function.update_apply] at set
  split at set
  case isTrue here =>
    cases set
    exact ⟨block,here ▸ made.grow made.known,made.duplicate⟩
  case isFalse =>
    obtain ⟨b,one,two⟩ := same i d set
    exact ⟨b,made.grow one,made.grow two⟩

theorem covers (made : Duplicated s t bb loops block) (same : s.SameDuplicates) (covers : Covers g s.toVirtualCFG) :
    Covers g t.toVirtualCFG where
  entry := made.grow covers.entry
  exit := by
    rw [made.original,List.mem_append,not_or]
    refine ⟨covers.exit,fun member => covers.exit ?_⟩
    rw [List.mem_singleton.mp member]
    exact List.mem_of_getElem? made.known
  down := by
    intro e member flow
    rw [made.edges,List.mem_append,List.mem_reverse,List.mem_map] at member
    rcases member with ⟨o,out,rfl⟩ | old
    · -- the copy of an output edge of the block
      obtain ⟨listed,source⟩ := List.mem_filter.mp out
      obtain ⟨a,b,from',into,edge⟩ := covers.down o listed flow
      rw [of_decide_eq_true source] at from'
      obtain rfl : block = a := Option.some.inj (made.known.symm.trans from')
      exact ⟨block,b,made.duplicate,copies_redirect (made.sameDuplicates same) (into.grow made.original),edge⟩
    · obtain ⟨a,b,from',into,edge⟩ := covers.down e old flow
      exact ⟨a,b,from'.grow made.original,into.grow made.original,edge⟩
  up := by
    intro x a b copy edge
    by_cases new : x = .bb s.original.length
    · subst new
      obtain rfl : block = a := Option.some.inj (made.duplicate.symm.trans copy)
      obtain ⟨o,listed,kind,source,into⟩ := covers.up (.bb bb) block b made.known edge
      refine ⟨⟨.bb s.original.length,t.redirect o.target,o.kind⟩,?_,kind,rfl,
        copies_redirect (made.sameDuplicates same) (into.grow made.original)⟩
      rw [made.edges,List.mem_append,List.mem_reverse,List.mem_map]
      exact .inl ⟨o,List.mem_filter.mpr ⟨listed,decide_eq_true source⟩,rfl⟩
    · have old : s.Copies g.exit x a := by
        cases x with
        | bb i =>
          have copy : t.original[i]? = some a := copy
          have other : i ≠ s.original.length := fun here => new (by rw [here])
          have bound : i < t.original.length := (List.getElem?_eq_some_iff.mp copy).1
          rw [made.original,List.length_append,List.length_singleton] at bound
          rw [made.original,List.getElem?_append_left (by omega)] at copy
          exact copy
        | exit => exact copy
        | called => exact copy.elim
      obtain ⟨e,listed,kind,source,into⟩ := covers.up x a b old edge
      exact ⟨e,made.kept listed,kind,source,into.grow made.original⟩

end Duplicated

end Reduction

/-! ### Edges led to the duplicate -/

namespace Covers
variable {n m : Nat} {g : SourceCFG n m} {v : VirtualCFG n}

theorem lead (covers : Covers g v) {e : Edge} (member : e ∈ v.edges) {y : Vertex}
    (same : ∀ b, v.Copies g.exit e.target b → v.Copies g.exit y b) :
    Covers g {v with edges := ⟨e.source,y,e.kind⟩ :: v.edges} where
  entry := covers.entry
  exit := covers.exit
  down := by
    intro o listed flow
    rcases List.mem_cons.mp listed with rfl | old
    · obtain ⟨a,b,source,target,edge⟩ := covers.down e member flow
      exact ⟨a,b,source,same b target,edge⟩
    · exact covers.down o old flow
  up := by
    intro x a b copy edge
    obtain ⟨o,listed,rest⟩ := covers.up x a b copy edge
    exact ⟨o,List.mem_cons_of_mem _ listed,rest⟩

theorem delete (covers : Covers g v) {toDel : List Edge}
    (replaced : ∀ e ∈ toDel, ∀ b, v.Copies g.exit e.target b →
      ∃ o ∈ v.edges, o ∉ toDel ∧ o.source = e.source ∧ o.kind = e.kind ∧ v.Copies g.exit o.target b) :
    Covers g {v with edges := v.edges.filter (· ∉ toDel)} where
  entry := covers.entry
  exit := covers.exit
  down := fun e member flow => covers.down e (List.mem_filter.mp member).1 flow
  up := by
    intro x a b copy edge
    obtain ⟨e,listed,kind,source,target⟩ := covers.up x a b copy edge
    by_cases deleted : e ∈ toDel
    · obtain ⟨o,stays,free,source',kind',target'⟩ := replaced e deleted b target
      exact ⟨o,List.mem_filter.mpr ⟨stays,decide_eq_true free⟩,kind' ▸ kind,source'.trans source,target'⟩
    · exact ⟨e,List.mem_filter.mpr ⟨listed,decide_eq_true deleted⟩,kind,source,target⟩

end Covers

namespace Reduction
variable {n m : Nat} {g : SourceCFG n m} {s t : Reduction n}

/-- The invariant of the reduction: what covers the source, and the loops recorded are
    numbers of loop headers. -/
structure Reducing (g : SourceCFG n m) (s : Reduction n) : Prop where
  covers : Covers g s.toVirtualCFG
  same : s.SameDuplicates
  size : s.size ≤ s.original.length
  headers : ∀ i, ∀ h ∈ s.inLoops i, h < s.size ∧ s.header h = true

theorem loops_headers (reducing : Reducing g s) {x : Vertex} {loops : Finset Nat} (known : s.loops x = some loops) :
    ∀ h ∈ loops, h < s.size ∧ s.header h = true := by
  cases x with
  | bb i => cases known; exact reducing.headers i
  | exit => cases known
  | called => cases known

theorem Duplicated.reducing {bb : Nat} {loops : Finset Nat} {block : Fin n} (made : Duplicated s t bb loops block)
    (reducing : Reducing g s) (headers : ∀ h ∈ loops, h < s.size ∧ s.header h = true) : Reducing g t where
  covers := made.covers reducing.same reducing.covers
  same := made.sameDuplicates reducing.same
  size := by
    rw [made.size,made.original,List.length_append]
    exact Nat.le_add_right_of_le reducing.size
  headers := by
    intro i h member
    have before : h < s.size ∧ s.header h = true := by
      rw [made.inLoops,Function.update_apply] at member
      split at member
      case isTrue => exact headers h member
      case isFalse => exact reducing.headers i h member
    have old : h ≠ s.original.length := Nat.ne_of_lt (Nat.lt_of_lt_of_le before.1 reducing.size)
    rw [made.size,made.header,Function.update_of_ne old]
    exact before

variable {bb : Nat}

theorem processEdge_cases {c c' : Scan n} {edge : Edge} (turn : processEdge bb c edge = some c') :
    ∃ source, c.loops edge.source = some source ∧
      (regular c.size (c.inLoops bb \ source) bb = some true ∧ c' = c ∨
      ∃ t d, (c.duplicate = some d ∧ t = c.toReduction ∨
          (∃ block, Duplicated c.toReduction t bb source block) ∧ d = c.original.length) ∧
        c' = {t with
          edges := ⟨edge.source,.bb d,edge.kind⟩ :: t.edges
          duplicate := some d
          toDel := c.toDel ++ [edge]
          done := false}) := by
  simp only [processEdge,Option.bind_eq_bind,Option.bind_eq_some_iff] at turn
  obtain ⟨source,known,test,regular,turn⟩ := turn
  refine ⟨source,known,?_⟩
  cases test with
  | true =>
    simp only [if_true,Option.some.injEq] at turn
    exact .inl ⟨regular,turn.symm⟩
  | false =>
    cases duplicate : c.duplicate with
    | some d =>
      simp only [Bool.false_eq_true,if_false,duplicate,Option.bind_some,Option.some.injEq] at turn
      exact .inr ⟨c.toReduction,d,.inl ⟨rfl,rfl⟩,turn.symm⟩
    | none =>
      simp only [Bool.false_eq_true,if_false,duplicate,Option.bind_eq_some_iff,Option.map_eq_some_iff,
        Option.some.injEq] at turn
      obtain ⟨-,⟨t,made,rfl⟩,turn⟩ := turn
      exact .inr ⟨t,c.original.length,.inr ⟨makeDuplicate_cases made,rfl⟩,turn.symm⟩

/-- The invariant of the loop over the input edges of a block. -/
structure Scanning (g : SourceCFG n m) (ins : List Edge) (bb : Nat) (block : Fin n) (c : Scan n) : Prop where
  reducing : Reducing g c.toReduction
  known : c.original[bb]? = some block
  listed : ∀ e ∈ ins, e ∈ c.edges
  duplicate : ∀ d, c.duplicate = some d → d ≠ bb ∧ c.original[d]? = some block
  replaced : ∀ e ∈ c.toDel, e.target = .bb bb ∧
    ∃ d, d ≠ bb ∧ c.original[d]? = some block ∧ ⟨e.source,.bb d,e.kind⟩ ∈ c.edges

theorem Duplicated.scanning {ins : List Edge} {bb : Nat} {block block' : Fin n} {c : Scan n} {loops : Finset Nat}
    (made : Duplicated c.toReduction t bb loops block') (scanning : Scanning g ins bb block c)
    (headers : ∀ h ∈ loops, h < c.size ∧ c.header h = true) :
    Scanning g ins bb block {t with duplicate := some c.original.length, toDel := c.toDel, done := c.done} where
  reducing := made.reducing scanning.reducing headers
  known := made.grow scanning.known
  listed := fun e member => made.kept (scanning.listed e member)
  duplicate := by
    rintro d same
    cases same
    obtain rfl : block' = block := Option.some.inj (made.known.symm.trans scanning.known)
    exact ⟨Nat.ne_of_gt (List.getElem?_eq_some_iff.mp made.known).1,made.duplicate⟩
  replaced := by
    intro e member
    obtain ⟨target,d,other,known,edge⟩ := scanning.replaced e member
    exact ⟨target,d,other,made.grow known,made.kept edge⟩

theorem Scanning.lead {ins : List Edge} {bb d : Nat} {block : Fin n} {c : Scan n} (scanning : Scanning g ins bb block c)
    (duplicate : c.duplicate = some d) {edge : Edge} (input : edge ∈ ins) (target : edge.target = .bb bb) :
    Scanning g ins bb block {c with
      edges := ⟨edge.source,.bb d,edge.kind⟩ :: c.edges
      duplicate := some d
      toDel := c.toDel ++ [edge]
      done := false} where
  reducing :=
    { covers := scanning.reducing.covers.lead (scanning.listed edge input) fun b copy => by
        rw [target] at copy
        obtain rfl : block = b := Option.some.inj (scanning.known.symm.trans copy)
        exact (scanning.duplicate d duplicate).2
      same := scanning.reducing.same
      size := scanning.reducing.size
      headers := scanning.reducing.headers }
  known := scanning.known
  listed := fun e member => List.mem_cons_of_mem _ (scanning.listed e member)
  duplicate := fun d' same => scanning.duplicate d' (duplicate.trans same)
  replaced := by
    intro e member
    rcases List.mem_append.mp member with old | new
    · obtain ⟨target,d',other,known,edge⟩ := scanning.replaced e old
      exact ⟨target,d',other,known,List.mem_cons_of_mem _ edge⟩
    · obtain ⟨other,known⟩ := scanning.duplicate d duplicate
      rw [List.mem_singleton.mp new]
      exact ⟨target,d,other,known,List.mem_cons_self⟩

theorem processEdge_scanning {ins : List Edge} {block : Fin n} {c c' : Scan n} {edge : Edge}
    (input : edge ∈ ins) (target : edge.target = .bb bb) (turn : processEdge bb c edge = some c')
    (scanning : Scanning g ins bb block c) : Scanning g ins bb block c' := by
  obtain ⟨source,known,⟨-,rfl⟩ | ⟨t,d,chosen,rfl⟩⟩ := processEdge_cases turn
  · exact scanning
  · rcases chosen with ⟨duplicate,rfl⟩ | ⟨⟨block',made⟩,rfl⟩
    · exact scanning.lead duplicate input target
    · exact (made.scanning scanning (loops_headers scanning.reducing known)).lead rfl input target

theorem processBlock_cases {c c' : Reduction n × Bool} (turn : processBlock c bb = some c') :
    ∃ scan,
      (c.1.ins (.bb bb)).foldlM (processEdge bb) {c.1 with duplicate := none, toDel := [], done := c.2} = some scan ∧
      c' = ({scan.toReduction with edges := scan.edges.filter (· ∉ scan.toDel)},scan.done) := by
  simp only [processBlock,Option.bind_eq_bind,Option.bind_eq_some_iff,Option.some.injEq] at turn
  obtain ⟨scan,scanned,rfl⟩ := turn
  exact ⟨scan,scanned,rfl⟩

theorem mem_ins {v : VirtualCFG n} {x : Vertex} {e : Edge} :
    e ∈ v.ins x ↔ e ∈ v.edges ∧ e.kind ≠ .call ∧ e.target = x := by
  simp [VirtualCFG.ins]

theorem known_of_mem_ins (covers : Covers g s.toVirtualCFG) {e : Edge} (member : e ∈ s.ins (.bb bb)) :
    ∃ block, s.original[bb]? = some block := by
  obtain ⟨listed,kind,target⟩ := mem_ins.mp member
  obtain ⟨a,b,-,into,-⟩ := covers.down e listed kind
  rw [target] at into
  exact ⟨b,into⟩

theorem processBlock_reducing {c c' : Reduction n × Bool} (turn : processBlock c bb = some c')
    (reducing : Reducing g c.1) : Reducing g c'.1 := by
  obtain ⟨scan,scanned,rfl⟩ := processBlock_cases turn
  cases inputs : c.1.ins (.bb bb) with
  | nil =>
    rw [inputs,List.foldlM_nil] at scanned
    cases scanned
    simpa using reducing
  | cons first rest =>
  have input : first ∈ c.1.ins (.bb bb) := inputs ▸ List.mem_cons_self
  obtain ⟨block,known⟩ := known_of_mem_ins reducing.covers input
  have scanning : Scanning g (c.1.ins (.bb bb)) bb block scan := by
    refine foldlM_keeps (Scanning g (c.1.ins (.bb bb)) bb block) (fun s e input t turn => ?_) scanned ?_
    · exact processEdge_scanning input (mem_ins.mp input).2.2 turn
    exact
      { reducing
        known
        listed := fun e member => (mem_ins.mp member).1
        duplicate := fun d same => nomatch same
        replaced := fun e member => nomatch member }
  refine
    { covers := scanning.reducing.covers.delete fun e member b copy => ?_
      same := scanning.reducing.same
      size := scanning.reducing.size
      headers := scanning.reducing.headers }
  obtain ⟨target,d,other,duplicate,edge⟩ := scanning.replaced e member
  rw [target] at copy
  obtain rfl : block = b := Option.some.inj (scanning.known.symm.trans copy)
  refine ⟨_,edge,fun deleted => other ?_,rfl,rfl,duplicate⟩
  exact Vertex.bb.inj (scanning.replaced _ deleted).1

def EntersHeader (s : Reduction n) (bb : Nat) (e : Edge) : Prop :=
  ∃ source, s.loops e.source = some source ∧ ∀ h ∈ s.inLoops bb, h ∉ source → h = bb

theorem entersHeader_of_regular {e : Edge} {source : Finset Nat} (known : s.loops e.source = some source)
    (test : regular s.size (s.inLoops bb \ source) bb = some true) : s.EntersHeader bb e := by
  refine ⟨source,known,fun h inside outside => ?_⟩
  have entered : h ∈ s.inLoops bb \ source := Finset.mem_sdiff.mpr ⟨inside,outside⟩
  unfold regular at test
  split at test
  case isTrue none => exact absurd entered (Finset.card_eq_zero.mp none ▸ Finset.notMem_empty h)
  case isFalse =>
    split at test
    case isFalse => cases test
    case isTrue one =>
      split at test
      case isFalse => cases test
      case isTrue =>
        obtain ⟨x,only⟩ := Finset.card_eq_one.mp one
        have here : bb ∈ s.inLoops bb \ source := of_decide_eq_true (Option.some.inj test)
        rw [only] at entered here
        exact (Finset.mem_singleton.mp entered).trans (Finset.mem_singleton.mp here).symm

theorem processEdge_unchanged {c c' : Scan n} {edge : Edge} (turn : processEdge bb c edge = some c')
    (still : c'.done = true) : c' = c ∧ c.EntersHeader bb edge := by
  obtain ⟨source,known,⟨test,rfl⟩ | ⟨t,d,-,rfl⟩⟩ := processEdge_cases turn
  · exact ⟨rfl,entersHeader_of_regular known test⟩
  · cases still

theorem processBlock_unchanged {c c' : Reduction n × Bool} (turn : processBlock c bb = some c')
    (still : c'.2 = true) : c' = c ∧ ∀ e ∈ c.1.ins (.bb bb), c.1.EntersHeader bb e := by
  obtain ⟨scan,scanned,rfl⟩ := processBlock_cases turn
  obtain ⟨rfl,all⟩ := foldlM_unchanged (fun c : Scan n => c.done = true)
    (fun _ _ _ turn still => processEdge_unchanged turn still) scanned still
  exact ⟨by simp,all⟩

theorem pass_reducing {c : Reduction n × Bool} (turn : s.pass = some c) (reducing : Reducing g s) : Reducing g c.1 :=
  foldlM_keeps (fun c : Reduction n × Bool => Reducing g c.1)
    (fun _ _ _ _ turn reducing => processBlock_reducing turn reducing) turn reducing

theorem pass_unchanged {c : Reduction n × Bool} (turn : s.pass = some c) (still : c.2 = true) :
    c.1 = s ∧ ∀ bb < s.original.length, ∀ e ∈ s.ins (.bb bb), s.EntersHeader bb e := by
  obtain ⟨rfl,all⟩ := foldlM_unchanged (fun c : Reduction n × Bool => c.2 = true)
    (fun _ _ _ turn still => processBlock_unchanged turn still) turn still
  exact ⟨rfl,fun bb bound => all bb (List.mem_range.mpr bound)⟩

def loopsOf (s : Reduction n) (x : Vertex) : Finset Nat := (s.loops x).getD ∅

/-- Each edge that enters a loop leads to its header. -/
def Reducible (s : Reduction n) : Prop :=
  ∀ e ∈ s.edges, e.kind ≠ .call → ∀ h ∈ s.loopsOf e.target, h ∉ s.loopsOf e.source →
    e.target = .bb h ∧ s.header h = true

theorem reducible_of_unchanged (reducing : Reducing g s)
    (all : ∀ bb < s.original.length, ∀ e ∈ s.ins (.bb bb), s.EntersHeader bb e) : s.Reducible := by
  intro e member kind h inside outside
  cases target : e.target with
  | bb bb =>
    have input : e ∈ s.ins (.bb bb) := mem_ins.mpr ⟨member,kind,target⟩
    obtain ⟨block,known⟩ := known_of_mem_ins reducing.covers input
    obtain ⟨source,loops,enters⟩ := all bb (List.getElem?_eq_some_iff.mp known).1 e input
    rw [target] at inside
    simp only [loopsOf,loops,Option.getD_some] at inside outside
    obtain rfl := enters h inside outside
    exact ⟨rfl,(reducing.headers h h inside).2⟩
  | exit | called => simp [target,loopsOf,loops] at inside

theorem passes_reducible {fuel : Nat} (done : passes fuel s = some t) (reducing : Reducing g s) :
    Reducing g t ∧ t.Reducible := by
  induction fuel generalizing s with
  | zero => cases done
  | succ fuel ih =>
    simp only [passes,Option.bind_eq_bind,Option.bind_eq_some_iff,Prod.exists] at done
    obtain ⟨u,still,turn,done⟩ := done
    cases still with
    | true =>
      simp only [if_true,Option.some.injEq] at done
      obtain ⟨rfl,all⟩ := pass_unchanged turn rfl
      exact done ▸ ⟨reducing,reducible_of_unchanged reducing all⟩
    | false =>
      simp only [Bool.false_eq_true,if_false] at done
      exact ih done (pass_reducing turn reducing)

end Reduction

/-- The bits of the sets are numbers of loop headers. -/
def Search.Headers (size : Nat) (s : Search) : Prop := ∀ i, ∀ h ∈ s.inLoops i, h < size ∧ s.header h = true

theorem mem_addFrom {ancestors : List Nat} {bit : Nat} {inLoops : Nat → Finset Nat} {i h : Nat}
    (member : h ∈ addFrom ancestors bit inLoops i) : h = bit ∨ h ∈ inLoops i := by
  unfold addFrom at member
  generalize List.dropWhile _ ancestors = members at member
  induction members generalizing inLoops with
  | nil => exact .inr member
  | cons first rest ih =>
    rcases ih member with bit | before
    · exact .inl bit
    · simp only [Function.update_apply] at before
      split at before
      case isTrue here => exact here ▸ Finset.mem_insert.mp before
      case isFalse => exact .inr before

theorem shareLoops_headers {size target : Nat} {ancestors : List Nat} {s : Search} (headers : s.Headers size) :
    (shareLoops size ancestors target s).Headers size := by
  suffices all : ∀ bits : List Nat, (∀ bit ∈ bits, bit < size ∧ s.header bit = true) →
      ∀ sets : Nat → Finset Nat, (∀ i, ∀ h ∈ sets i, h < size ∧ s.header h = true) →
      ∀ i, ∀ h ∈ bits.foldl (fun sets bit => addFrom ancestors bit sets) sets i, h < size ∧ s.header h = true by
    refine all _ (fun bit member => headers target bit ?_) s.inLoops headers
    exact of_decide_eq_true (List.mem_filter.mp member).2
  intro bits
  induction bits with
  | nil => exact fun _ _ known => known
  | cons bit rest ih =>
    intro open_ sets known
    refine ih (fun b member => open_ b (List.mem_cons_of_mem _ member)) _ fun i h member => ?_
    rcases mem_addFrom member with rfl | before
    · exact open_ _ List.mem_cons_self
    · exact known i h before

theorem backEdge_headers {size target : Nat} {ancestors : List Nat} {s t : Search}
    (done : backEdge size ancestors target s = some t) (headers : s.Headers size) : t.Headers size := by
  unfold backEdge at done
  split at done
  case isFalse => cases done
  case isTrue bound =>
    cases done
    intro i h member
    rcases mem_addFrom member with rfl | before
    · exact ⟨bound,by simp⟩
    · obtain ⟨small,header⟩ := headers i h before
      refine ⟨small,?_⟩
      simp only [Function.update_apply,header,ite_self]

theorem depthFirstSearch_headers {successors : Nat → List Edge} {size fuel bb : Nat} {ancestors : List Nat}
    {s t : Search} (done : depthFirstSearch successors size fuel bb ancestors s = some t) (headers : s.Headers size) :
    t.Headers size := by
  induction fuel generalizing bb ancestors s t with
  | zero => cases done
  | succ fuel ih =>
    refine foldlM_keeps (Search.Headers size) (fun s edge _ t turn headers => ?_) done headers
    split at turn
    case h_2 => exact Option.some.inj turn ▸ headers
    case h_1 target _ =>
      split at turn
      case isTrue => exact Option.some.inj turn ▸ headers
      case isFalse =>
        split at turn
        case isTrue => exact ih turn headers
        case isFalse =>
          split at turn
          case isTrue =>
            obtain ⟨u,back,rfl⟩ := Option.map_eq_some_iff.mp turn
            exact shareLoops_headers (backEdge_headers back headers)
          case isFalse => exact Option.some.inj turn ▸ shareLoops_headers headers

namespace SourceCFG
variable {n m : Nat} (g : SourceCFG n m)

def label (b : Fin n) : List (Fin n) := if b = g.entry ∨ b = g.exit then [] else [b]

def graph : LabelledGraph (Fin n) (Fin n) := ⟨g.entry,g.exit,g.Flow,g.label⟩

def virtualGraph (v : VirtualCFG n) : LabelledGraph Vertex (Fin n) where
  entry := .bb 0
  exit := .exit
  link := fun x y => ∃ e ∈ v.edges, e.kind ≠ .call ∧ e.source = x ∧ e.target = y
  label := fun x =>
    match x with
    | .bb i => (v.original[i]?).elim [] g.label
    | _ => []

variable {g}

theorem label_copy {v : VirtualCFG n} {x : Vertex} {b : Fin n} (copy : v.Copies g.exit x b) :
    (g.virtualGraph v).label x = g.label b := by
  cases x with
  | bb i =>
    have known : v.original[i]? = some b := copy
    simp [virtualGraph,known]
  | exit =>
    have exit : b = g.exit := copy
    simp [virtualGraph,label,exit]
  | called => exact copy.elim

theorem language_of_covers {v : VirtualCFG n} (covers : Covers g v) (read : List (Fin n)) :
    (g.virtualGraph v).Language read ↔ g.graph.Language read := by
  constructor
  · intro path
    refine path.transfer (v.Copies g.exit) (h := g.graph) (fun x b copy => label_copy copy) ?_
      (fun b copy => copy) g.entry covers.entry
    rintro x b y copy ⟨e,listed,kind,rfl,rfl⟩
    obtain ⟨a,c,source,target,edge⟩ := covers.down e listed kind
    exact ⟨c,target,(source.unique copy) ▸ edge⟩
  · intro path
    refine path.transfer (fun b x => v.Copies g.exit x b) (h := g.virtualGraph v)
      (fun b x copy => (label_copy copy).symm) ?_ ?_ (.bb 0) covers.entry
    · intro a x b copy edge
      obtain ⟨e,listed,kind,source,target⟩ := covers.up x a b copy edge
      exact ⟨e.target,target,e,listed,kind,source,rfl⟩
    · intro x copy
      cases x with
      | bb i => exact absurd (List.mem_of_getElem? copy) covers.exit
      | exit => rfl
      | called => exact copy.elim

end SourceCFG

/-- When the reduction returns, the paths of the virtual CFG read the same blocks as the
    paths of the source, and each edge that enters a loop leads to its header. -/
theorem reduce_regular {n m : Nat} (g : SourceCFG n m) {fuel : Nat} {s : Reduction n}
    (returns : g.reduce fuel = some s) :
    (∀ read, (g.virtualGraph s.toVirtualCFG).Language read ↔ g.graph.Language read) ∧ s.Reducible := by
  simp only [SourceCFG.reduce,Option.bind_eq_bind,Option.bind_eq_some_iff] at returns
  obtain ⟨search,searched,done⟩ := returns
  have headers := depthFirstSearch_headers searched fun i h member => absurd member (Finset.notMem_empty h)
  obtain ⟨reducing,reducible⟩ := Reduction.passes_reducible (g := g) done
    { covers := SourceCFG.covers_copy
      same := fun i d set => nomatch set
      size := Nat.le_refl _
      headers }
  exact ⟨SourceCFG.language_of_covers reducing.covers,reducible⟩

/-- An outer loop of the blocks 1 to 4 and an inner one of the blocks 2 and 3 that is
    entered at both. -/
def twoEntries : SourceCFG 7 9 where
  entry := 0
  source := ![0,1,1,2,3,3,4,4,5]
  target := ![1,2,3,3,2,4,1,5,6]
  kind := fun _ => .taken
  exit := 6
  address := ![0,4,8,12,16,20,0]
  entry_ne_exit := by decide

/-- The block 3 is duplicated: the duplicate has number 6. -/
theorem reduce_regular_twoEntries : ∃ s, twoEntries.reduce 8 = some s ∧ s.original = [0,1,2,3,4,5,3] ∧
    (∀ read, (twoEntries.virtualGraph s.toVirtualCFG).Language read ↔ twoEntries.graph.Language read) ∧
    s.Reducible := by
  have runs : (twoEntries.reduce 8).map (fun s => s.original) = some [0,1,2,3,4,5,3] := by decide +kernel
  obtain ⟨s,returns,blocks⟩ := Option.map_eq_some_iff.mp runs
  exact ⟨s,returns,blocks,reduce_regular twoEntries returns⟩

end Otawa.LoopReductor
