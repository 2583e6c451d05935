import Otawa.CacheMust
import Mathlib.Data.List.Infix

/-!
MUST analysis of the instruction cache of level 1: the l-blocks of a basic block that
map to a set, the first and the last of them (`FirstLastBuilder`) and the update of
the state of the set, which injects the last one only. `update_covers_iff` says when
this covers the fetch of all of them.
-/
namespace Otawa.Cache
open Otawa.LruSet (Lru Within)

abbrev Addr := BitVec 32

/-- The geometry of `hard::Cache`. -/
structure Geometry where
  blockBits : Nat
  rowBits : Nat
  wayBits : Nat

namespace Geometry

def wayCount (cache : Geometry) : Nat := 1 <<< cache.wayBits
def rowCount (cache : Geometry) : Addr := 1 <<< cache.rowBits
def lineMask (cache : Geometry) : Addr := (cache.rowCount - 1) <<< cache.blockBits
/-- `line`, the set of an address. -/
def line (cache : Geometry) (addr : Addr) : Addr := (addr &&& cache.lineMask) >>> cache.blockBits
/-- `block`, the number of the cache block of an address. -/
def block (cache : Geometry) (addr : Addr) : Addr := addr >>> cache.blockBits

end Geometry

/-- `LBlock`: its address and the identifier of its cache block in its set. -/
structure LBlock (size : Nat) where
  address : Addr
  cid : Fin size

variable {size : Nat}

/-- The l-blocks of least and greatest address found so far in a line. -/
structure FirstLast (size : Nat) where
  min : Option (LBlock size)
  max : Option (LBlock size)

/-- One turn of the loop of `FirstLastBuilder::processCFG` on the l-blocks, for a line. -/
def FirstLast.step (cache : Geometry) (line : Addr) (found : FirstLast size) (lblock : LBlock size) : FirstLast size :=
  if cache.line lblock.address = line then
    { max :=
        match found.max with
        | none => some lblock
        | some max => if max.address < lblock.address then some lblock else some max
      min :=
        match found.min with
        | none => some lblock
        | some min => if lblock.address < min.address then some lblock else some min }
  else found

/-- `LAST_LBLOCK` of a basic block, for a line. -/
def lastLBlock (cache : Geometry) (line : Addr) (lblocks : List (LBlock size)) : Option (LBlock size) :=
  (lblocks.foldl (FirstLast.step cache line) ⟨none,none⟩).max

def update {A : Nat} (cache : Geometry) (line : Addr) (lblocks : List (LBlock size)) (s : ACS size A) : ACS size A :=
  match lastLBlock cache line lblocks with
  | none => s
  | some lblock => s.inject lblock.cid

/-- The l-blocks of a basic block that map to a line. -/
def mapped (cache : Geometry) (line : Addr) (lblocks : List (LBlock size)) : List (LBlock size) :=
  lblocks.filter fun lblock => cache.line lblock.address = line

/-- The table of a basic block (`BB_LBLOCKS`): one l-block for each cache block, in
    address order, and identifiers of the collection for those of the line. -/
structure Table (cache : Geometry) (line : Addr) (names : Naming size Addr) (lblocks : List (LBlock size)) : Prop where
  ascending : lblocks.Pairwise fun a b => cache.block a.address < cache.block b.address
  named : ∀ lblock ∈ mapped cache line lblocks, names.block lblock.cid = some (cache.block lblock.address)

/-! ### The last l-block -/

theorem lt_of_block_lt {cache : Geometry} {a b : Addr} (less : cache.block a < cache.block b) : a < b := by
  by_contra notLess
  simp only [Geometry.block,BitVec.lt_def,BitVec.toNat_ushiftRight] at less notLess
  have : b.toNat >>> cache.blockBits ≤ a.toNat >>> cache.blockBits := by
    rw [Nat.shiftRight_eq_div_pow,Nat.shiftRight_eq_div_pow]
    exact Nat.div_le_div_right (by omega)
  omega

private theorem fold_max (cache : Geometry) (line : Addr) {lblocks : List (LBlock size)} {found : FirstLast size}
    (ascending : lblocks.Pairwise fun a b => a.address < b.address)
    (above : ∀ max, found.max = some max → ∀ lblock ∈ lblocks, max.address < lblock.address) :
    (lblocks.foldl (FirstLast.step cache line) found).max =
      ((mapped cache line lblocks).getLast?).or found.max := by
  induction lblocks generalizing found with
  | nil => simp [mapped]
  | cons lblock rest ih =>
    obtain ⟨first,tail⟩ := List.pairwise_cons.mp ascending
    rw [List.foldl_cons]
    by_cases here : cache.line lblock.address = line
    · have stepped : (FirstLast.step cache line found lblock).max = some lblock := by
        simp only [FirstLast.step,here,if_true]
        cases max : found.max with
        | none => rfl
        | some m => exact if_pos (above m max lblock List.mem_cons_self)
      rw [ih tail fun max same later member => by rw [stepped] at same; cases same; exact first later member,stepped]
      simp only [mapped,List.filter_cons,here,decide_true,if_true,List.getLast?_cons]
      cases (List.filter (fun l : LBlock size => decide (cache.line l.address = line)) rest).getLast? <;> rfl
    · have stepped : FirstLast.step cache line found lblock = found := by simp [FirstLast.step,here]
      rw [stepped,ih tail fun max same later member => above max same later (List.mem_cons_of_mem _ member)]
      simp [mapped,here]

theorem lastLBlock_eq {cache : Geometry} {line : Addr} {names : Naming size Addr} {lblocks : List (LBlock size)}
    (table : Table cache line names lblocks) :
    lastLBlock cache line lblocks = (mapped cache line lblocks).getLast? := by
  have ascending : lblocks.Pairwise fun a b => a.address < b.address := table.ascending.imp lt_of_block_lt
  rw [lastLBlock,fold_max cache line ascending (by simp)]
  simp

/-! ### Several l-blocks in a line -/

def fetched (cache : Geometry) (line : Addr) (lblocks : List (LBlock size)) : List Addr :=
  (mapped cache line lblocks).map fun lblock => cache.block lblock.address

/-- The state after the update is sound for the set after all the fetches, from
    any sound state and set. -/
def Covers (cache : Geometry) (line : Addr) (names : Naming size Addr) (lblocks : List (LBlock size)) : Prop :=
  ∀ (s : ACS size cache.wayCount) (c : Lru Addr cache.wayCount), Sound names s c →
    Sound names (update cache line lblocks s) (c.accesses (fetched cache line lblocks))

variable {A : Nat} {names : Naming size Addr}

private theorem within_one {c : Lru Addr A} (ways : 1 < A) {y z : Addr} (different : y ≠ z) (x : Addr) :
    Within ((c.access y).access z) x 1 ↔ x = z ∨ x = y := by
  rw [LruSet.within_access ways]
  apply or_congr_right
  show x ∈ (((y :: c.blocks.erase y).take A).erase z).take 1 ↔ x = y
  obtain ⟨k,rfl⟩ : ∃ k, A = k + 1 := ⟨A - 1,by omega⟩
  rw [List.take_succ_cons,List.erase_cons_tail (by simpa using different)]
  simp

private def single (i : Fin size) (ways : 0 < A) : ACS size A where
  age j := if j = i then 0 else -1
  valid j := by split <;> omega
  ways := ways

private def singleSet (b : Addr) (ways : 0 < A) : Lru Addr A := ⟨[b],by simp,ways,ways⟩

private theorem single_sound {i : Fin size} {b : Addr} (named : names.block i = some b) (ways : 0 < A) :
    Sound names (single i ways) (singleSet b ways) := by
  intro j present
  by_cases same : j = i
  · subst same
    exact ⟨b,named,by simp [LruSet.Within,singleSet]⟩
  · exact absurd (by simp [single,same]) present

private theorem single_inject {i id : Fin size} (ways : 1 < A) (other : i ≠ id) :
    ((single i (Nat.zero_lt_of_lt ways)).inject id).age i = 1 := by
  have absent : (single i (Nat.zero_lt_of_lt ways)).contains id = false := by
    simp [ACS.contains,single,other.symm]
  simp only [ACS.inject,Function.update_of_ne other,ACS.aged,absent,Bool.false_eq_true,if_false]
  have notFull : (1 : Int) ≠ A := by omega
  simp [single,older,notFull]

private theorem uncovered {cache : Geometry} {line : Addr} {lblocks before : List (LBlock size)} {y z : LBlock size}
    (table : Table cache line names lblocks) (ways : 1 < cache.wayCount)
    (two : mapped cache line lblocks = before ++ [y,z]) {i : Fin size} {b : Addr} (named : names.block i = some b)
    (notLast : b ≠ cache.block z.address) (notBefore : b ≠ cache.block y.address) :
    ¬ Covers cache line names lblocks := by
  intro covers
  have positive : 0 < cache.wayCount := Nat.zero_lt_of_lt ways
  have sound := covers (single i positive) (singleSet b positive) (single_sound named positive)
  have zMem : z ∈ mapped cache line lblocks := by rw [two]; simp
  have other : i ≠ z.cid := by
    rintro rfl
    rw [table.named z zMem] at named
    exact notLast (Option.some.inj named).symm
  have different : cache.block y.address ≠ cache.block z.address := by
    have ascending := table.ascending.filter (fun lblock : LBlock size => decide (cache.line lblock.address = line))
    rw [show List.filter _ lblocks = _ from two,List.pairwise_append] at ascending
    have less := List.rel_of_pairwise_cons ascending.2.1 (List.mem_singleton_self z)
    intro same
    rw [same,BitVec.lt_def] at less
    omega
  have last : lastLBlock cache line lblocks = some z := by rw [lastLBlock_eq table,two]; simp
  have aged : (update cache line lblocks (single i positive)).age i = 1 := by
    rw [update,last]; exact single_inject ways other
  obtain ⟨x,named',within⟩ := sound i (by rw [aged]; decide)
  cases named.symm.trans named'
  rw [aged] at within
  have blocks : fetched cache line lblocks =
      before.map (fun lblock => cache.block lblock.address) ++ [cache.block y.address,cache.block z.address] := by
    rw [fetched,two]; simp
  rw [blocks,Lru.accesses,List.foldl_append] at within
  rcases (within_one ways different b).mp within with same | same
  · exact notLast same
  · exact notBefore same

private theorem inject_one_way {s : ACS size A} {c : Lru Addr A} (oneWay : A = 1) (sound : Sound names s c)
    {id : Fin size} {b : Addr} (named : names.block id = some b) (c' : Lru Addr A) :
    Sound names (s.inject id) (c'.access b) := by
  subst oneWay
  intro i present
  by_cases same : i = id
  · subst same
    exact ⟨b,named,by simpa [ACS.inject] using LruSet.within_access_self c' b⟩
  exfalso
  apply present
  simp only [ACS.inject,Function.update_of_ne same,ACS.aged]
  have known := s.valid i
  have known' := s.valid id
  by_cases inside : s.contains id
  · rw [if_pos inside]
    have contained : s.age id ≠ -1 := by simpa [ACS.contains] using inside
    by_contra kept
    have here : s.age i = 0 := by split at kept <;> omega
    have there : s.age id = 0 := by omega
    obtain ⟨x,xNamed,xWithin⟩ := sound i (by omega)
    obtain ⟨y,yNamed,yWithin⟩ := sound id contained
    rw [here] at xWithin
    rw [there] at yWithin
    cases LruSet.within_zero xWithin yWithin
    exact same (names.injective i id x xNamed yNamed)
  · rw [if_neg inside]
    unfold older
    dsimp only
    split <;> split <;> omega

private theorem inject_age_pos {s : ACS size A} {c : Lru Addr A} (sound : Sound names s c) {i id : Fin size}
    (other : i ≠ id) (present : (s.inject id).age i ≠ -1) : 1 ≤ (s.inject id).age i ∧ s.age i ≠ -1 := by
  simp only [ACS.inject,Function.update_of_ne other,ACS.aged] at present ⊢
  have known := s.valid i
  have known' := s.valid id
  by_cases inside : s.contains id
  · rw [if_pos inside] at present ⊢
    have contained : s.age id ≠ -1 := by simpa [ACS.contains] using inside
    have apart : s.age i = 0 → s.age id ≠ 0 := by
      intro here there
      obtain ⟨x,xNamed,xWithin⟩ := sound i (by omega)
      obtain ⟨y,yNamed,yWithin⟩ := sound id contained
      rw [here] at xWithin
      rw [there] at yWithin
      cases LruSet.within_zero xWithin yWithin
      exact other (names.injective i id x xNamed yNamed)
    split at present <;> rename_i younger
    · rw [if_pos younger]; omega
    · rw [if_neg younger]; omega
  · rw [if_neg inside] at present ⊢
    unfold older at present ⊢
    dsimp only at present ⊢
    split at present <;> split at present <;> omega

/-- The update covers the fetches of a line exactly with one way, with at most one
    l-block in the line, or with two that are all the blocks of the collection. -/
theorem update_covers_iff {cache : Geometry} {line : Addr} {lblocks : List (LBlock size)}
    (table : Table cache line names lblocks) :
    Covers cache line names lblocks ↔ cache.wayCount = 1 ∨ (mapped cache line lblocks).length ≤ 1 ∨
      ((mapped cache line lblocks).length = 2 ∧
        ∀ i b, names.block i = some b → b ∈ fetched cache line lblocks) := by
  constructor
  · intro covers
    by_contra failing
    push Not at failing
    obtain ⟨severalWays,several,others⟩ := failing
    have positive : 0 < cache.wayCount := by
      simp only [Geometry.wayCount,Nat.shiftLeft_eq,Nat.one_mul]; exact Nat.two_pow_pos _
    have ways : 1 < cache.wayCount := by omega
    obtain ⟨before,y,z,two⟩ : ∃ before y z, mapped cache line lblocks = before ++ [y,z] := by
      obtain ⟨front,z,lastTwo⟩ := List.eq_nil_or_concat' (mapped cache line lblocks) |>.resolve_left (by
        intro nothing; rw [nothing] at several; simp at several)
      obtain ⟨before,y,frontTwo⟩ := List.eq_nil_or_concat' front |>.resolve_left (by
        intro nothing; rw [lastTwo,nothing] at several; simp at several)
      exact ⟨before,y,z,by rw [lastTwo,frontTwo]; simp⟩
    have blocks : fetched cache line lblocks =
        before.map (fun lblock => cache.block lblock.address) ++ [cache.block y.address,cache.block z.address] := by
      rw [fetched,two]; simp
    cases before with
    | nil =>
      obtain ⟨i,b,named,outside⟩ := others (by rw [two]; rfl)
      rw [blocks] at outside
      exact uncovered table ways two named (by rintro rfl; simp at outside) (by rintro rfl; simp at outside) covers
    | cons x before =>
      have xMem : x ∈ mapped cache line lblocks := by rw [two]; simp
      have ascending := table.ascending.filter (fun lblock : LBlock size => decide (cache.line lblock.address = line))
      rw [show List.filter _ lblocks = _ from two,List.cons_append,List.pairwise_cons] at ascending
      have apart (l : LBlock size) (member : l ∈ [y,z]) : cache.block x.address ≠ cache.block l.address := by
        have less := ascending.1 l (List.mem_append_right _ member)
        intro same
        rw [same,BitVec.lt_def] at less
        omega
      exact uncovered table ways two (table.named x xMem) (apart z (by simp)) (apart y (by simp)) covers
  · intro condition s c sound
    rw [update,lastLBlock_eq table]
    rcases List.eq_nil_or_concat' (mapped cache line lblocks) with nothing | ⟨front,z,split⟩
    · simpa [fetched,nothing,Lru.accesses] using sound
    have zNamed := table.named z (by rw [split]; simp)
    have blocks : fetched cache line lblocks =
        front.map (fun lblock => cache.block lblock.address) ++ [cache.block z.address] := by
      rw [fetched,split]; simp
    have last : (mapped cache line lblocks).getLast? = some z := by rw [split]; simp
    rw [last,blocks,Lru.accesses,List.foldl_append]
    show Sound names (s.inject z.cid) (Lru.access _ (cache.block z.address))
    rcases condition with oneWay | atMostOne | ⟨two,all⟩
    · exact inject_one_way oneWay sound zNamed _
    · rw [split,List.length_append,List.length_singleton] at atMostOne
      have alone : front = [] := List.length_eq_zero_iff.mp (by omega)
      subst alone
      exact inject_sound sound zNamed
    · by_cases oneWay : cache.wayCount = 1
      · exact inject_one_way oneWay sound zNamed _
      have ways : 1 < cache.wayCount := by have := c.ways; omega
      rw [split,List.length_append,List.length_singleton] at two
      obtain ⟨y,alone⟩ := List.length_eq_one_iff.mp (show front.length = 1 by omega)
      subst alone
      intro i present
      by_cases same : i = z.cid
      · subst same
        exact ⟨_,zNamed,by simpa [ACS.inject] using LruSet.within_access_self _ _⟩
      obtain ⟨aged,known⟩ := inject_age_pos sound same present
      obtain ⟨b,named,_⟩ := sound i known
      have notLast : b ≠ cache.block z.address := by
        rintro rfl
        exact same (names.injective i z.cid _ named zNamed)
      have first : b = cache.block y.address := by
        have among := all i b named
        rw [blocks] at among
        simpa [notLast] using among
      have different : cache.block y.address ≠ cache.block z.address := first ▸ notLast
      exact ⟨b,named,((within_one ways different b).mpr (.inr first)).mono (by omega)⟩

/-- Sixteen bytes a block, two sets of two ways; a basic block of two l-blocks of set 0. -/
def twoSets : Geometry := ⟨4,1,1⟩
def twoFetches : List (LBlock 3) := [⟨0x1000,0⟩,⟨0x1010,2⟩,⟨0x1020,1⟩]
def threeBlocks (i : Fin 3) : Option Addr := if i = 0 then some 0x100 else if i = 1 then some 0x102 else some 0x200
def threeNames : Naming 3 Addr where
  block := threeBlocks
  injective i j _ left right :=
    (show ∀ i j, threeBlocks i = threeBlocks j → i = j by decide) i j (left.trans right.symm)

theorem table_twoFetches : Table twoSets 0 threeNames twoFetches where
  ascending := by decide
  named := by decide

theorem update_covers_iff_twoFetches :
    Covers twoSets 0 threeNames twoFetches ↔ twoSets.wayCount = 1 ∨ (mapped twoSets 0 twoFetches).length ≤ 1 ∨
      ((mapped twoSets 0 twoFetches).length = 2 ∧
        ∀ i b, threeNames.block i = some b → b ∈ fetched twoSets 0 twoFetches) :=
  update_covers_iff table_twoFetches

/-- The third block, at the front with age 0, is third after the fetches but gets the age 1. -/
theorem update_skips_fetches :
    ¬ ∀ (size : Nat) (cache : Geometry) (line : Addr) (names : Naming size Addr) (lblocks : List (LBlock size)),
      Table cache line names lblocks → Covers cache line names lblocks := by
  intro covers
  have two : mapped twoSets 0 twoFetches = [] ++ [⟨0x1000,0⟩,⟨0x1020,1⟩] := by
    simp [mapped,twoFetches,twoSets,Geometry.line,Geometry.lineMask,Geometry.rowCount]
  exact uncovered (i := 2) (b := 0x200) table_twoFetches (by decide) two rfl (by decide) (by decide)
    (covers 3 twoSets 0 threeNames twoFetches table_twoFetches)

end Otawa.Cache
