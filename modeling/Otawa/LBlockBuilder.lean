import Otawa.CacheFirstLast
import Otawa.GenVector
import Mathlib.Data.BitVec
import Mathlib.Logic.Function.Basic

/-!
The l-blocks of an instruction cache (`LBlockBuilder`). A basic block is cut where the
set of its instructions changes; a cache block gets its identifier at its first
l-block, the number of l-blocks that its set then has. A set is a vector and cannot have
more than 32768 of them (`run_cut`).
-/
namespace Otawa.LBlockBuilder
open Otawa.Cache (Addr Geometry)
open Otawa.GenVector (vectorLimit)

def blockMask (cache : Geometry) : Addr := (1#32 <<< cache.blockBits) - 1

/-- `LBlock`. Those that start a set have no instruction. -/
structure LBlock where
  inst : Option Addr
  size : Addr
  cid : Nat
  deriving DecidableEq

/-- A basic block, by the sizes of its instructions, one after the other in memory. -/
structure BasicBlock where
  first : Nat
  sizes : List Nat
  nonempty : sizes ≠ []
  positive : ∀ s ∈ sizes, 0 < s
  fits : first + sizes.sum ≤ 2^32

namespace BasicBlock

def address (bb : BasicBlock) : Addr := BitVec.ofNat 32 bb.first
def size (bb : BasicBlock) : Addr := BitVec.ofNat 32 bb.sizes.sum

def instsFrom (first : Nat) : List Nat → List Addr
  | [] => []
  | s :: sizes => BitVec.ofNat 32 first :: instsFrom (first + s) sizes

/-- `InstIterator`. -/
def insts (bb : BasicBlock) : List Addr := instsFrom bb.first bb.sizes

end BasicBlock

/-- The sets of l-blocks and `block_map`. -/
structure State where
  lbsets : Addr → List LBlock
  blockMap : Addr → Option Nat

/-- `setup`: an l-block of no instruction in each set. -/
def setup : State := ⟨fun _ => [⟨none,0,0⟩],fun _ => none⟩

/-- `Hash_map::get` of a block, and the identifier made when there is none. -/
def cacheBlockId (cache : Geometry) (st : State) (addr : Addr) : Nat :=
  (st.blockMap (cache.block addr)).getD (st.lbsets (cache.line addr)).length

def lblockSize (cache : Geometry) (bb : BasicBlock) (addr : Addr) : Addr :=
  let top := (addr + blockMask cache) &&& ~~~blockMask cache
  let top := if bb.address + bb.size < top then bb.address + bb.size else top
  top - addr

/-- `addLBlock`. `mem` is the bank of an address, with `isCached`; `none` when the vector of
    the set is full. -/
def addLBlock (cache : Geometry) (mem : Addr → Option Bool) (bb : BasicBlock) (st : State) (lblocks : List LBlock)
    (addr : Addr) : Option (State × List LBlock) :=
  if mem addr = some false then some (st,lblocks)
  else
    let cid := cacheBlockId cache st addr
    let lblock := ⟨some addr,lblockSize cache bb addr,cid⟩
    (GenVector.add (st.lbsets (cache.line addr)) lblock).map fun lbset =>
      (⟨Function.update st.lbsets (cache.line addr) lbset,
        Function.update st.blockMap (cache.block addr) (some cid)⟩,lblocks ++ [lblock])

/-- The loop of `processBB`. -/
def traverse (cache : Geometry) (mem : Addr → Option Bool) (bb : BasicBlock) (st : State) (lblocks : List LBlock)
    (set : Addr) : List Addr → Option (State × List LBlock)
  | [] => some (st,lblocks)
  | inst :: insts =>
    if set ≠ cache.line inst then do
      let (st,lblocks) ← addLBlock cache mem bb st lblocks inst
      traverse cache mem bb st lblocks (cache.line inst) insts
    else traverse cache mem bb st lblocks set insts

def numLBlocks (cache : Geometry) (bb : BasicBlock) : Int :=
  ((bb.address + bb.size + blockMask cache) >>> cache.blockBits).toNat - (bb.address >>> cache.blockBits).toNat

/-- `processBB`, with its assertion. -/
def processBB (cache : Geometry) (mem : Addr → Option Bool) (st : State) (bb : BasicBlock) :
    Option (State × List LBlock) := do
  let (st,lblocks) ← traverse cache mem bb st [] (cache.line bb.address - 1) bb.insts
  if lblocks.length = numLBlocks cache bb then some (st,lblocks) else none

def run (cache : Geometry) (mem : Addr → Option Bool) (st : State) : List BasicBlock → Option (State × List (List LBlock))
  | [] => some (st,[])
  | bb :: bbs => do
    let (st,lblocks) ← processBB cache mem st bb
    let (st,tables) ← run cache mem st bbs
    some (st,lblocks :: tables)

/-! ### Blocks and sets -/

section Geometry
variable {cache : Geometry}

theorem block_toNat (a : Addr) : (cache.block a).toNat = a.toNat / 2^cache.blockBits := by
  rw [Geometry.block,BitVec.toNat_ushiftRight,Nat.shiftRight_eq_div_pow]

theorem block_eq_iff {a b : Addr} :
    cache.block a = cache.block b ↔ a.toNat / 2^cache.blockBits = b.toNat / 2^cache.blockBits := by
  rw [← BitVec.toNat_inj,block_toNat,block_toNat]

theorem line_eq_of_block_eq {a b : Addr} (same : cache.block a = cache.block b) : cache.line a = cache.line b := by
  have shifted (a : Addr) : cache.line a = cache.block a &&& cache.lineMask >>> cache.blockBits :=
    BitVec.ushiftRight_and_distrib a _ _
  rw [shifted,shifted,same]

variable (words : cache.blockBits < 32)
include words

theorem blockMask_eq : blockMask cache = BitVec.ofNat 32 (2^cache.blockBits - 1) := by
  have small : 2^cache.blockBits < 2^32 := Nat.pow_lt_pow_right (by omega) words
  have positive : 0 < 2^cache.blockBits := Nat.two_pow_pos _
  have power : (1#32 <<< cache.blockBits).toNat = 2^cache.blockBits := by
    rw [← BitVec.twoPow_eq,BitVec.toNat_twoPow,Nat.mod_eq_of_lt small]
  have unit : (1 : Addr).toNat = 1 := rfl
  apply BitVec.eq_of_toNat_eq
  rw [blockMask,BitVec.toNat_sub,power,BitVec.toNat_ofNat,unit]
  omega

theorem blockMask_toNat : (blockMask cache).toNat = 2^cache.blockBits - 1 := by
  have small : 2^cache.blockBits < 2^32 := Nat.pow_lt_pow_right (by omega) words
  rw [blockMask_eq words,BitVec.toNat_ofNat,Nat.mod_eq_of_lt (by omega)]

theorem getLsbD_blockMask (j : Nat) : (blockMask cache).getLsbD j = decide (j < cache.blockBits) := by
  rw [blockMask_eq words,BitVec.getLsbD_ofNat,Nat.testBit_two_pow_sub_one]
  by_cases inside : j < cache.blockBits
  · simp [inside]; omega
  · simp [inside]

theorem round_toNat (a : Addr) :
    (a &&& ~~~blockMask cache).toNat = a.toNat / 2^cache.blockBits * 2^cache.blockBits := by
  have shifted : a &&& ~~~blockMask cache = (a >>> cache.blockBits) <<< cache.blockBits := by
    apply BitVec.eq_of_getLsbD_eq
    intro j inside
    rw [BitVec.getLsbD_and,BitVec.getLsbD_not,getLsbD_blockMask words,BitVec.getLsbD_shiftLeft,
      BitVec.getLsbD_ushiftRight,decide_eq_true inside]
    by_cases low : j < cache.blockBits
    · simp [low]
    · simp [low,Nat.add_sub_cancel' (Nat.le_of_not_lt low)]
  have below := a.isLt
  have inside := Nat.div_mul_le_self a.toNat (2^cache.blockBits)
  rw [shifted,BitVec.toNat_shiftLeft,BitVec.toNat_ushiftRight,Nat.shiftRight_eq_div_pow,Nat.shiftLeft_eq,
    Nat.mod_eq_of_lt (by omega)]

theorem line_ne {a b : Addr} (sets : 0 < cache.rowBits)
    (next : b.toNat / 2^cache.blockBits = a.toNat / 2^cache.blockBits + 1) : cache.line a ≠ cache.line b := by
  have odd : (cache.rowCount - 1).getLsbD 0 = true := by
    obtain ⟨k,more⟩ := Nat.exists_eq_succ_of_ne_zero sets.ne'
    have even : cache.rowCount.toNat % 2 = 0 := by
      show (BitVec.ofNat 32 (1 <<< cache.rowBits)).toNat % 2 = 0
      rw [BitVec.toNat_ofNat,Nat.one_shiftLeft,more,Nat.pow_succ]
      omega
    have unit : (1 : Addr).toNat = 1 := rfl
    have low : (cache.rowCount - 1).toNat % 2 = 1 := by
      rw [BitVec.toNat_sub,unit]
      omega
    rw [BitVec.getLsbD,Nat.testBit_eq_decide_div_mod_eq]
    simpa using low
  have first (a : Addr) : (cache.line a).getLsbD 0 = decide (a.toNat / 2^cache.blockBits % 2 = 1) := by
    rw [Geometry.line,BitVec.getLsbD_ushiftRight,BitVec.getLsbD_and,Geometry.lineMask,BitVec.getLsbD_shiftLeft,
      Nat.add_zero,Nat.sub_self,odd,decide_eq_true words,BitVec.getLsbD,Nat.testBit_eq_decide_div_mod_eq]
    simp
  intro same
  have parity := (first a).symm.trans ((congrArg (fun w => w.getLsbD 0) same).trans (first b))
  rw [decide_eq_decide] at parity
  omega

end Geometry

section Names
variable {cache : Geometry} {mem : Addr → Option Bool} {bb : BasicBlock} {st : State} {lblocks : List LBlock}

/-- The identifiers given so far: below the length of the set, and one for each block of it. -/
structure Names (cache : Geometry) (st : State) : Prop where
  below : ∀ a cid, st.blockMap (cache.block a) = some cid → cid < (st.lbsets (cache.line a)).length
  apart : ∀ a b cid, cache.line a = cache.line b → st.blockMap (cache.block a) = some cid →
    st.blockMap (cache.block b) = some cid → cache.block a = cache.block b

def Named (cache : Geometry) (st : State) (lblock : LBlock) : Prop :=
  ∃ a, lblock.inst = some a ∧ st.blockMap (cache.block a) = some lblock.cid

theorem names_setup (cache : Geometry) : Names cache setup :=
  ⟨fun _ _ none => (nomatch none),fun _ _ _ _ none => (nomatch none)⟩

def Grows (st st' : State) : Prop := ∀ b cid, st.blockMap b = some cid → st'.blockMap b = some cid

theorem Named.grow {st' : State} {lblock : LBlock} (named : Named cache st lblock) (grows : Grows st st') :
    Named cache st' lblock := by
  obtain ⟨a,inst,known⟩ := named
  exact ⟨a,inst,grows _ _ known⟩

def Keeps (cache : Geometry) (st : State) (lblocks : List LBlock) (result : Option (State × List LBlock)) : Prop :=
  ∀ st' lblocks', result = some (st',lblocks') → Names cache st → (∀ lblock ∈ lblocks, Named cache st lblock) →
    Names cache st' ∧ Grows st st' ∧ ∀ lblock ∈ lblocks', Named cache st' lblock

theorem addLBlock_keeps (addr : Addr) : Keeps cache st lblocks (addLBlock cache mem bb st lblocks addr) := by
  intro st' lblocks' done names named
  rw [addLBlock] at done
  split at done
  · cases done
    exact ⟨names,fun _ _ known => known,named⟩
  · obtain ⟨lbset,added,same⟩ := Option.map_eq_some_iff.mp done
    obtain ⟨rfl,-⟩ := GenVector.add_some added
    cases same
    have known : st.blockMap (cache.block addr) = some (cacheBlockId cache st addr) ∨
        st.blockMap (cache.block addr) = none ∧ cacheBlockId cache st addr = (st.lbsets (cache.line addr)).length := by
      rw [cacheBlockId]
      cases st.blockMap (cache.block addr) with
      | none => exact Or.inr ⟨rfl,rfl⟩
      | some cid => exact Or.inl rfl
    generalize cacheBlockId cache st addr = cid at known
    have grows : Grows st ⟨Function.update st.lbsets (cache.line addr)
        (st.lbsets (cache.line addr) ++ [⟨some addr,lblockSize cache bb addr,cid⟩]),
        Function.update st.blockMap (cache.block addr) (some cid)⟩ := by
      intro b cid' before
      show Function.update st.blockMap (cache.block addr) (some cid) b = some cid'
      by_cases same : b = cache.block addr
      · subst same
        rw [Function.update_self]
        rcases known with known | ⟨none,-⟩
        · exact known.symm.trans before
        · rw [none] at before
          cases before
      · rwa [Function.update_of_ne same]
    have old {b : Addr} {cid' : Nat} (other : cache.block b ≠ cache.block addr)
        (after : Function.update st.blockMap (cache.block addr) (some cid) (cache.block b) = some cid') :
        st.blockMap (cache.block b) = some cid' := by rwa [Function.update_of_ne other] at after
    have new {b : Addr} {cid' : Nat} (same : cache.block b = cache.block addr)
        (after : Function.update st.blockMap (cache.block addr) (some cid) (cache.block b) = some cid') : cid' = cid := by
      rw [same,Function.update_self] at after
      exact (Option.some.inj after).symm
    -- an identifier of the set that was known before is not the new one, unless the block is the same
    have fresh {b : Addr} (line : cache.line b = cache.line addr) (before : st.blockMap (cache.block b) = some cid) :
        cache.block b = cache.block addr := by
      rcases known with known | ⟨-,length⟩
      · exact names.apart b addr cid line before known
      · have less := names.below b cid before
        rw [line,length] at less
        omega
    refine ⟨⟨?_,?_⟩,grows,?_⟩
    · intro a cid' after
      show cid' < (Function.update st.lbsets (cache.line addr) _ (cache.line a)).length
      by_cases same : cache.block a = cache.block addr
      · rw [new same after,line_eq_of_block_eq same,Function.update_self,List.length_append,List.length_singleton]
        rcases known with known | ⟨-,length⟩
        · exact Nat.lt_succ_of_lt (names.below addr cid known)
        · omega
      · have less := names.below a cid' (old same after)
        by_cases line : cache.line a = cache.line addr
        · rw [line] at less ⊢
          rw [Function.update_self,List.length_append]
          omega
        · rwa [Function.update_of_ne line]
    · intro a b cid' line after after'
      by_cases same : cache.block a = cache.block addr
      · by_cases same' : cache.block b = cache.block addr
        · rw [same,same']
        · have before := old same' after'
          rw [new same after] at before
          rw [same,fresh (line.symm.trans (line_eq_of_block_eq same)) before]
      · have before := old same after
        by_cases same' : cache.block b = cache.block addr
        · rw [new same' after'] at before
          rw [same',fresh (line.trans (line_eq_of_block_eq same')) before]
        · exact names.apart a b cid' line before (old same' after')
    · intro lblock member
      rcases List.mem_append.mp member with member | member
      · exact (named lblock member).grow grows
      · obtain rfl := List.mem_singleton.mp member
        exact ⟨addr,rfl,Function.update_self ..⟩

theorem traverse_keeps (set : Addr) (insts : List Addr) :
    Keeps cache st lblocks (traverse cache mem bb st lblocks set insts) := by
  induction insts generalizing st lblocks set with
  | nil =>
    intro st' lblocks' done names named
    cases done
    exact ⟨names,fun _ _ known => known,named⟩
  | cons inst insts ih =>
    intro st' lblocks' done names named
    rw [traverse] at done
    split at done
    · obtain ⟨⟨next,added⟩,first,rest⟩ := Option.bind_eq_some_iff.mp done
      obtain ⟨names',grows,named'⟩ := addLBlock_keeps inst next added first names named
      obtain ⟨names'',grows',named''⟩ := ih (cache.line inst) st' lblocks' rest names' named'
      exact ⟨names'',fun b cid known => grows' b cid (grows b cid known),named''⟩
    · exact ih set st' lblocks' done names named

theorem run_names {bbs : List BasicBlock} {st' : State} {tables : List (List LBlock)} (names : Names cache st)
    (ran : run cache mem st bbs = some (st',tables)) :
    Names cache st' ∧ Grows st st' ∧ ∀ table ∈ tables, ∀ lblock ∈ table, Named cache st' lblock := by
  induction bbs generalizing st tables with
  | nil =>
    obtain ⟨rfl,rfl⟩ := Prod.mk.inj (Option.some.inj ran)
    exact ⟨names,fun _ _ known => known,fun _ none => absurd none List.not_mem_nil⟩
  | cons bb bbs ih =>
    rw [run,Option.bind_eq_bind,Option.bind_eq_some_iff] at ran
    obtain ⟨⟨next,lblocks⟩,processed,ran⟩ := ran
    dsimp only at ran
    rw [Option.bind_eq_bind,Option.bind_eq_some_iff] at ran
    obtain ⟨⟨last,rest⟩,ran,result⟩ := ran
    obtain ⟨rfl,rfl⟩ := Prod.mk.inj (Option.some.inj result)
    obtain ⟨⟨st₁,lblocks₁⟩,traversed,asserted⟩ := Option.bind_eq_some_iff.mp processed
    obtain ⟨rfl,rfl⟩ : st₁ = next ∧ lblocks₁ = lblocks := by
      dsimp only at asserted
      split at asserted
      · exact Prod.mk.inj (Option.some.inj asserted)
      · cases asserted
    obtain ⟨names',grows,named⟩ := traverse_keeps (cache.line bb.address - 1) bb.insts st₁ lblocks₁ traversed names
      fun _ none => absurd none List.not_mem_nil
    obtain ⟨names'',grows',named'⟩ := ih names' ran
    refine ⟨names'',fun b cid known => grows' b cid (grows b cid known),fun table member => ?_⟩
    rcases List.mem_cons.mp member with rfl | member
    · exact fun lblock inside => (named lblock inside).grow grows'
    · exact named' table member

end Names

/-! ### The l-blocks of a basic block -/

def Uncrossed (cache : Geometry) (first : Nat) : List Nat → Prop
  | [] => True
  | s :: sizes => first / 2^cache.blockBits = (first + s - 1) / 2^cache.blockBits ∧ Uncrossed cache (first + s) sizes

/-- The starts of `count` cache blocks from the one of number `q`. -/
def starts (cache : Geometry) (q count : Nat) : List Addr :=
  (List.range' q count).map fun q => BitVec.ofNat 32 (q * 2^cache.blockBits)

/-- The first address of the basic block in each cache block that it overlaps. -/
def overlapped (cache : Geometry) (bb : BasicBlock) : List Addr :=
  bb.address :: starts cache (bb.first / 2^cache.blockBits + 1)
    ((bb.first + bb.sizes.sum - 1) / 2^cache.blockBits - bb.first / 2^cache.blockBits)

/-- The vectors of the sets can take l-blocks at the addresses. -/
def Room (cache : Geometry) (st : State) (addrs : List Addr) : Prop :=
  ∀ set, (st.lbsets set).length + addrs.countP (fun a => cache.line a = set) ≤ vectorLimit

def Filled (cache : Geometry) (st st' : State) (addrs : List Addr) : Prop :=
  ∀ set, (st'.lbsets set).length = (st.lbsets set).length + addrs.countP fun a => cache.line a = set

section Cut
variable {cache : Geometry} {mem : Addr → Option Bool} {bb : BasicBlock} {st : State} {lblocks : List LBlock}

theorem Room.rest {st' : State} {addrs later : List Addr} (room : Room cache st (addrs ++ later))
    (filled : Filled cache st st' addrs) : Room cache st' later := by
  intro set
  have := room set
  rw [List.countP_append] at this
  rw [filled set]
  omega

theorem Room.first {addrs later : List Addr} (room : Room cache st (addrs ++ later)) : Room cache st addrs := by
  intro set
  have := room set
  rw [List.countP_append] at this
  omega

theorem Filled.trans {st' st'' : State} {addrs later : List Addr} (first : Filled cache st st' addrs)
    (rest : Filled cache st' st'' later) : Filled cache st st'' (addrs ++ later) := by
  intro set
  rw [rest set,first set,List.countP_append,Nat.add_assoc]

theorem addLBlock_cached (bb : BasicBlock) (lblocks : List LBlock) {addr : Addr} (cached : mem addr ≠ some false)
    (room : Room cache st [addr]) :
    ∃ st' cid, addLBlock cache mem bb st lblocks addr = some (st',lblocks ++ [⟨some addr,lblockSize cache bb addr,cid⟩]) ∧
      Filled cache st st' [addr] := by
  have free := room (cache.line addr)
  simp only [List.countP_singleton,decide_true,if_true] at free
  rw [addLBlock,if_neg cached]
  dsimp only
  rw [GenVector.add_fits free]
  refine ⟨_,_,rfl,fun set => ?_⟩
  by_cases here : cache.line addr = set
  · subst here
    simp
  · simp [Function.update_of_ne (Ne.symm here),here]

/-- Each l-block has the size that is computed at its address. -/
def Sized (cache : Geometry) (bb : BasicBlock) (lblocks : List LBlock) : Prop :=
  ∀ lblock ∈ lblocks, ∃ a, lblock.inst = some a ∧ lblock.size = lblockSize cache bb a

theorem traverse_insts (bb : BasicBlock) (words : cache.blockBits < 32) {sizes : List Nat} {x : Nat}
    (sets : 0 < cache.rowBits ∨ (x - 1) / 2^cache.blockBits = (x + sizes.sum - 1) / 2^cache.blockBits)
    (later : 0 < x) (positive : ∀ s ∈ sizes, 0 < s) (fits : x + sizes.sum ≤ 2^32) (uncrossed : Uncrossed cache x sizes)
    (cached : ∀ inst ∈ BasicBlock.instsFrom x sizes, mem inst ≠ some false)
    (room : Room cache st (starts cache ((x - 1) / 2^cache.blockBits + 1)
      ((x + sizes.sum - 1) / 2^cache.blockBits - (x - 1) / 2^cache.blockBits))) :
    ∃ st' added, traverse cache mem bb st lblocks (cache.line (BitVec.ofNat 32 (x - 1))) (BasicBlock.instsFrom x sizes) =
        some (st',lblocks ++ added) ∧
      added.map LBlock.inst = (starts cache ((x - 1) / 2^cache.blockBits + 1)
        ((x + sizes.sum - 1) / 2^cache.blockBits - (x - 1) / 2^cache.blockBits)).map some ∧
      Sized cache bb added ∧ Filled cache st st' (starts cache ((x - 1) / 2^cache.blockBits + 1)
        ((x + sizes.sum - 1) / 2^cache.blockBits - (x - 1) / 2^cache.blockBits)) := by
  induction sizes generalizing x st lblocks with
  | nil =>
    refine ⟨st,[],by simp [BasicBlock.instsFrom,traverse],by simp [starts],fun _ none => absurd none List.not_mem_nil,?_⟩
    intro set
    simp [starts]
  | cons s sizes ih =>
    have nonempty := positive s List.mem_cons_self
    rw [List.sum_cons] at fits sets
    rw [← Nat.add_assoc] at sets
    obtain ⟨whole,rest⟩ := uncrossed
    obtain ⟨y,rfl⟩ := Nat.exists_eq_succ_of_ne_zero later.ne'
    rw [Nat.succ_eq_add_one] at *
    have number {z : Nat} (inside : z < 2^32) : (BitVec.ofNat 32 z).toNat = z := by
      rw [BitVec.toNat_ofNat,Nat.mod_eq_of_lt inside]
    have last : cache.line (BitVec.ofNat 32 (y + 1)) = cache.line (BitVec.ofNat 32 (y + 1 + s - 1)) := by
      apply line_eq_of_block_eq
      rw [block_eq_iff,number (by omega),number (by omega),whole]
    have above : (y + 1) / 2^cache.blockBits ≤ (y + 1 + s + sizes.sum - 1) / 2^cache.blockBits :=
      Nat.div_le_div_right (by omega)
    have before : (y + 1 - 1) / 2^cache.blockBits ≤ (y + 1) / 2^cache.blockBits := Nat.div_le_div_right (by omega)
    have sets' : 0 < cache.rowBits ∨
        (y + 1 + s - 1) / 2^cache.blockBits = (y + 1 + s + sizes.sum - 1) / 2^cache.blockBits := by
      rw [← whole]
      exact sets.imp_right fun same => by omega
    have step {st : State} {lblocks : List LBlock} := @ih st lblocks (y + 1 + s) sets' (by omega)
      (fun s member => positive s (List.mem_cons_of_mem _ member)) (by omega) rest
      (fun inst member => cached inst (List.mem_cons_of_mem _ member))
    rw [← last,← whole] at step
    rw [List.sum_cons,← Nat.add_assoc] at room ⊢
    rw [BasicBlock.instsFrom,traverse]
    rw [Nat.add_sub_cancel] at *
    have next : (y + 1) / 2^cache.blockBits = y / 2^cache.blockBits + if 2^cache.blockBits ∣ y + 1 then 1 else 0 :=
      Nat.succ_div
    by_cases start : 2^cache.blockBits ∣ y + 1
    · rw [if_pos start] at next
      have sets : 0 < cache.rowBits := sets.resolve_right (by omega)
      have apart : cache.line (BitVec.ofNat 32 y) ≠ cache.line (BitVec.ofNat 32 (y + 1)) :=
        line_ne words sets (by rw [number (by omega),number (by omega),next])
      have count : (y + 1 + s + sizes.sum - 1) / 2^cache.blockBits - y / 2^cache.blockBits =
          (y + 1 + s + sizes.sum - 1) / 2^cache.blockBits - (y + 1) / 2^cache.blockBits + 1 := by omega
      have here : (y / 2^cache.blockBits + 1) * 2^cache.blockBits = y + 1 := by
        rw [← next,Nat.div_mul_cancel start]
      have split : starts cache (y / 2^cache.blockBits + 1)
          ((y + 1 + s + sizes.sum - 1) / 2^cache.blockBits - y / 2^cache.blockBits) =
          [BitVec.ofNat 32 (y + 1)] ++ starts cache ((y + 1) / 2^cache.blockBits + 1)
            ((y + 1 + s + sizes.sum - 1) / 2^cache.blockBits - (y + 1) / 2^cache.blockBits) := by
        rw [count,starts,starts,List.range'_succ]
        simp only [List.map_cons,List.cons_append,List.nil_append,here,next]
      rw [split] at room ⊢
      obtain ⟨st₁,cid,added,filled⟩ := addLBlock_cached bb lblocks (cached (BitVec.ofNat 32 (y + 1)) List.mem_cons_self)
        room.first
      obtain ⟨st',others,ran,insts,sized,filled'⟩ := step (room.rest filled)
      rw [if_pos apart,added]
      refine ⟨st',⟨some (BitVec.ofNat 32 (y + 1)),lblockSize cache bb (BitVec.ofNat 32 (y + 1)),cid⟩ :: others,?_,?_,?_,
        filled.trans filled'⟩
      · exact ran.trans (by rw [List.append_assoc]; rfl)
      · rw [List.map_cons,insts]
        rfl
      · exact List.forall_mem_cons.mpr ⟨⟨_,rfl,rfl⟩,sized⟩
    · have stays : (y + 1) / 2^cache.blockBits = y / 2^cache.blockBits := by
        rw [next,if_neg start]
        rfl
      have same : cache.line (BitVec.ofNat 32 y) = cache.line (BitVec.ofNat 32 (y + 1)) := by
        apply line_eq_of_block_eq
        rw [block_eq_iff,number (by omega),number (by omega),stays]
      rw [if_neg (not_not.mpr same),same]
      rw [stays] at step
      exact step room

theorem lblockSize_inside (words : cache.blockBits < 32) (room : bb.first + bb.sizes.sum + 2^cache.blockBits ≤ 2^32)
    (inside : bb.first % 2^cache.blockBits ≠ 0) :
    bb.first + (lblockSize cache bb bb.address).toNat =
      min (bb.first + bb.sizes.sum) ((bb.first / 2^cache.blockBits + 1) * 2^cache.blockBits) := by
  have positive : 0 < 2^cache.blockBits := Nat.two_pow_pos _
  have parts := Nat.div_add_mod bb.first (2^cache.blockBits)
  have rest := Nat.mod_lt bb.first positive
  rw [Nat.mul_comm] at parts
  have first : bb.address.toNat = bb.first := by
    rw [BasicBlock.address,BitVec.toNat_ofNat,Nat.mod_eq_of_lt (by omega)]
  have size : bb.size.toNat = bb.sizes.sum := by
    rw [BasicBlock.size,BitVec.toNat_ofNat,Nat.mod_eq_of_lt (by omega)]
  have last : (bb.address + bb.size).toNat = bb.first + bb.sizes.sum := by
    rw [BitVec.toNat_add,first,size,Nat.mod_eq_of_lt (by omega)]
  have up : (bb.first + (2^cache.blockBits - 1)) / 2^cache.blockBits = bb.first / 2^cache.blockBits + 1 := by
    rw [show bb.first + (2^cache.blockBits - 1) = bb.first - 1 + 2^cache.blockBits by omega,
      Nat.add_div_right _ positive]
    congr 1
    exact Nat.div_eq_of_lt_le (by omega) (by rw [Nat.add_mul]; omega)
  have top : ((bb.address + blockMask cache) &&& ~~~blockMask cache).toNat =
      (bb.first / 2^cache.blockBits + 1) * 2^cache.blockBits := by
    rw [round_toNat words,BitVec.toNat_add,first,blockMask_toNat words,Nat.mod_eq_of_lt (by omega),up]
  have next : (bb.first / 2^cache.blockBits + 1) * 2^cache.blockBits =
      bb.first / 2^cache.blockBits * 2^cache.blockBits + 2^cache.blockBits := Nat.succ_mul ..
  rw [lblockSize]
  split
  next less =>
    rw [BitVec.lt_def,last,top] at less
    rw [Nat.min_eq_left less.le,BitVec.toNat_sub_of_le (BitVec.le_def.mpr (by omega)),last,first]
    omega
  next less =>
    rw [BitVec.lt_def,last,top] at less
    rw [Nat.min_eq_right (Nat.le_of_not_lt less),BitVec.toNat_sub_of_le (BitVec.le_def.mpr (by omega)),top,first]
    omega

structure Cut (cache : Geometry) (bb : BasicBlock) (table : List LBlock) : Prop where
  insts : table.map LBlock.inst = (overlapped cache bb).map some
  sizes : ∀ lblock ∈ table, ∀ a, lblock.inst = some a → a.toNat % 2^cache.blockBits ≠ 0 → 0 < lblock.size.toNat ∧
    a.toNat + lblock.size.toNat =
      min (bb.first + bb.sizes.sum) ((a.toNat / 2^cache.blockBits + 1) * 2^cache.blockBits)

/-- What the basic blocks of a program are asked: code in cached memory, below the last
    cache block of the memory, instructions within cache blocks, and no next cache block
    when there is a single set. -/
structure Plain (cache : Geometry) (mem : Addr → Option Bool) (bb : BasicBlock) : Prop where
  cached : ∀ inst ∈ bb.insts, mem inst ≠ some false
  room : bb.first + bb.sizes.sum + 2^cache.blockBits ≤ 2^32
  uncrossed : Uncrossed cache bb.first bb.sizes
  sets : 0 < cache.rowBits ∨ bb.first / 2^cache.blockBits = (bb.first + bb.sizes.sum - 1) / 2^cache.blockBits

theorem processBB_cut (words : cache.blockBits < 32) (plain : Plain cache mem bb)
    (free : Room cache st (overlapped cache bb)) :
    ∃ st' table, processBB cache mem st bb = some (st',table) ∧ Cut cache bb table ∧
      Filled cache st st' (overlapped cache bb) := by
  obtain ⟨cached,room,uncrossed,sets⟩ := plain
  have block : 0 < 2^cache.blockBits := Nat.two_pow_pos _
  have number {z : Nat} (inside : z < 2^32) : (BitVec.ofNat 32 z).toNat = z := by
    rw [BitVec.toNat_ofNat,Nat.mod_eq_of_lt inside]
  have first : bb.address.toNat = bb.first := number (by omega)
  have size : bb.size.toNat = bb.sizes.sum := number (by omega)
  -- the first instruction makes an l-block, as no set is the one before its own
  obtain ⟨st',table,ran,cut,sized,filled⟩ : ∃ st' table,
      traverse cache mem bb st [] (cache.line bb.address - 1) bb.insts = some (st',table) ∧
      table.map LBlock.inst = (overlapped cache bb).map some ∧ Sized cache bb table ∧
      Filled cache st st' (overlapped cache bb) := by
    obtain ⟨s,sizes,split⟩ := List.exists_cons_of_ne_nil bb.nonempty
    have positive := bb.positive
    rw [BasicBlock.insts,split] at cached
    rw [overlapped] at free ⊢
    rw [split] at positive uncrossed room sets free ⊢
    rw [List.sum_cons] at room sets free ⊢
    have nonempty := positive s List.mem_cons_self
    obtain ⟨whole,rest⟩ := uncrossed
    have same : cache.line bb.address = cache.line (BitVec.ofNat 32 (bb.first + s - 1)) := by
      apply line_eq_of_block_eq
      rw [block_eq_iff,first,number (by omega),whole]
    have apart : cache.line bb.address - 1 ≠ cache.line bb.address := by
      intro same
      have unit : (1 : Addr).toNat = 1 := rfl
      have less := (cache.line bb.address).isLt
      have numbers := congrArg BitVec.toNat same
      rw [BitVec.toNat_sub,unit] at numbers
      omega
    rw [← List.singleton_append] at free ⊢
    obtain ⟨st₁,cid,added,filled⟩ := addLBlock_cached bb [] (cached bb.address List.mem_cons_self) free.first
    have later := @traverse_insts cache mem st₁ ([] ++ [⟨some bb.address,lblockSize cache bb bb.address,cid⟩])
      bb words sizes (bb.first + s)
      (sets.imp_right fun inside => by rw [← whole,inside,Nat.add_assoc]) (by omega)
      (fun s member => positive s (List.mem_cons_of_mem _ member)) (by omega) rest
      (fun inst member => cached inst (List.mem_cons_of_mem _ member))
      (by rw [← whole,Nat.add_assoc]; exact free.rest filled)
    rw [← same,← whole,Nat.add_assoc] at later
    obtain ⟨st',others,ran,insts,sized,filled'⟩ := later
    refine ⟨st',[] ++ [⟨some bb.address,lblockSize cache bb bb.address,cid⟩] ++ others,?_,?_,?_,filled.trans filled'⟩
    · rw [BasicBlock.insts,split,BasicBlock.instsFrom,← BasicBlock.address,traverse,if_pos apart]
      exact (congrArg (Option.bind · _) added).trans ran
    · rw [List.nil_append,List.singleton_append,List.map_cons,insts]
      rfl
    · exact List.forall_mem_cons.mpr ⟨⟨_,rfl,rfl⟩,sized⟩
  have some_code : 0 < bb.sizes.sum := by
    obtain ⟨s,sizes,split⟩ := List.exists_cons_of_ne_nil bb.nonempty
    have positive := bb.positive s (split ▸ List.mem_cons_self)
    rw [split,List.sum_cons]
    omega
  have count : table.length = numLBlocks cache bb := by
    have length := congrArg List.length cut
    rw [List.length_map,List.length_map,overlapped,List.length_cons,starts,List.length_map,List.length_range'] at length
    have last : (bb.first + bb.sizes.sum + (2^cache.blockBits - 1)) / 2^cache.blockBits =
        (bb.first + bb.sizes.sum - 1) / 2^cache.blockBits + 1 := by
      rw [← Nat.add_div_right _ block]
      congr 1
      omega
    have order : bb.first / 2^cache.blockBits ≤ (bb.first + bb.sizes.sum - 1) / 2^cache.blockBits :=
      Nat.div_le_div_right (by omega)
    have top : (bb.address + bb.size + blockMask cache).toNat = bb.first + bb.sizes.sum + (2^cache.blockBits - 1) := by
      rw [BitVec.toNat_add,BitVec.toNat_add,first,size,blockMask_toNat words,
        Nat.mod_eq_of_lt (show bb.first + bb.sizes.sum < 2^32 by omega),Nat.mod_eq_of_lt (by omega)]
    rw [numLBlocks,BitVec.toNat_ushiftRight,BitVec.toNat_ushiftRight,top,first,Nat.shiftRight_eq_div_pow,
      Nat.shiftRight_eq_div_pow,last,length]
    omega
  refine ⟨st',table,?_,⟨cut,?_⟩,filled⟩
  · rw [processBB,ran]
    exact if_pos count
  intro lblock member a inst inside
  obtain ⟨b,inst',size'⟩ := sized lblock member
  obtain rfl := Option.some.inj (inst.symm.trans inst')
  -- the l-blocks but the first one are at the start of a cache block
  have at_first : a = bb.address := by
    have listed := List.mem_map_of_mem (f := LBlock.inst) member
    rw [cut,inst,List.mem_map_of_injective (Option.some_injective _)] at listed
    rcases List.mem_cons.mp listed with here | later
    · exact here
    · obtain ⟨q,range,rfl⟩ := List.mem_map.mp later
      have divides : 2^cache.blockBits ∣ 2^32 := Nat.pow_dvd_pow 2 words.le
      rw [BitVec.toNat_ofNat,Nat.mod_mod_of_dvd _ divides,Nat.mul_mod_left] at inside
      exact absurd rfl inside
  subst at_first
  rw [first] at inside ⊢
  have whole := lblockSize_inside words room inside
  have above : bb.first < (bb.first / 2^cache.blockBits + 1) * 2^cache.blockBits := by
    rw [Nat.mul_comm]
    exact Nat.lt_mul_div_succ bb.first block
  rw [size',whole]
  exact ⟨by omega,rfl⟩

/-- Two l-blocks of one set have the same identifier exactly when they are of the same
    cache block. -/
def OneName (cache : Geometry) (lblocks : List LBlock) : Prop :=
  ∀ lblock ∈ lblocks, ∀ lblock' ∈ lblocks, ∀ a a', lblock.inst = some a → lblock'.inst = some a' →
    cache.line a = cache.line a' → (lblock.cid = lblock'.cid ↔ cache.block a = cache.block a')

theorem Names.oneName (names : Names cache st) (named : ∀ lblock ∈ lblocks, Named cache st lblock) :
    OneName cache lblocks := by
  intro lblock member lblock' member' a a' inst inst' line
  obtain ⟨b,inst'',known⟩ := named lblock member
  obtain rfl := Option.some.inj (inst.symm.trans inst'')
  obtain ⟨b',inst'',known'⟩ := named lblock' member'
  obtain rfl := Option.some.inj (inst'.symm.trans inst'')
  constructor
  · intro same
    exact names.apart a a' lblock.cid line known (same ▸ known')
  · intro same
    rw [same] at known
    exact Option.some.inj (known.symm.trans known')

theorem run_runs {bbs : List BasicBlock} (words : cache.blockBits < 32) (plain : ∀ bb ∈ bbs, Plain cache mem bb)
    (room : Room cache st (bbs.flatMap (overlapped cache))) :
    ∃ st' tables, run cache mem st bbs = some (st',tables) ∧ List.Forall₂ (Cut cache) bbs tables := by
  induction bbs generalizing st with
  | nil => exact ⟨st,[],rfl,List.Forall₂.nil⟩
  | cons bb bbs ih =>
    rw [List.flatMap_cons] at room
    obtain ⟨next,table,processed,cut,filled⟩ := processBB_cut words (plain bb List.mem_cons_self) room.first
    obtain ⟨last,tables,ran,cuts⟩ := ih (fun bb member => plain bb (List.mem_cons_of_mem _ member)) (room.rest filled)
    exact ⟨last,table :: tables,by simp [run,processed,ran],List.Forall₂.cons cut cuts⟩

/-- In a program below the last cache block of the memory, with at most 32767 l-blocks in a
    set, each basic block has one l-block for each cache block that it overlaps, in the order
    of the addresses; with a single set, those are the basic blocks within a cache block. -/
theorem run_cut {bbs : List BasicBlock} (words : cache.blockBits < 32) (plain : ∀ bb ∈ bbs, Plain cache mem bb)
    (few : ∀ set, (bbs.flatMap (overlapped cache)).countP (fun a => cache.line a = set) < vectorLimit) :
    ∃ st tables, run cache mem setup bbs = some (st,tables) ∧ List.Forall₂ (Cut cache) bbs tables ∧
      OneName cache tables.flatten := by
  have room : Room cache setup (bbs.flatMap (overlapped cache)) := fun set => by
    have := few set
    rw [setup,List.length_singleton]
    omega
  obtain ⟨st,tables,ran,cuts⟩ := run_runs words plain room
  obtain ⟨names,-,named⟩ := run_names (names_setup cache) ran
  refine ⟨st,tables,ran,cuts,names.oneName fun lblock member => ?_⟩
  obtain ⟨table,inside,member⟩ := List.mem_flatten.mp member
  exact named table inside lblock member

end Cut

def overTwo : BasicBlock := ⟨4,[4,4,4,4,4],by simp,by simp,by simp⟩

theorem run_cut_overTwo : ∃ st tables, run ⟨4,1,0⟩ (fun _ => none) setup [overTwo] = some (st,tables) ∧
    List.Forall₂ (Cut ⟨4,1,0⟩) [overTwo] tables ∧ OneName ⟨4,1,0⟩ tables.flatten := by
  refine run_cut (by simp) (fun bb member => ?_) fun set => ?_
  · obtain rfl := List.mem_singleton.mp member
    exact ⟨by simp,by simp [overTwo],by simp [Uncrossed,overTwo],.inl Nat.one_pos⟩
  · exact Nat.lt_of_le_of_lt List.countP_le_length (by decide)

def atEnd : BasicBlock := ⟨4294967280,[4],by simp,by simp,by simp⟩

def inOne : BasicBlock := ⟨4,[4],by simp,by simp,by simp⟩

/-- Each basic block adds an l-block to its set, and the vector of the set is full in the end. -/
theorem run_full {k : Nat} {st : State} (within : ∀ set, (st.lbsets set).length ≤ vectorLimit)
    (many : vectorLimit < (st.lbsets 0).length + k) :
    run ⟨4,1,0⟩ (fun _ => none) st (List.replicate k inOne) = none := by
  induction k generalizing st with
  | zero =>
    have := within 0
    omega
  | succ k ih =>
    rw [List.replicate_succ,run]
    by_cases free : (st.lbsets 0).length < vectorLimit
    · have plain : Plain ⟨4,1,0⟩ (fun _ => none) inOne :=
        ⟨by simp,by simp [inOne],by simp [Uncrossed,inOne],.inl Nat.one_pos⟩
      have room : Room ⟨4,1,0⟩ st (overlapped ⟨4,1,0⟩ inOne) := by
        intro set
        by_cases here : set = 0
        · subst here
          exact free
        · have none : (overlapped ⟨4,1,0⟩ inOne).countP (fun a => (Geometry.mk 4 1 0).line a = set) = 0 :=
            List.countP_eq_zero.mpr fun a member => by
              obtain rfl := List.mem_singleton.mp (show a ∈ [(4 : Addr)] from member)
              exact fun same => here (of_decide_eq_true same).symm
          rw [none]
          exact within set
      obtain ⟨st',table,processed,-,filled⟩ := processBB_cut (by decide) plain room
      have more : (st'.lbsets 0).length = (st.lbsets 0).length + 1 := filled 0
      have last := ih (fun set => filled set ▸ room set) (by omega : vectorLimit < (st'.lbsets 0).length + k)
      rw [processed,Option.bind_eq_bind,Option.bind_some]
      dsimp only
      rw [last]
      rfl
    · have refused : processBB ⟨4,1,0⟩ (fun _ => none) st inOne = none := by
        have full : GenVector.add (st.lbsets 0) ⟨some 4,lblockSize ⟨4,1,0⟩ inOne 4,cacheBlockId ⟨4,1,0⟩ st 4⟩ = none :=
          if_neg free
        have none : addLBlock ⟨4,1,0⟩ (fun _ => none) inOne st [] 4 = none := by
          rw [addLBlock,if_neg (by simp)]
          exact congrArg (Option.map _) full
        rw [processBB,show inOne.insts = [4] from rfl,traverse,if_pos (by decide),none]
        rfl
      rw [refused]
      rfl

/-- The identifiers are counted in each set, and an l-block at the start of a cache block
    has no size. The assertion fails on two blocks of a single set, and on the last block of
    the memory, and that of the vector on the 32768th l-block of the code in a set. -/
theorem overTwo_cut :
    (run ⟨4,1,0⟩ (fun _ => none) setup [overTwo]).map Prod.snd = some [[⟨some 4,12,1⟩,⟨some 16,0,1⟩]] ∧
    (Geometry.mk 4 1 0).line 4 ≠ (Geometry.mk 4 1 0).line 16 ∧
    (run ⟨4,0,0⟩ (fun _ => none) setup [overTwo]).map Prod.snd = none ∧
    (run ⟨4,1,0⟩ (fun _ => none) setup [atEnd]).map Prod.snd = none ∧
    run ⟨4,1,0⟩ (fun _ => none) setup (List.replicate 32768 inOne) = none := by
  exact ⟨rfl,by decide,rfl,rfl,run_full (fun _ => by simp [setup,vectorLimit]) (by decide)⟩

end Otawa.LBlockBuilder
