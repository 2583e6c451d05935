import Otawa.ClpValue
import Otawa.CachePers
import Mathlib.Data.List.Infix

/-!
Data accesses: how `CLPBlockBuilder` turns an address value into the access to one block,
to a range of sets or to any set, and how `MUSTPERS` applies it to the state of one set.
A range goes upwards from the set of the lower end of the value, through the last set of
the cache when it has to; `MUSTPERS` reads it as the sets between the two numbers.
-/
namespace Otawa.Dcache
open Otawa.Clp (Word Value)
open Otawa.Cache (ACS Item Domain BlockAccess)

/-! ### Addresses in a cache -/

/-- `hard::Cache`: the sizes in bits of a block and of the set numbers. -/
structure Cache where
  blockBits : Nat
  rowBits : Nat
  blockBound : blockBits < 32
  rowBound : rowBits < 31

namespace Cache
variable (cache : Cache)

def blockSize : Word := (1 : Word) <<< cache.blockBits
def rowCount : Word := (1 : Word) <<< cache.rowBits
def blockMask : Word := cache.blockSize - 1
def lineMask : Word := (cache.rowCount - 1) <<< cache.blockBits

def offset (addr : Word) : Word := addr &&& cache.blockMask
def set (addr : Word) : Word := (addr &&& cache.lineMask) >>> cache.blockBits
def block (addr : Word) : Word := addr >>> cache.blockBits
def round (addr : Word) : Word := addr &&& ~~~(cache.blockSize - 1)

theorem block_toNat (addr : Word) : (cache.block addr).toNat = addr.toNat / 2 ^ cache.blockBits := by
  rw [block,BitVec.toNat_ushiftRight,Nat.shiftRight_eq_div_pow]

private theorem mask_toNat {bits : Nat} (bound : bits < 32) : ((1 : Word) <<< bits - 1).toNat = 2 ^ bits - 1 := by
  have one : ((1 : Word) <<< bits).toNat = 2 ^ bits := by
    rw [BitVec.toNat_shiftLeft,Nat.shiftLeft_eq]
    show 1 * 2 ^ bits % 2 ^ 32 = 2 ^ bits
    rw [one_mul,Nat.mod_eq_of_lt (Nat.pow_lt_pow_right (by decide) bound)]
  have positive : 0 < 2 ^ bits := Nat.two_pow_pos _
  rw [BitVec.toNat_sub_of_le,one]
  · rfl
  · rw [BitVec.le_def,one]; exact positive

theorem set_toNat (addr : Word) : (cache.set addr).toNat = (cache.block addr).toNat % 2 ^ cache.rowBits := by
  have moved : cache.set addr = cache.block addr &&& (cache.rowCount - 1) := by
    refine BitVec.eq_of_getLsbD_eq fun i bound => ?_
    simp only [set,block,lineMask,BitVec.getLsbD_ushiftRight,BitVec.getLsbD_and,BitVec.getLsbD_shiftLeft]
    by_cases inside : cache.blockBits + i < 32
    · simp [inside]
    · rw [BitVec.getLsbD_of_ge addr _ (by omega)]
      simp
  rw [moved,BitVec.toNat_and,rowCount,mask_toNat (by have := cache.rowBound; omega),Nat.and_two_pow_sub_one_eq_mod]

theorem set_of_block {x y : Word} (same : cache.block x = cache.block y) : cache.set x = cache.set y :=
  BitVec.eq_of_toNat_eq (by rw [set_toNat,set_toNat,same])

theorem block_round (addr : Word) : cache.block (cache.round addr) = cache.block addr := by
  refine BitVec.eq_of_getLsbD_eq fun i bound => ?_
  simp only [block,round,BitVec.getLsbD_ushiftRight,BitVec.getLsbD_and,BitVec.getLsbD_not]
  by_cases inside : cache.blockBits + i < 32
  · have high : (cache.blockSize - 1).getLsbD (cache.blockBits + i) = false := by
      rw [BitVec.getLsbD,blockSize,mask_toNat cache.blockBound,Nat.testBit_two_pow_sub_one]
      simp
    rw [high]
    simp [inside]
  · rw [BitVec.getLsbD_of_ge addr _ (by omega),Bool.false_and]

end Cache

structure Bank where
  address : Word
  size : Word

/-- `contains`, with its comparison of the last address. -/
def Bank.contains (bank : Bank) (addr : Word) : Bool := bank.address ≤ addr && addr ≤ bank.address + bank.size - 1

/-- `Memory::get`. -/
def memoryGet (banks : List Bank) (address : Word) : Option Bank := banks.find? fun bank => bank.contains address

/-- `BlockCollection::obtain`, with the addresses of the blocks of the set: the index of
    the block, and the collection with it. -/
def obtain (blocks : List Word) (addr : Word) : Nat × List Word :=
  match blocks.idxOf? addr with
  | some i => (i,blocks)
  | none => (blocks.length,blocks ++ [addr])

/-- `elm::mult`: the product of words, and whether it is seen to overflow. -/
def mult (a b : Word) : Word × Bool := (a * b,decide (a * b < a) || decide (a * b < b))

variable (cache : Cache)

def covers (v : Value) : Bool :=
  let (m,overflow) := mult (Clp.abs v.delta) v.mtimes
  overflow || decide (m ≥ (cache.rowCount - 1) * cache.blockSize - cache.offset v.lower)

def accessBlock (colls : Word → List Word) (l addr : Word) : BlockAccess × (Word → List Word) :=
  let (index,blocks) := obtain (colls (cache.set l)) addr
  (.BLOCK (cache.set l).toNat index,Function.update colls (cache.set l) blocks)

/-- The part of `processBB` for one address value, `none` for an address in no bank. -/
def processAccess (banks : List Bank) (colls : Word → List Word) (v : Value) : Option (BlockAccess × (Word → List Word)) :=
  if v = Value.all then some (.ANY,colls)
  else if v.isConst then
    (memoryGet banks v.lower).map fun _ => accessBlock cache colls v.lower (cache.round v.lower)
  else if covers cache v then some (.ANY,colls)
  else
    (memoryGet banks v.start).map fun _ =>
      if cache.block v.start = cache.block v.stop then accessBlock cache colls v.start v.start
      else (.RANGE (cache.set v.start).toNat (cache.set v.stop).toNat,colls)

/-- `BlockAccess::action_t` of an access. -/
inductive Action where
  | LOAD | STORE | PURGE
  deriving DecidableEq

variable {size A : Nat}

/-- One turn of `PERSProblem::Item::ageAll`. -/
def agedItem (A : Nat) (age : Int) : Int := if age ≥ 0 ∧ age < A then age + 1 else age

theorem agedItem_valid {age : Int} (valid : age = -1 ∨ 0 ≤ age ∧ age ≤ A) :
    agedItem A age = -1 ∨ 0 ≤ agedItem A age ∧ agedItem A age ≤ A := by
  unfold agedItem
  split <;> omega

/-- `PERSProblem::Item::ageAll`. -/
def itemAgeAll (item : Item size A) : Item size A where
  age i := agedItem A (item.age i)
  valid i := agedItem_valid (item.valid i)
  ways := item.ways

def ageAll (d : Domain size A) : Domain size A where
  whole := itemAgeAll d.whole
  data := d.data.map itemAgeAll
  must := d.must.ageAll

/-- `item[i] = A` for the accessed blocks among some. -/
def wipe (item : Item size A) (which : Fin size → Bool) : Item size A where
  age i := if which i && item.age i != -1 then A else item.age i
  valid i := by
    have known := item.valid i
    have ways := item.ways
    split <;> omega
  ways := item.ways

/-- `PERSProblem::purge` of an item; the purge of a block reads the set as an index. -/
def purgeItem (line : Nat) (item : Item size A) : BlockAccess → Item size A
  | .RANGE first last => if !Cache.inRange first last line then item else wipe item fun _ => true
  | .ANY => wipe item fun _ => true
  | .BLOCK set _ => if set = line then wipe item fun i => i.val == set else item

/-- `MUSTPERS::update`, `none` for a block out of the collection. -/
def update (set : Nat) (s : Domain size A) (action : Action) (access : BlockAccess) : Option (Domain size A) :=
  match action with
  | .LOAD | .STORE =>
    match access with
    | .RANGE first last =>
      if first < last then
        if set < first ∨ set > last then some s else some (ageAll s)
      else if first < set ∨ set < last then some s
      else some (ageAll s)
    | .ANY => some (ageAll s)
    | .BLOCK set' index =>
      if set' = set then
        if bound : index < size then some (s.inject ⟨index,bound⟩) else none
      else some s
  | .PURGE =>
    some ⟨purgeItem set s.whole access,s.data.map fun item => purgeItem set item access,Cache.purge set s.must access⟩

/-- A set with a number between two others. -/
def Between (first last set : Nat) : Prop := Min.min first last ≤ set ∧ set ≤ Max.max first last

instance (first last set : Nat) : Decidable (Between first last set) := inferInstanceAs (Decidable (_ ∧ _))

theorem update_range {set first last : Nat} (s : Domain size A) {action : Action} (used : action ≠ .PURGE) :
    update set s action (.RANGE first last) =
      some (if Between first last set then ageAll s else s) := by
  have loads : update set s action (.RANGE first last) = update set s .LOAD (.RANGE first last) := by
    cases action <;> first | rfl | exact absurd rfl used
  rw [loads]
  simp only [update]
  by_cases inside : Between first last set
  · rw [if_pos inside]
    unfold Between at inside
    split <;> split <;> first | rfl | omega
  · rw [if_neg inside]
    unfold Between at inside
    split <;> split <;> first | rfl | omega

theorem update_any {set : Nat} {s : Domain size A} {action : Action} (used : action ≠ .PURGE) :
    update set s action .ANY = some (ageAll s) := by
  cases action <;> first | rfl | exact absurd rfl used

theorem update_block {set' index : Nat} (set : Nat) (s : Domain size A) {action : Action} (used : action ≠ .PURGE)
    (bound : index < size) : update set s action (.BLOCK set' index) =
      some (if set' = set then s.inject ⟨index,bound⟩ else s) := by
  have loads : update set s action (.BLOCK set' index) = update set s .LOAD (.BLOCK set' index) := by
    cases action <;> first | rfl | exact absurd rfl used
  rw [loads]
  simp only [update,bound,↓reduceDIte]
  split <;> rfl

theorem obtain_spec (blocks : List Word) (addr : Word) : (obtain blocks addr).2[(obtain blocks addr).1]? = some addr := by
  unfold obtain
  split
  · rename_i i found
    obtain ⟨bound,here,_⟩ := List.idxOf?_eq_some_iff.mp found
    exact List.getElem?_eq_some_iff.mpr ⟨bound,here⟩
  · simp

/-- The collections at the end of the construction of the accesses. -/
def Extends (colls final : Word → List Word) : Prop := ∀ set, colls set <+: final set

/-- On the set of the address the access ages every block, or injects a block that holds
    the address. -/
def Served (cache : Cache) (colls : Word → List Word) (access : BlockAccess) (a : Word) : Prop :=
  ∀ final, Extends colls final → ∀ (A : Nat) (s : Domain (final (cache.set a)).length A) (action : Action), action ≠ .PURGE →
    update (cache.set a).toNat s action access = some (ageAll s) ∨
      ∃ i, cache.block ((final (cache.set a)).get i) = cache.block a ∧
        update (cache.set a).toNat s action access = some (s.inject i)

theorem served_any (colls : Word → List Word) (a : Word) : Served cache colls .ANY a :=
  fun _ _ _ _ _ used => Or.inl (update_any used)

private def flat (size : Nat) : Domain size 2 where
  whole := ⟨fun _ => 1,fun _ => by omega,Nat.zero_lt_two⟩
  data := []
  must := ⟨fun _ => 1,fun _ => by omega,Nat.zero_lt_two⟩

private theorem flat_ageAll {i : Fin size} : (ageAll (flat size)).must.age i = -1 := rfl
private theorem flat_inject {i j : Fin size} : ((flat size).inject j).must.age i = if i = j then 0 else 1 := by
  show Function.update _ j 0 i = _
  rw [Function.update_apply]
  simp [flat,ACS.aged,ACS.contains]

private theorem flat_ne_ageAll (i : Fin size) : flat size ≠ ageAll (flat size) := by
  intro same
  have ages : (1 : Int) = -1 := congrArg (fun s => s.must.age i) same
  omega

private theorem flat_ne_inject (i : Fin size) : flat size ≠ (flat size).inject i := by
  intro same
  have ages : (1 : Int) = _ := congrArg (fun s => s.must.age i) same
  rw [flat_inject,if_pos rfl] at ages
  omega

private theorem inject_ne_ageAll (i : Fin size) : (flat size).inject i ≠ ageAll (flat size) := by
  intro same
  have ages := congrArg (fun s => s.must.age i) same
  rw [flat_inject,flat_ageAll,if_pos rfl] at ages
  omega

private theorem inject_ne_inject {i j : Fin size} (differ : i ≠ j) : (flat size).inject i ≠ (flat size).inject j := by
  intro same
  have ages := congrArg (fun s => s.must.age i) same
  rw [flat_inject,flat_inject,if_pos rfl,if_neg differ] at ages
  omega

private theorem not_served_of_unchanged {colls : Word → List Word} {access : BlockAccess} {a : Word}
    (unchanged : ∀ (size A : Nat) (s : Domain size A), update (cache.set a).toNat s .LOAD access = some s) :
    ¬ Served cache colls access a := by
  intro served
  have bound : 0 < (colls (cache.set a) ++ [a]).length := by simp
  rcases served (fun set => colls set ++ [a]) (fun set => List.prefix_append _ _) 2 (flat _) .LOAD (by decide)
    with aged | ⟨i,_,injected⟩
  · rw [unchanged] at aged
    exact flat_ne_ageAll ⟨0,bound⟩ (Option.some.inj aged)
  · rw [unchanged] at injected
    exact flat_ne_inject i (Option.some.inj injected)

theorem served_range {colls : Word → List Word} {first last : Nat} {a : Word} :
    Served cache colls (.RANGE first last) a ↔ Between first last (cache.set a).toNat := by
  constructor
  · intro served
    by_contra outside
    refine not_served_of_unchanged cache (fun size A s => ?_) served
    rw [update_range s (by decide),if_neg outside]
  · intro inside final _ A s action used
    exact Or.inl (by rw [update_range s used,if_pos inside])

theorem served_block {colls : Word → List Word} {index : Nat} {l a : Word} (addr : Word)
    (known : (colls (cache.set l))[index]? = some addr) (place : cache.block addr = cache.block l) :
    Served cache colls (.BLOCK (cache.set l).toNat index) a ↔ cache.block a = cache.block l := by
  -- the block keeps its index in the collection
  have kept {final : Word → List Word} (later : Extends colls final) (sets : cache.set a = cache.set l) :
      ∃ bound : index < (final (cache.set a)).length, (final (cache.set a)).get ⟨index,bound⟩ = addr := by
    rw [sets]
    obtain ⟨bound,here⟩ := List.getElem?_eq_some_iff.mp known
    exact ⟨bound.trans_le (later (cache.set l)).length_le,((later (cache.set l)).getElem bound).symm.trans here⟩
  constructor
  · intro served
    by_contra other
    by_cases sets : cache.set a = cache.set l
    · have later : Extends colls colls := fun _ => List.prefix_refl _
      obtain ⟨bound,get⟩ := kept later sets
      have injects : update (cache.set a).toNat (flat _) .LOAD (.BLOCK (cache.set l).toNat index) = some _ :=
        update_block (cache.set a).toNat (flat _) (by decide) bound
      rw [if_pos (by rw [sets])] at injects
      rcases served _ later 2 (flat _) .LOAD (by decide) with aged | ⟨i,holds,injected⟩
      · rw [injects] at aged
        exact inject_ne_ageAll _ (Option.some.inj aged)
      · rw [injects] at injected
        refine inject_ne_inject ?_ (Option.some.inj injected)
        rintro rfl
        rw [get,place] at holds
        exact other holds.symm
    · refine not_served_of_unchanged cache (fun size A s => ?_) served
      have differ : (cache.set l).toNat ≠ (cache.set a).toNat := fun same => sets (BitVec.eq_of_toNat_eq same.symm)
      simp only [update,if_neg differ]
  · intro same final later A s action used
    have sets : cache.set a = cache.set l := cache.set_of_block same
    obtain ⟨bound,get⟩ := kept later sets
    refine Or.inr ⟨⟨index,bound⟩,?_,?_⟩
    · rw [get,place,same]
    · rw [update_block _ s used bound,if_pos (by rw [sets])]

theorem served_accessBlock (colls : Word → List Word) {l addr : Word} (a : Word) (place : cache.block addr = cache.block l) :
    Served cache (accessBlock cache colls l addr).2 (accessBlock cache colls l addr).1 a ↔ cache.block a = cache.block l := by
  refine served_block cache addr ?_ place
  simp only [accessBlock,Function.update_self]
  exact obtain_spec (colls (cache.set l)) addr

/-- The sets of the access as `MUSTPERS` reads them hold the addresses of the value. -/
def Decoded (cache : Cache) (v : Value) : Prop :=
  v.isConst ∨ covers cache v ∨
    if cache.block v.start = cache.block v.stop then ∀ a ∈ v, cache.block a = cache.block v.start
    else ∀ a ∈ v, Between (cache.set v.start).toNat (cache.set v.stop).toNat (cache.set a).toNat

theorem mem_const {v : Value} (notTop : v.kind ≠ .ALL) (const : v.isConst) {a : Word} (member : a ∈ v) : a = v.lower := by
  have kind := (Clp.Value.kind_of_mem member).resolve_right notTop
  rw [Clp.Value.mem_val kind] at member
  refine (Progression.mem_const ?_).mp member
  simp only [Value.isConst,Bool.or_eq_true,beq_iff_eq] at const
  exact const.imp id fun zero => by rw [zero]; rfl

/-! ### When the sets are decoded -/

section Span
variable {cache}

/-- The number of bits of a set number, in a cache that may be larger than the memory. -/
private def setBits (cache : Cache) : Nat := Min.min cache.rowBits (32 - cache.blockBits)

private theorem set_split (cache : Cache) {a : Word} {x : Nat} (place : a.toNat = x % 2 ^ 32) :
    (cache.block a).toNat = x / 2 ^ cache.blockBits % 2 ^ (32 - cache.blockBits) ∧
      (cache.set a).toNat = x / 2 ^ cache.blockBits % 2 ^ setBits cache := by
  have blockBound := cache.blockBound
  have block : (cache.block a).toNat = x / 2 ^ cache.blockBits % 2 ^ (32 - cache.blockBits) := by
    rw [cache.block_toNat,place]
    have whole : 2 ^ 32 = 2 ^ cache.blockBits * 2 ^ (32 - cache.blockBits) := by
      rw [← Nat.pow_add]
      congr 1
      omega
    rw [whole,Nat.mod_mul_right_div_self]
  refine ⟨block,?_⟩
  rw [cache.set_toNat,block,setBits]
  by_cases small : cache.rowBits ≤ 32 - cache.blockBits
  · rw [Nat.min_eq_left small,Nat.mod_mod_of_dvd _ (Nat.pow_dvd_pow 2 small)]
  · rw [Nat.min_eq_right (by omega),Nat.mod_eq_of_lt]
    exact (Nat.mod_lt _ (Nat.two_pow_pos _)).trans_le (Nat.pow_le_pow_right (by decide) (by omega))

private theorem blockSize_toNat (cache : Cache) : cache.blockSize.toNat = 2 ^ cache.blockBits := by
  rw [Cache.blockSize,BitVec.toNat_shiftLeft,Nat.shiftLeft_eq]
  show 1 * 2 ^ cache.blockBits % 2 ^ 32 = 2 ^ cache.blockBits
  rw [one_mul,Nat.mod_eq_of_lt (Nat.pow_lt_pow_right (by decide) cache.blockBound)]

private theorem span_small {v : Value} (rows : 0 < cache.rowBits)
    (fits : (Clp.abs v.delta).toNat * v.mtimes.toNat < 2 ^ 32) (narrow : covers cache v = false) :
    (Clp.abs v.delta).toNat * v.mtimes.toNat < (2 ^ setBits cache - 1) * 2 ^ cache.blockBits := by
  have blockBound := cache.blockBound
  simp only [covers,mult,Bool.or_eq_false_iff] at narrow
  have less := of_decide_eq_false narrow.2
  rw [ge_iff_le,BitVec.not_le,BitVec.lt_def,BitVec.toNat_mul,Nat.mod_eq_of_lt fits] at less
  refine less.trans_le ?_
  have positive := Nat.two_pow_pos cache.blockBits
  have masked : (cache.offset v.lower).toNat ≤ 2 ^ cache.blockBits - 1 := by
    rw [Cache.offset,BitVec.toNat_and,Cache.blockMask,Cache.blockSize,Cache.mask_toNat cache.blockBound]
    exact Nat.and_le_right
  have area : ((cache.rowCount - 1) * cache.blockSize).toNat = (2 ^ setBits cache - 1) * 2 ^ cache.blockBits := by
    rw [BitVec.toNat_mul,blockSize_toNat,Cache.rowCount,Cache.mask_toNat (by have := cache.rowBound; omega),setBits]
    by_cases small : cache.rowBits ≤ 32 - cache.blockBits
    · rw [Nat.min_eq_left small,Nat.mod_eq_of_lt]
      have bound : 2 ^ cache.rowBits * 2 ^ cache.blockBits ≤ 2 ^ 32 := by
        rw [← Nat.pow_add]; exact Nat.pow_le_pow_right (by decide) (by omega)
      rw [Nat.sub_mul,one_mul]
      omega
    · -- the shift drops the high bits
      rw [Nat.min_eq_right (by omega)]
      have high : 2 ^ cache.rowBits = 2 ^ (32 - cache.blockBits) * 2 ^ (cache.rowBits - (32 - cache.blockBits)) := by
        rw [← Nat.pow_add]; congr 1; omega
      have whole : 2 ^ (32 - cache.blockBits) * 2 ^ cache.blockBits = 2 ^ 32 := by
        rw [← Nat.pow_add]; congr 1; omega
      obtain ⟨k,count⟩ : ∃ k, 2 ^ (cache.rowBits - (32 - cache.blockBits)) = k + 1 :=
        ⟨_,(Nat.succ_pred_eq_of_pos (Nat.two_pow_pos _)).symm⟩
      have split : (2 ^ cache.rowBits - 1) * 2 ^ cache.blockBits =
          (2 ^ (32 - cache.blockBits) - 1) * 2 ^ cache.blockBits + 2 ^ 32 * k := by
        have expanded : 2 ^ cache.rowBits * 2 ^ cache.blockBits = 2 ^ 32 * (k + 1) := by
          rw [high,count,mul_right_comm,whole]
        rw [Nat.sub_mul,Nat.sub_mul,expanded,whole]
        have : 2 ^ cache.blockBits ≤ 2 ^ 32 := Nat.pow_le_pow_right (by decide) (by omega)
        omega
      rw [split,Nat.add_mul_mod_self_left,Nat.mod_eq_of_lt]
      rw [Nat.sub_mul,whole]
      omega
  have room : 2 ^ cache.blockBits ≤ (2 ^ setBits cache - 1) * 2 ^ cache.blockBits := by
    refine Nat.le_mul_of_pos_left _ ?_
    have two : 2 ≤ 2 ^ setBits cache := Nat.le_self_pow (by unfold setBits; omega) 2
    omega
  rw [BitVec.toNat_sub_of_le (by rw [BitVec.le_def,area]; omega),area]
  exact Nat.sub_le _ _

/-- A span that is computed in full is decoded in a cache of several sets, unless the range
    goes through the last set. -/
theorem decoded_of_straight {v : Value} (kind : v.kind = .VAL) (rows : 0 < cache.rowBits)
    (fits : (Clp.abs v.delta).toNat * v.mtimes.toNat < 2 ^ 32)
    (straight : (cache.set v.start).toNat ≤ (cache.set v.stop).toNat) : Decoded cache v := by
  unfold Decoded
  by_cases whole : covers cache v
  · exact Or.inr (Or.inl whole)
  refine Or.inr (Or.inr ?_)
  have small := span_small rows fits (Bool.eq_false_iff.mpr whole)
  generalize count : setBits cache = bits at small
  have place {a : Word} (member : a ∈ v) : ∃ d, d ≤ (Clp.abs v.delta).toNat * v.mtimes.toNat ∧
      a.toNat = (v.start.toNat + d) % 2 ^ 32 := by
    obtain ⟨k,bound,rfl⟩ := (Clp.Value.mem_start kind).mp member
    refine ⟨(Clp.abs v.delta).toNat * k,Nat.mul_le_mul_left _ bound,?_⟩
    rw [BitVec.toNat_add,nsmul_eq_mul,BitVec.natCast_eq_ofNat,BitVec.toNat_mul,BitVec.toNat_ofNat,Nat.mod_mul_mod,
      Nat.add_mod_mod,mul_comm k]
  have stop : v.stop.toNat = (v.start.toNat + (Clp.abs v.delta).toNat * v.mtimes.toNat) % 2 ^ 32 := by
    have words : v.stop = v.start + Clp.abs v.delta * v.mtimes := by
      unfold Value.stop Value.start Clp.abs
      split
      · rw [BitVec.neg_mul]; abel
      · rfl
    rw [words,BitVec.toNat_add,BitVec.toNat_mul,Nat.add_mod_mod]
  generalize (Clp.abs v.delta).toNat * v.mtimes.toNat = span at small place stop
  have blocks (d : Nat) (bound : d ≤ span) : ∃ e, (v.start.toNat + d) / 2 ^ cache.blockBits =
      v.start.toNat / 2 ^ cache.blockBits + e ∧ e < 2 ^ bits ∧
        v.start.toNat / 2 ^ cache.blockBits + e ≤ (v.start.toNat + span) / 2 ^ cache.blockBits := by
    have more : v.start.toNat / 2 ^ cache.blockBits ≤ (v.start.toNat + d) / 2 ^ cache.blockBits :=
      Nat.div_le_div_right (Nat.le_add_right _ _)
    refine ⟨(v.start.toNat + d) / 2 ^ cache.blockBits - v.start.toNat / 2 ^ cache.blockBits,by omega,?_,?_⟩
    · have positive := Nat.two_pow_pos cache.blockBits
      have total : (2 ^ bits - 1) * 2 ^ cache.blockBits + 2 ^ cache.blockBits = 2 ^ bits * 2 ^ cache.blockBits := by
        rw [Nat.sub_mul,one_mul]
        have := Nat.le_mul_of_pos_left (2 ^ cache.blockBits) (Nat.two_pow_pos bits)
        omega
      have rest := Nat.mod_lt v.start.toNat positive
      have whole := Nat.div_add_mod v.start.toNat (2 ^ cache.blockBits)
      have upper : (v.start.toNat + d) / 2 ^ cache.blockBits < v.start.toNat / 2 ^ cache.blockBits + 2 ^ bits := by
        rw [Nat.div_lt_iff_lt_mul positive,Nat.add_mul,mul_comm (v.start.toNat / _)]
        omega
      omega
    · have := Nat.div_le_div_right (c := 2 ^ cache.blockBits) (Nat.add_le_add_left bound v.start.toNat)
      omega
  have narrow : bits ≤ 32 - cache.blockBits := count ▸ Nat.min_le_right _ _
  obtain ⟨last,lastBlock,lastBound,_⟩ := blocks span le_rfl
  obtain ⟨startBlock,startSet⟩ := set_split cache (a := v.start) (x := v.start.toNat) (Nat.mod_eq_of_lt v.start.isLt).symm
  obtain ⟨stopBlock,stopSet⟩ := set_split cache stop
  rw [lastBlock] at stopBlock stopSet
  rw [count] at startSet stopSet
  generalize v.start.toNat / 2 ^ cache.blockBits = first at *
  split
  · rename_i same
    -- the two ends are in one block, and so is what lies between them
    have zero : last = 0 := by
      rw [← BitVec.toNat_inj,startBlock,stopBlock] at same
      have wide := Nat.pow_le_pow_right (n := 2) (by decide) narrow
      have cancelled : 0 % 2 ^ (32 - cache.blockBits) = last % 2 ^ (32 - cache.blockBits) :=
        Nat.ModEq.add_left_cancel' first (show first + 0 ≡ first + last [MOD 2 ^ (32 - cache.blockBits)] from same)
      rw [Nat.zero_mod,Nat.mod_eq_of_lt (lastBound.trans_le wide)] at cancelled
      exact cancelled.symm
    intro a member
    obtain ⟨d,bound,value⟩ := place member
    obtain ⟨e,here,_,le⟩ := blocks d bound
    rw [lastBlock] at le
    have := (set_split cache value).1
    rw [here,show e = 0 by omega] at this
    exact BitVec.eq_of_toNat_eq (this.trans startBlock.symm)
  · intro a member
    obtain ⟨d,bound,value⟩ := place member
    obtain ⟨e,here,_,le⟩ := blocks d bound
    rw [lastBlock] at le
    have set := (set_split cache value).2
    rw [here,count] at set
    rw [startSet,stopSet] at straight
    rw [Between,startSet,stopSet,set]
    have positive := Nat.two_pow_pos bits
    have low := Nat.mod_lt first positive
    -- the last set is not passed
    have ends : first % 2 ^ bits + last < 2 ^ bits := by
      by_contra beyond
      have wrapped : (first + last) % 2 ^ bits = first % 2 ^ bits + last - 2 ^ bits := by
        rw [Nat.add_mod,Nat.mod_eq_of_lt lastBound,
          Nat.mod_eq_sub_mod (show 2 ^ bits ≤ first % 2 ^ bits + last by omega)]
        exact Nat.mod_eq_of_lt (by omega)
      omega
    have before : e ≤ last := by omega
    have here : (first + e) % 2 ^ bits = first % 2 ^ bits + e := by
      rw [Nat.add_mod,Nat.mod_eq_of_lt (before.trans_lt lastBound),Nat.mod_eq_of_lt (by omega)]
    have there : (first + last) % 2 ^ bits = first % 2 ^ bits + last := by
      rw [Nat.add_mod,Nat.mod_eq_of_lt lastBound,Nat.mod_eq_of_lt ends]
    rw [here,there]
    omega

end Span

private def fourSets : Cache := ⟨4,2,by decide,by decide⟩

/-- Three addresses in the sets 1, 2 and 3. -/
theorem decoded_of_straight_ascending : Decoded fourSets ⟨.VAL,0x10,0x10,2⟩ :=
  decoded_of_straight rfl (by decide) (by decide) (by decide)

/-- The access built for a value serves all its addresses exactly when the sets are decoded
    as they were meant. -/
theorem served_iff_decoded (banks : List Bank) (colls : Word → List Word) (v : Value) (notTop : v.kind ≠ .ALL)
    {access : BlockAccess} {colls' : Word → List Word} (built : processAccess cache banks colls v = some (access,colls')) :
    (∀ a ∈ v, Served cache colls' access a) ↔ Decoded cache v := by
  have proper : v ≠ Value.all := fun same => notTop (by rw [same]; rfl)
  rw [processAccess,if_neg proper] at built
  unfold Decoded
  by_cases const : v.isConst
  · rw [if_pos const] at built
    refine iff_of_true (fun a member => ?_) (Or.inl const)
    obtain ⟨_,_,same⟩ := Option.map_eq_some_iff.mp built
    obtain rfl := mem_const notTop const member
    have served := (served_accessBlock cache colls v.lower (cache.block_round v.lower)).mpr rfl
    rwa [same] at served
  · rw [if_neg const] at built
    by_cases whole : covers cache v
    · rw [if_pos whole] at built
      obtain ⟨rfl,rfl⟩ := Prod.mk.inj (Option.some.inj built)
      exact iff_of_true (fun a _ => served_any cache colls a) (Or.inr (Or.inl whole))
    · rw [if_neg whole] at built
      obtain ⟨_,_,same⟩ := Option.map_eq_some_iff.mp built
      simp only [const,whole,Bool.false_eq_true,false_or]
      split at same
      · rename_i one
        rw [if_pos one]
        refine forall₂_congr fun a _ => ?_
        have served := served_accessBlock cache colls a (rfl : cache.block v.start = cache.block v.start)
        rwa [same] at served
      · rename_i two
        rw [if_neg two]
        obtain ⟨rfl,rfl⟩ := Prod.mk.inj same
        exact forall₂_congr fun a _ => served_range cache

private def around : Value := ⟨.VAL,0x30,0x10,2⟩

theorem served_iff_decoded_around : ¬ ∀ a ∈ around, Served fourSets (fun _ => []) (.RANGE 3 1) a := by
  have built : processAccess fourSets [⟨0,0x100⟩] (fun _ => []) around = some (.RANGE 3 1,fun _ => []) := by rfl
  rw [served_iff_decoded fourSets [⟨0,0x100⟩] (fun _ => []) around (by decide) built]
  rintro (const | whole | decoded)
  · exact absurd const (by decide)
  · exact absurd whole (by decide)
  · rw [if_neg (by decide)] at decoded
    exact absurd (decoded 0x40 ⟨1,by decide,by decide⟩) (by decide)

/-- The range goes through the last set: the state of set 0 is left as it was. -/
theorem around_unserved : ¬ ∀ (cache : Cache) (banks : List Bank) (colls : Word → List Word) (v : Value),
    v.kind ≠ .ALL → ∀ access colls', processAccess cache banks colls v = some (access,colls') →
      ∀ a ∈ v, Served cache colls' access a := by
  intro always
  have served := always fourSets [⟨0,0x100⟩] (fun _ => []) around (by decide) (.RANGE 3 1) (fun _ => []) (by rfl)
    0x40 ⟨1,by decide,by decide⟩
  exact absurd ((served_range fourSets).mp served) (by decide)

end Otawa.Dcache
