import Otawa.BitCount
import Mathlib.Logic.Function.Basic

/-!
The bit vector on bytes (`elm::BitVector`). The bits of the last byte beyond the size
are not kept clear; the tests mask those of their first operand only. What they hold
follows from the operations (`Build.pad`), and with it which answers are right
(`answers_set_iff`).
-/
namespace Otawa

def bytes (n : Nat) : Nat := (n + 7) / 8

structure BitVector (n : Nat) where
  bits : List (BitVec 8)
  length : bits.length = bytes n

namespace BitVector

variable {n : Nat}

def byteIndex (index : Nat) : Nat := index / 8
def bitIndex (index : Nat) : Nat := index % 8

def each (v : BitVector n) (f : BitVec 8 → BitVec 8) : BitVector n := ⟨v.bits.map f,by simp [v.length]⟩
def both (v vec : BitVector n) (f : BitVec 8 → BitVec 8 → BitVec 8) : BitVector n :=
  ⟨List.zipWith f v.bits vec.bits,by simp [v.length,vec.length]⟩
def at_ (v : BitVector n) (k : Nat) (f : BitVec 8 → BitVec 8) : BitVector n := ⟨v.bits.modify k f,by simp [v.length]⟩

/-- The shift gives no mask at all when the last byte is whole. -/
def mask (v : BitVector n) : BitVector n :=
  let mask := 0xff#8 >>> (8 - n % 8)
  if mask ≠ 0 then v.at_ (bytes n - 1) (· &&& mask) else v

def make (n : Nat) (set : Bool) : BitVector n := ⟨List.replicate (bytes n) (if set then 0xff else 0),by simp⟩

/-- `1 << bit_index(index)`. -/
def one (index : Nat) : BitVec 8 := 1#8 <<< bitIndex index

def set (v : BitVector n) (index : Fin n) : BitVector n := v.at_ (byteIndex index) (· ||| one index)
def clear (v : BitVector n) (index : Fin n) : BitVector n := v.at_ (byteIndex index) (· &&& ~~~one index)

def bit (v : BitVector n) (index : Fin n) : Bool := (v.bits[byteIndex index]?.getD 0) &&& one index != 0

/-- `set(void)` and `clear(void)`. -/
def setAll (v : BitVector n) : BitVector n := (v.each fun _ => 0xff).mask
def clearAll (v : BitVector n) : BitVector n := v.each fun _ => 0

def applyNot (v : BitVector n) : BitVector n := v.each (~~~ ·)
def applyOr (v vec : BitVector n) : BitVector n := v.both vec (· ||| ·)
def applyAnd (v vec : BitVector n) : BitVector n := v.both vec (· &&& ·)
def applyReset (v vec : BitVector n) : BitVector n := (v.both vec fun byte other => byte &&& ~~~other).mask

def makeNot (v : BitVector n) : BitVector n := v.each (~~~ ·)
def makeOr (v vec : BitVector n) : BitVector n := v.both vec (· ||| ·)
def makeAnd (v vec : BitVector n) : BitVector n := v.both vec (· &&& ·)
/-- Unlike `applyReset`, without `mask`. -/
def makeReset (v vec : BitVector n) : BitVector n := v.both vec fun byte other => byte &&& ~~~other

/-! ### Tests

They mask the vector itself. -/

def isEmptyFrom : List (BitVec 8) → Bool
  | [] => true
  | byte :: bytes => if byte ≠ 0 then false else isEmptyFrom bytes

def includesFrom : List (BitVec 8) → List (BitVec 8) → Bool
  | byte :: bytes, other :: others => if ~~~byte &&& other ≠ 0 then false else includesFrom bytes others
  | _, _ => true

def includesStrictlyFrom (equal : Bool) : List (BitVec 8) → List (BitVec 8) → Bool
  | byte :: bytes, other :: others =>
    if ~~~byte &&& other ≠ 0 then false
    else includesStrictlyFrom (if byte ≠ other then false else equal) bytes others
  | _, _ => !equal

def equalsFrom : List (BitVec 8) → List (BitVec 8) → Bool
  | byte :: bytes, other :: others => if byte ≠ other then false else equalsFrom bytes others
  | _, _ => true

def isEmpty (v : BitVector n) : Bool := isEmptyFrom v.mask.bits
def includes (v vec : BitVector n) : Bool := includesFrom v.mask.bits vec.bits
def includesStrictly (v vec : BitVector n) : Bool := includesStrictlyFrom true v.mask.bits vec.bits
def equals (v vec : BitVector n) : Bool := equalsFrom v.mask.bits vec.bits

def countBits (v : BitVector n) : Int := (v.bits.map bitCounts).sum
def countOnes (v : BitVector n) : Int := (v.bits.map ones8).sum
def countZeroes (v : BitVector n) : Int := v.countBits - v.countOnes

/-! ### Bits -/

/-- The vector has these bits, and the bits beyond its size have the value `pad`. -/
def Holds (v : BitVector n) (elems : Fin n → Bool) (pad : Bool) : Prop :=
  ∀ k byte, v.bits[k]? = some byte → ∀ j < 8,
    byte.getLsbD j = if inside : 8 * k + j < n then elems ⟨8 * k + j,inside⟩ else pad

section Holds
variable {v vec : BitVector n} {elems elems' : Fin n → Bool} {pad pad' : Bool}

theorem holds_make (init : Bool) : Holds (make n init) (fun _ => init) init := by
  intro k byte place j low
  obtain ⟨_,rfl⟩ := List.mem_replicate.mp (List.mem_of_getElem? place)
  rw [dite_eq_ite,ite_self]
  cases init with
  | false => simp
  | true =>
    have whole : (0xff : BitVec 8) = BitVec.allOnes 8 := by decide
    rw [if_pos rfl,whole,BitVec.getLsbD_allOnes,decide_eq_true low]

theorem Holds.each (holds : Holds v elems pad) {f : BitVec 8 → BitVec 8} {g : Bool → Bool}
    (bitwise : ∀ byte j, j < 8 → (f byte).getLsbD j = g (byte.getLsbD j)) :
    Holds (v.each f) (fun i => g (elems i)) (g pad) := by
  intro k byte place j low
  rw [BitVector.each,List.getElem?_map,Option.map_eq_some_iff] at place
  obtain ⟨old,known,rfl⟩ := place
  rw [bitwise old j low,holds k old known j low]
  split <;> rfl

theorem Holds.both (holds : Holds v elems pad) (holds' : Holds vec elems' pad') {f : BitVec 8 → BitVec 8 → BitVec 8}
    {g : Bool → Bool → Bool} (bitwise : ∀ byte other j, j < 8 →
      (f byte other).getLsbD j = g (byte.getLsbD j) (other.getLsbD j)) :
    Holds (v.both vec f) (fun i => g (elems i) (elems' i)) (g pad pad') := by
  intro k byte place j low
  rw [BitVector.both,List.getElem?_zipWith_eq_some] at place
  obtain ⟨old,other,known,known',rfl⟩ := place
  rw [bitwise old other j low,holds k old known j low,holds' k other known' j low]
  split <;> rfl

theorem Holds.at_ (holds : Holds v elems pad) (index : Fin n) {f : BitVec 8 → BitVec 8} {value : Bool}
    (bitwise : ∀ byte j, j < 8 → (f byte).getLsbD j = if j = bitIndex index then value else byte.getLsbD j) :
    Holds (v.at_ (byteIndex index) f) (Function.update elems index value) pad := by
  intro k byte place j low
  rw [BitVector.at_,List.getElem?_modify,Option.map_eq_map,Option.map_eq_some_iff] at place
  obtain ⟨old,known,rfl⟩ := place
  have written : (if byteIndex index = k then f old else old).getLsbD j =
      if 8 * k + j = index.val then value else old.getLsbD j := by
    rw [byteIndex]
    by_cases byte : index.val / 8 = k
    · have place : 8 * k + j = index.val ↔ j = bitIndex index := by rw [bitIndex]; omega
      rw [if_pos byte,bitwise old j low]
      simp only [place]
    · rw [if_neg byte,if_neg (by omega)]
  rw [written,holds k old known j low]
  by_cases here : 8 * k + j = index.val
  · have inside : 8 * k + j < n := by omega
    obtain rfl : index = ⟨8 * k + j,inside⟩ := Fin.ext here.symm
    rw [if_pos here,dif_pos inside,Function.update_self]
  · rw [if_neg here]
    split
    · rw [Function.update_of_ne fun same => here (congrArg Fin.val same)]
    · rfl

theorem getLsbD_one (index j : Nat) : (one index).getLsbD j = decide (j = bitIndex index) := by
  have low : bitIndex index < 8 := by rw [bitIndex]; omega
  rw [one,← BitVec.twoPow_eq,BitVec.getLsbD_twoPow]
  by_cases same : j = bitIndex index
  · simp [same,low]
  · simp [same,Ne.symm same]

private theorem not_bit (byte : BitVec 8) (j : Nat) (low : j < 8) : (~~~byte).getLsbD j = !byte.getLsbD j := by
  rw [BitVec.getLsbD_not,decide_eq_true low,Bool.true_and]

theorem Holds.set (holds : Holds v elems pad) (index : Fin n) : Holds (v.set index) (Function.update elems index true) pad := by
  refine holds.at_ index fun byte j _ => ?_
  rw [BitVec.getLsbD_or,getLsbD_one]
  by_cases same : j = bitIndex index <;> simp [same]

theorem Holds.clear (holds : Holds v elems pad) (index : Fin n) : Holds (v.clear index) (Function.update elems index false) pad := by
  refine holds.at_ index fun byte j low => ?_
  rw [BitVec.getLsbD_and,not_bit _ j low,getLsbD_one]
  by_cases same : j = bitIndex index <;> simp [same]

theorem getLsbD_mask (n j : Nat) : (0xff#8 >>> (8 - n % 8)).getLsbD j = decide (j < n % 8) := by
  have whole : 0xff#8 = BitVec.allOnes 8 := by decide
  rw [whole,BitVec.getLsbD_ushiftRight,BitVec.getLsbD_allOnes,decide_eq_decide]
  omega

theorem Holds.mask (holds : Holds v elems pad) : Holds v.mask elems false := by
  unfold BitVector.mask
  by_cases whole : n % 8 = 0
  · have none : 0xff#8 >>> (8 - n % 8) = 0 := by rw [whole]; decide
    rw [none,if_neg fun other => other rfl]
    intro k byte place j low
    have inside := (List.getElem?_eq_some_iff.mp place).1
    rw [v.length,bytes] at inside
    rw [holds k byte place j low,dif_pos (by omega),dif_pos (by omega)]
  · have first := getLsbD_mask n 0
    rw [decide_eq_true (by omega)] at first
    have some : 0xff#8 >>> (8 - n % 8) ≠ 0 := by
      intro none
      rw [none] at first
      cases first
    rw [if_pos some]
    intro k byte place j low
    rw [BitVector.at_,List.getElem?_modify,Option.map_eq_map,Option.map_eq_some_iff] at place
    obtain ⟨old,known,rfl⟩ := place
    have inside := (List.getElem?_eq_some_iff.mp known).1
    rw [v.length,bytes] at inside
    have before := holds k old known j low
    by_cases last : bytes n - 1 = k
    · rw [if_pos last,BitVec.getLsbD_and,getLsbD_mask,before]
      rw [bytes] at last
      split
      · rw [decide_eq_true (by omega),Bool.and_true]
      · rw [decide_eq_false (by omega),Bool.and_false]
    · rw [if_neg last,before]
      rw [bytes] at last
      rw [dif_pos (by omega),dif_pos (by omega)]

theorem isEmptyFrom_iff {bits : List (BitVec 8)} : isEmptyFrom bits = true ↔ ∀ byte ∈ bits, byte = 0 := by
  induction bits with
  | nil => simp [isEmptyFrom]
  | cons byte bits ih =>
    rw [isEmptyFrom,List.forall_mem_cons]
    split
    · rename_i some
      exact iff_of_false Bool.false_ne_true fun all => some all.1
    · rename_i zero
      rw [ih]
      exact ⟨fun all => ⟨not_not.mp zero,all⟩,And.right⟩

theorem includesFrom_iff {bits others : List (BitVec 8)} : includesFrom bits others = true ↔
    ∀ (k : Nat) (byte other : BitVec 8), bits[k]? = some byte → others[k]? = some other → ~~~byte &&& other = 0 := by
  induction bits generalizing others with
  | nil => simp [includesFrom]
  | cons byte bits ih =>
    cases others with
    | nil => simp [includesFrom]
    | cons other others =>
      rw [includesFrom]
      split
      · rename_i missing
        exact iff_of_false Bool.false_ne_true fun all => missing (all 0 byte other rfl rfl)
      · rename_i covered
        rw [ih]
        constructor
        · intro all k
          cases k with
          | zero =>
            rintro _ _ ⟨⟩ ⟨⟩
            exact not_not.mp covered
          | succ k => exact all k
        · exact fun all k => all (k + 1)

theorem equalsFrom_iff {bits others : List (BitVec 8)} (same : bits.length = others.length) :
    equalsFrom bits others = true ↔ bits = others := by
  induction bits generalizing others with
  | nil =>
    cases others with
    | nil => simp [equalsFrom]
    | cons _ _ => cases same
  | cons byte bits ih =>
    cases others with
    | nil => cases same
    | cons other others =>
      rw [equalsFrom,List.cons.injEq]
      by_cases equal : byte = other
      · simp [equal,ih (Nat.succ.inj same)]
      · simp [equal]

theorem includesStrictlyFrom_iff {bits others : List (BitVec 8)} (same : bits.length = others.length) (equal : Bool) :
    includesStrictlyFrom equal bits others = true ↔ includesFrom bits others = true ∧ (equal = false ∨ bits ≠ others) := by
  induction bits generalizing others equal with
  | nil =>
    cases others with
    | nil => simp [includesStrictlyFrom,includesFrom]
    | cons _ _ => cases same
  | cons byte bits ih =>
    cases others with
    | nil => cases same
    | cons other others =>
      rw [includesStrictlyFrom,includesFrom]
      split
      · simp
      · rw [ih (Nat.succ.inj same)]
        by_cases here : byte = other
        · simp [here]
        · simp [here]

/-! ### Tests of bits -/

theorem exists_byte (v : BitVector n) {k : Nat} (inside : k < bytes n) : ∃ byte, v.bits[k]? = some byte :=
  ⟨_,List.getElem?_eq_getElem (by rw [v.length]; exact inside)⟩

theorem Holds.element (holds : Holds v elems pad) (i : Fin n) :
    ∃ byte, v.bits[i.val / 8]? = some byte ∧ byte.getLsbD (i.val % 8) = elems i := by
  have below := i.isLt
  obtain ⟨byte,known⟩ := exists_byte v (k := i.val / 8) (by rw [bytes]; omega)
  have place : 8 * (i.val / 8) + i.val % 8 = i.val := by omega
  have bit := holds _ byte known (i.val % 8) (by omega)
  rw [dif_pos (by omega)] at bit
  refine ⟨byte,known,bit.trans (congrArg elems (Fin.ext place))⟩

theorem Holds.bit (holds : Holds v elems pad) (i : Fin n) : v.bit i = elems i := by
  obtain ⟨byte,known,value⟩ := holds.element i
  have low : bitIndex i < 8 := by rw [bitIndex]; omega
  have nonzero : BitVec.twoPow 8 (bitIndex i) ≠ 0#8 := by
    intro zero
    simpa [low] using congrArg (·.getLsbD (bitIndex i)) zero
  rw [← value,BitVector.bit,byteIndex,known,Option.getD_some,one,← BitVec.twoPow_eq,BitVec.and_twoPow,← bitIndex]
  cases byte.getLsbD (bitIndex i) <;> simp [nonzero]

theorem Holds.beyond (holds : Holds v elems pad) (partly : n % 8 ≠ 0) :
    ∃ byte, v.bits[n / 8]? = some byte ∧ byte.getLsbD (n % 8) = pad := by
  obtain ⟨byte,known⟩ := exists_byte v (k := n / 8) (by rw [bytes]; omega)
  have bit := holds _ byte known (n % 8) (by omega)
  rw [dif_neg (by omega)] at bit
  exact ⟨byte,known,bit⟩

/-- The bits beyond the size are clear, or there are none. -/
def Trimmed (n : Nat) (pad : Bool) : Prop := n % 8 = 0 ∨ pad = false

theorem Holds.isEmpty_eq (holds : Holds v elems pad) : v.isEmpty = decide (∀ i, elems i = false) := by
  have masked := holds.mask
  rw [Bool.eq_iff_iff,BitVector.isEmpty,isEmptyFrom_iff,decide_eq_true_iff]
  constructor
  · intro none i
    obtain ⟨byte,known,bit⟩ := masked.element i
    rw [none byte (List.mem_of_getElem? known)] at bit
    simpa using bit.symm
  · intro none byte member
    obtain ⟨k,known⟩ := List.getElem?_of_mem member
    apply BitVec.eq_of_getLsbD_eq
    intro j low
    rw [masked k byte known j low]
    split
    · simp [none]
    · simp

private theorem Holds.includesFrom_iff (holds : Holds v elems false) (holds' : Holds vec elems' pad) :
    BitVector.includesFrom v.bits vec.bits = true ↔ (∀ i, elems' i = true → elems i = true) ∧ Trimmed n pad := by
  rw [BitVector.includesFrom_iff]
  constructor
  · intro all
    have covered {k j : Nat} {byte other : BitVec 8} (known : v.bits[k]? = some byte) (known' : vec.bits[k]? = some other) (low : j < 8)
        (bit : other.getLsbD j = true) : byte.getLsbD j = true := by
      have none := congrArg (fun w => w.getLsbD j) (all k byte other known known')
      simp only [BitVec.getLsbD_and,BitVec.getLsbD_not,low,decide_true,Bool.true_and,bit,Bool.and_true] at none
      simpa using none
    constructor
    · intro i bit
      obtain ⟨byte,known,value⟩ := holds.element i
      obtain ⟨other,known',value'⟩ := holds'.element i
      rw [← value]
      exact covered known known' (by omega) (value'.trans bit)
    · by_contra garbage
      rw [Trimmed,not_or] at garbage
      obtain ⟨byte,known,value⟩ := holds.beyond garbage.1
      obtain ⟨other,known',value'⟩ := holds'.beyond garbage.1
      rw [covered known known' (by omega) (value'.trans (Bool.not_eq_false _ ▸ garbage.2))] at value
      cases value
  · rintro ⟨all,trimmed⟩ k byte other known known'
    have inside := (List.getElem?_eq_some_iff.mp known).1
    rw [v.length,bytes] at inside
    apply BitVec.eq_of_getLsbD_eq
    intro j low
    have bit := holds k byte known j low
    have bit' := holds' k other known' j low
    have zero : (0 : BitVec 8).getLsbD j = false := BitVec.getLsbD_zero
    rw [BitVec.getLsbD_and,BitVec.getLsbD_not,decide_eq_true low,bit,bit',Bool.true_and,zero]
    split
    · rename_i here
      cases other : elems' ⟨8 * k + j,here⟩ with
      | false => rw [Bool.and_false]
      | true => rw [all _ other]; rfl
    · rw [trimmed.resolve_left (by omega)]; rfl

private theorem Holds.bits_eq_iff (holds : Holds v elems false) (holds' : Holds vec elems' pad) :
    v.bits = vec.bits ↔ elems = elems' ∧ Trimmed n pad := by
  constructor
  · intro same
    constructor
    · funext i
      obtain ⟨byte,known,bit⟩ := holds.element i
      obtain ⟨other,known',bit'⟩ := holds'.element i
      rw [same,known',Option.some.injEq] at known
      rw [← bit,← bit',known]
    · by_contra garbage
      rw [Trimmed,not_or] at garbage
      obtain ⟨byte,known,bit⟩ := holds.beyond garbage.1
      obtain ⟨other,known',bit'⟩ := holds'.beyond garbage.1
      rw [same,known',Option.some.injEq] at known
      rw [known,bit] at bit'
      exact garbage.2 bit'.symm
  · rintro ⟨rfl,trimmed⟩
    refine List.ext_getElem (v.length.trans vec.length.symm) fun k inside inside' => ?_
    have known := List.getElem?_eq_getElem inside
    have known' := List.getElem?_eq_getElem inside'
    rw [v.length,bytes] at inside
    apply BitVec.eq_of_getLsbD_eq
    intro j low
    rw [holds k _ known j low,holds' k _ known' j low]
    split
    · rfl
    · rw [trimmed.resolve_left (by omega)]

section Answers
variable (holds : Holds v elems pad) (holds' : Holds vec elems' pad')
include holds holds'

theorem Holds.includes_iff : v.includes vec = true ↔ (∀ i, elems' i = true → elems i = true) ∧ Trimmed n pad' :=
  holds.mask.includesFrom_iff holds'

theorem Holds.equals_iff : v.equals vec = true ↔ elems = elems' ∧ Trimmed n pad' := by
  rw [equals,equalsFrom_iff (v.mask.length.trans vec.length.symm)]
  exact holds.mask.bits_eq_iff holds'

theorem Holds.includesStrictly_iff : v.includesStrictly vec = true ↔
    ((∀ i, elems' i = true → elems i = true) ∧ elems ≠ elems') ∧ Trimmed n pad' := by
  rw [includesStrictly,includesStrictlyFrom_iff (v.mask.length.trans vec.length.symm),
    holds.mask.includesFrom_iff holds',Ne,holds.mask.bits_eq_iff holds']
  tauto

end Answers

def bitAt (bits : List (BitVec 8)) (k : Nat) : Bool := bits[k / 8]?.any fun byte => byte.getLsbD (k % 8)

theorem sum_ones8 (bits : List (BitVec 8)) :
    (bits.map ones8).sum = (List.range (8 * bits.length)).countP (bitAt bits) := by
  induction bits with
  | nil => rfl
  | cons byte bits ih =>
    have length : 8 * (byte :: bits).length = 8 + 8 * bits.length := by rw [List.length_cons]; omega
    rw [List.map_cons,List.sum_cons,ih,length,List.range_add,List.countP_append,List.countP_map,ones8_eq,countSet]
    refine congrArg₂ (· + ·) ?_ ?_
    · refine List.countP_congr fun j low => ?_
      rw [List.mem_range] at low
      rw [bitAt,Nat.div_eq_of_lt low,Nat.mod_eq_of_lt low]
      rfl
    · refine List.countP_congr fun j _ => ?_
      have place : (8 + j) / 8 = j / 8 + 1 := by omega
      have offset : (8 + j) % 8 = j % 8 := by omega
      rw [Function.comp_apply,bitAt,bitAt,place,offset]; rfl

theorem Holds.countOnes_eq (holds : Holds v elems pad) :
    v.countOnes = ((List.finRange n).countP elems + if pad then 8 * bytes n - n else 0 : Nat) := by
  have below : n ≤ 8 * bytes n := by rw [bytes]; omega
  have read (k : Nat) (inside : k < 8 * bytes n) :
      bitAt v.bits k = if low : k < n then elems ⟨k,low⟩ else pad := by
    obtain ⟨byte,known⟩ := exists_byte v (k := k / 8) (by omega)
    have place : 8 * (k / 8) + k % 8 = k := by omega
    have bit := holds _ byte known (k % 8) (by omega)
    simp only [place] at bit
    rw [bitAt,known]
    exact bit
  obtain ⟨rest,total⟩ := Nat.exists_eq_add_of_le below
  rw [countOnes,sum_ones8,v.length,total,List.range_add,List.countP_append,List.countP_map,← countP_finRange,
    Nat.add_sub_cancel_left]
  refine congrArg Nat.cast (congrArg₂ (· + ·) ?_ ?_)
  · refine List.countP_congr fun i _ => ?_
    rw [read i (by omega),dif_pos i.isLt]
  · have beyond : (List.range rest).countP (bitAt v.bits ∘ fun x => n + x) = (List.range rest).countP fun _ => pad := by
      refine List.countP_congr fun k inside => ?_
      rw [List.mem_range] at inside
      rw [Function.comp_apply,read _ (by omega),dif_neg (by omega)]
    rw [beyond]
    cases pad <;> simp

theorem countZeroes_eq (v : BitVector n) : v.countZeroes = 0 := by
  have same : bitCounts = ones8 := funext fun byte => (bitCounts_eq byte).trans (ones8_eq byte).symm
  rw [countZeroes,countBits,countOnes,same]
  exact Int.sub_self _

end Holds

/-- How a vector of n bits is built; the operands are built in the same way. `tested` is
    a vector after one of the tests that mask it. -/
inductive Build (n : Nat)
  | init (value : Bool)
  | set (v : Build n) (index : Fin n)
  | clear (v : Build n) (index : Fin n)
  | setAll (v : Build n)
  | clearAll (v : Build n)
  | applyNot (v : Build n)
  | applyOr (v vec : Build n)
  | applyAnd (v vec : Build n)
  | applyReset (v vec : Build n)
  | makeNot (v : Build n)
  | makeOr (v vec : Build n)
  | makeAnd (v vec : Build n)
  | makeReset (v vec : Build n)
  | tested (v : Build n)

namespace Build

def vector : Build n → BitVector n
  | init value => make n value
  | set v index => v.vector.set index
  | clear v index => v.vector.clear index
  | setAll v => v.vector.setAll
  | clearAll v => v.vector.clearAll
  | applyNot v => v.vector.applyNot
  | applyOr v vec => v.vector.applyOr vec.vector
  | applyAnd v vec => v.vector.applyAnd vec.vector
  | applyReset v vec => v.vector.applyReset vec.vector
  | makeNot v => v.vector.makeNot
  | makeOr v vec => v.vector.makeOr vec.vector
  | makeAnd v vec => v.vector.makeAnd vec.vector
  | makeReset v vec => v.vector.makeReset vec.vector
  | tested v => v.vector.mask

def elems : Build n → Fin n → Bool
  | init value => fun _ => value
  | set v index => Function.update v.elems index true
  | clear v index => Function.update v.elems index false
  | setAll _ => fun _ => true
  | clearAll _ => fun _ => false
  | applyNot v | makeNot v => fun i => !v.elems i
  | applyOr v vec | makeOr v vec => fun i => v.elems i || vec.elems i
  | applyAnd v vec | makeAnd v vec => fun i => v.elems i && vec.elems i
  | applyReset v vec | makeReset v vec => fun i => v.elems i && !vec.elems i
  | tested v => v.elems

/-- The value of the bits beyond the size. -/
def pad : Build n → Bool
  | init value => value
  | set v _ | clear v _ => v.pad
  | setAll _ | clearAll _ | applyReset _ _ | tested _ => false
  | applyNot v | makeNot v => !v.pad
  | applyOr v vec | makeOr v vec => v.pad || vec.pad
  | applyAnd v vec | makeAnd v vec => v.pad && vec.pad
  | makeReset v vec => v.pad && !vec.pad

theorem holds (b : Build n) : Holds b.vector b.elems b.pad := by
  have or_bit (byte other : BitVec 8) (j : Nat) (_ : j < 8) :
      (byte ||| other).getLsbD j = (byte.getLsbD j || other.getLsbD j) := BitVec.getLsbD_or
  have and_bit (byte other : BitVec 8) (j : Nat) (_ : j < 8) :
      (byte &&& other).getLsbD j = (byte.getLsbD j && other.getLsbD j) := BitVec.getLsbD_and
  have reset_bit (byte other : BitVec 8) (j : Nat) (low : j < 8) :
      (byte &&& ~~~other).getLsbD j = (byte.getLsbD j && !other.getLsbD j) := by
    rw [BitVec.getLsbD_and,not_bit other j low]
  induction b with
  | init value => exact holds_make value
  | set v index before => exact before.set index
  | clear v index before => exact before.clear index
  | setAll v before =>
    refine Holds.mask (before.each (g := fun _ => true) fun byte j low => ?_)
    have whole : (0xff : BitVec 8) = BitVec.allOnes 8 := by decide
    rw [whole,BitVec.getLsbD_allOnes,decide_eq_true low]
  | clearAll v before => exact before.each (g := fun _ => false) fun byte j _ => BitVec.getLsbD_zero
  | applyNot v before | makeNot v before => exact before.each not_bit
  | applyOr v vec before before' | makeOr v vec before before' => exact before.both before' or_bit
  | applyAnd v vec before before' | makeAnd v vec before before' => exact before.both before' and_bit
  | applyReset v vec before before' => exact (before.both (g := fun a b => a && !b) before' reset_bit).mask
  | makeReset v vec before before' => exact before.both (g := fun a b => a && !b) before' reset_bit
  | tested v before => exact before.mask

theorem each_answer (v vec : Build n) :
    v.vector.isEmpty = decide (∀ i, v.elems i = false) ∧
    (v.vector.equals vec.vector = decide (v.elems = vec.elems) ↔ (v.elems = vec.elems → Trimmed n vec.pad)) ∧
    (v.vector.includes vec.vector = decide (∀ i, vec.elems i = true → v.elems i = true) ↔
      ((∀ i, vec.elems i = true → v.elems i = true) → Trimmed n vec.pad)) ∧
    (v.vector.includesStrictly vec.vector = decide ((∀ i, vec.elems i = true → v.elems i = true) ∧ v.elems ≠ vec.elems) ↔
      ((∀ i, vec.elems i = true → v.elems i = true) ∧ v.elems ≠ vec.elems → Trimmed n vec.pad)) ∧
    (v.vector.countOnes = (List.finRange n).countP v.elems ↔ Trimmed n v.pad) ∧
    (v.vector.countZeroes = (List.finRange n).countP (fun i => !v.elems i) ↔ ∀ i, v.elems i = true) := by
  have answer {p q : Prop} [Decidable p] {b : Bool} (iff : b = true ↔ p ∧ q) : b = decide p ↔ (p → q) := by
    rw [Bool.eq_iff_iff,iff,decide_eq_true_iff,and_iff_left_iff_imp]
  refine ⟨v.holds.isEmpty_eq,answer (v.holds.equals_iff vec.holds),answer (v.holds.includes_iff vec.holds),
    answer (v.holds.includesStrictly_iff vec.holds),?_,?_⟩
  · have short : bytes n * 8 - n = 0 ↔ n % 8 = 0 := by rw [bytes]; omega
    rw [v.holds.countOnes_eq,Trimmed]
    cases v.pad with
    | false => simp
    | true => simp; omega
  · rw [countZeroes_eq,eq_comm,Nat.cast_eq_zero,List.countP_eq_zero]
    simp [List.mem_finRange]

structure Answers (v vec : Build n) : Prop where
  isEmpty : v.vector.isEmpty = decide (∀ i, v.elems i = false)
  equals : v.vector.equals vec.vector = decide (v.elems = vec.elems)
  includes : v.vector.includes vec.vector = decide (∀ i, vec.elems i = true → v.elems i = true)
  includesStrictly : v.vector.includesStrictly vec.vector =
    decide ((∀ i, vec.elems i = true → v.elems i = true) ∧ v.elems ≠ vec.elems)
  countOnes : v.vector.countOnes = (List.finRange n).countP v.elems
  countZeroes : v.vector.countZeroes = (List.finRange n).countP (fun i => !v.elems i)

/-- All the answers are right for a full vector only, with nothing beyond its size nor
    beyond that of the operand. -/
theorem answers_set_iff (v vec : Build n) :
    Answers v vec ↔ (∀ i, v.elems i = true) ∧ Trimmed n v.pad ∧ Trimmed n vec.pad := by
  obtain ⟨empty,equals,includes,strictly,ones,zeroes⟩ := each_answer v vec
  constructor
  · intro answers
    have whole := zeroes.mp answers.countZeroes
    exact ⟨whole,ones.mp answers.countOnes,includes.mp answers.includes fun i _ => whole i⟩
  · rintro ⟨whole,trimmed,trimmed'⟩
    exact ⟨empty,equals.mpr fun _ => trimmed',includes.mpr fun _ => trimmed',strictly.mpr fun _ => trimmed',
      ones.mpr trimmed,zeroes.mpr whole⟩

/-- Two full vectors of four bits differ: the bits beyond are set as well. -/
theorem full_differ : ¬ ∀ (n : Nat) (v vec : Build n), 0 < n → Answers v vec := by
  intro right
  have equal := (right 4 (init true) (init true) (by omega)).equals
  have differ : (init true : Build 4).vector.equals (init true : Build 4).vector = false := by decide
  rw [differ,decide_eq_true rfl] at equal
  cases equal

end Build

end BitVector
end Otawa
