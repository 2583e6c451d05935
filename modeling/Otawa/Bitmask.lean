import Mathlib.Data.BitVec
import Mathlib.Tactic.Ring

/-!
The bit masks of the decoder generator: strings of the digits 0, 1 and X, the most
significant one first. The digits of a mask select digits of another mask or bits of a
word, and what is selected is read as a number. The generated code selects the bits of
a word in a loop over the bits of an integer (`valeurSurMaskBloc`) or over the chunks of
a buffer (`valueOnMask`); both compute the number of the selected bits.
-/
namespace Otawa.Gep

/-! ### The masks of the generator -/

inductive Digit
  | zero | one | x
  deriving DecidableEq

abbrev Bitmask := List Digit

def ones (m : Bitmask) : List Bool := m.map (· == .one)

def bitCount (m : Bitmask) : Nat := (ones m).count true

def setSameLength (m1 m2 : Bitmask) (left : Bool) : Bitmask × Bitmask :=
  let extend (m : Bitmask) (n : Nat) : Bitmask :=
    if left then List.replicate n .zero ++ m else m ++ List.replicate n .zero
  if m1.length = m2.length then (m1,m2)
  else if m1.length < m2.length then (extend m1 (m2.length - m1.length),m2)
  else (m1,extend m2 (m1.length - m2.length))

/-- `logand`; it fails on masks of different lengths and on an X. -/
def logand (m1 m2 : Bitmask) : Option Bitmask :=
  if m1.length ≠ m2.length ∨ .x ∈ m1 ∨ .x ∈ m2 then none
  else some (List.zipWith (fun c1 c2 => if c1 = .one then c2 else .zero) m1 m2)

def select {A : Type} : List Bool → List A → List A
  | true :: mask, a :: items => a :: select mask items
  | false :: mask, _ :: items => select mask items
  | _, _ => []

/-- `masked_value`, on masks of one length; it fails on a selected X. -/
def maskedValue (m mask : Bitmask) : Option Bitmask :=
  if .x ∈ select (ones mask) m then none else some (select (ones mask) m)

/-- `unmask`, on masks of one length; it fails on an X that is not removed. -/
def unmask : Bitmask → Bitmask → Option Bitmask
  | [], [] => some []
  | c :: m, b :: mask =>
    if b = .one then (unmask m mask).map (.zero :: ·)
    else if c = .x then none
    else (unmask m mask).map (c :: ·)
  | _, _ => none

/-- The number written by the bits, the most significant one first. -/
def bitsValue (bits : List Bool) : Nat := bits.foldl (fun n b => 2 * n + b.toNat) 0

/-- `to_int`: through a signed integer of 32 bits. -/
def toInt (m : Bitmask) : Option Int :=
  if m = [] ∨ 32 < m.length ∨ .x ∈ m then none
  else some (BitVec.ofNat 32 (bitsValue (ones m))).toInt

/-- `to_int32_list`: chunks of 32 digits, the last one filled on the right. -/
def toInt32List (m : Bitmask) : List (BitVec 32) :=
  if m = [] then []
  else if m.length < 32 then [BitVec.ofNat 32 (bitsValue (ones m)) <<< (32 - m.length)]
  else BitVec.ofNat 32 (bitsValue (ones (m.take 32))) :: toInt32List (m.drop 32)
  termination_by m.length
  decreasing_by simp only [List.length_drop]; omega

/-- `valeur_sur_mask_bloc`, on words of w bits. -/
def valeurSurMaskBloc {w : Nat} (instr mask : BitVec w) : BitVec 32 :=
  ((List.range w).reverse.foldl (fun (s : BitVec w × BitVec 32) i =>
    (s.1 <<< 1,
      if s.1 &&& BitVec.twoPow w (w - 1) ≠ 0 then (s.2 <<< 1) ||| ((instr >>> i) &&& 1#w).setWidth 32 else s.2))
    (mask,0)).2

/-- `mask_t`: the bits of the chunks, the most significant ones first. -/
structure Mask where
  mask : List (BitVec 32)
  bitLength : Nat

def Mask.getBitN (m : Mask) (n : Nat) : BitVec 32 :=
  if m.bitLength ≤ n then 0 else (m.mask[n / 32]?.getD 0 >>> (31 - n % 32)) &&& 1

def valueOnMask (inst mask : Mask) : BitVec 32 :=
  (List.range mask.bitLength).foldl
    (fun res i => if mask.getBitN i ≠ 0 then (res <<< 1) ||| inst.getBitN i else res) 0

theorem foldl_bits (bits : List Bool) (n : Nat) :
    bits.foldl (fun n b => 2 * n + b.toNat) n = n * 2 ^ bits.length + bitsValue bits := by
  induction bits generalizing n with
  | nil => simp [bitsValue]
  | cons b rest ih =>
    simp only [List.foldl_cons,List.length_cons,bitsValue]
    rw [ih,ih]
    ring

@[simp] theorem bitsValue_nil : bitsValue [] = 0 := rfl

theorem bitsValue_cons (b : Bool) (rest : List Bool) :
    bitsValue (b :: rest) = b.toNat * 2 ^ rest.length + bitsValue rest := by
  rw [bitsValue,List.foldl_cons,foldl_bits]
  simp

theorem bitsValue_lt (bits : List Bool) : bitsValue bits < 2 ^ bits.length := by
  induction bits with
  | nil => simp
  | cons b rest ih =>
    rw [bitsValue_cons,List.length_cons,Nat.pow_succ]
    cases b <;> simp only [Bool.toNat_true,Bool.toNat_false] <;> omega

theorem bitsValue_inj {one two : List Bool} (length : one.length = two.length) (same : bitsValue one = bitsValue two) :
    one = two := by
  induction one generalizing two with
  | nil => exact (List.eq_nil_of_length_eq_zero length.symm).symm
  | cons b rest ih =>
    cases two with
    | nil => cases length
    | cons c others =>
      have tails : rest.length = others.length := Nat.succ.inj length
      rw [bitsValue_cons,bitsValue_cons,tails] at same
      have left := bitsValue_lt rest
      have right := bitsValue_lt others
      rw [tails] at left
      have first : b = c := by
        cases b <;> cases c <;> simp only [Bool.toNat_true,Bool.toNat_false] at same ⊢ <;> omega
      subst first
      rw [ih tails (by omega)]

theorem testBit_bitsValue {bits : List Bool} {i : Nat} {b : Bool} (known : bits[i]? = some b) :
    (bitsValue bits).testBit (bits.length - 1 - i) = b := by
  induction bits generalizing i with
  | nil => cases known
  | cons c rest ih =>
    rw [bitsValue_cons]
    have low := bitsValue_lt rest
    cases i with
    | zero =>
      cases known
      simp only [List.length_cons,Nat.add_sub_cancel,Nat.sub_zero]
      cases b
      · simpa using Nat.testBit_lt_two_pow low
      · rw [Bool.toNat_true,Nat.one_mul,Nat.testBit_two_pow_add_eq,Nat.testBit_lt_two_pow low]
        rfl
    | succ i =>
      have bound : i < rest.length := Nat.lt_of_succ_lt_succ (List.getElem?_eq_some_iff.mp known).1
      have place : (c :: rest).length - 1 - (i + 1) = rest.length - 1 - i := by simp only [List.length_cons]; omega
      rw [place]
      cases c
      · simpa using ih known
      · rw [Bool.toNat_true,Nat.one_mul,Nat.testBit_two_pow_add_gt (by omega)]
        exact ih known

section
variable {A B : Type}

theorem select_map (f : A → B) (mask : List Bool) (items : List A) :
    select mask (items.map f) = (select mask items).map f := by
  fun_induction select mask items with
  | case1 mask a items ih => simp [select,ih]
  | case2 mask a items ih => simpa [select] using ih
  | case3 mask items none one => cases mask with
    | nil => simp [select]
    | cons b mask => cases items with
      | nil => cases b <;> simp [select]
      | cons a items => cases b with
        | true => exact (none mask a items rfl rfl).elim
        | false => exact (one mask a items rfl rfl).elim

theorem length_select {mask : List Bool} {items : List A} (length : mask.length ≤ items.length) :
    (select mask items).length = mask.count true := by
  induction mask generalizing items with
  | nil => simp [select]
  | cons b mask ih => cases items with
    | nil => simp at length
    | cons a items =>
      have shorter : mask.length ≤ items.length := by simpa using length
      cases b <;> simp [select,ih shorter]

theorem select_congr {mask : List Bool} {one two : List A} (first : mask.length ≤ one.length)
    (second : mask.length ≤ two.length) (same : ∀ p : Nat, mask[p]? = some true → one[p]? = two[p]?) :
    select mask one = select mask two := by
  induction mask generalizing one two with
  | nil => simp [select]
  | cons b mask ih => cases one with
    | nil => simp at first
    | cons a one => cases two with
      | nil => simp at second
      | cons c two =>
        have rest := ih (by simpa using first) (by simpa using second) fun p set => same (p + 1) set
        cases b with
        | false => exact rest
        | true =>
          have head : a = c := Option.some.inj (same 0 rfl)
          simp [select,head,rest]

end

/-! ### The loops over the bits -/

def bitWord (b : Bool) : BitVec 32 := (BitVec.ofBool b).setWidth 32

theorem getLsbD_bitWord (b : Bool) (i : Nat) : (bitWord b).getLsbD i = (decide (i = 0) && b) := by
  cases b <;> cases i <;> simp [bitWord]

theorem bitWord_ne_zero {b : Bool} : bitWord b ≠ 0 ↔ b = true := by
  cases b <;> decide

theorem push_bit (n : Nat) (b : Bool) :
    (BitVec.ofNat 32 n <<< 1) ||| bitWord b = BitVec.ofNat 32 (2 * n + b.toNat) := by
  apply BitVec.eq_of_getLsbD_eq
  intro i bound
  rw [BitVec.getLsbD_or,BitVec.getLsbD_shiftLeft,getLsbD_bitWord,BitVec.getLsbD_ofNat,BitVec.getLsbD_ofNat]
  cases i with
  | zero => cases b <;> simp [Nat.testBit_zero]
  | succ i =>
    have digit := Bool.toNat_lt b
    have half : (2 * n + b.toNat) / 2 = n := by omega
    have small : i < 32 := by omega
    simp [bound,small,Nat.testBit_succ,half]

def wordBits {w : Nat} (word : BitVec w) (j : Nat) : List Bool := (List.range j).reverse.map word.getLsbD

theorem wordBits_succ {w : Nat} (word : BitVec w) (j : Nat) :
    wordBits word (j + 1) = word.getLsbD j :: wordBits word j := by
  simp [wordBits,List.range_succ]

theorem lastBit {w : Nat} (instr : BitVec w) {i : Nat} (bound : i < w) :
    ((instr >>> i) &&& 1#w).setWidth 32 = bitWord (instr.getLsbD i) := by
  apply BitVec.eq_of_getLsbD_eq
  intro j small
  rw [getLsbD_bitWord,BitVec.getLsbD_setWidth,BitVec.getLsbD_and,BitVec.getLsbD_ushiftRight]
  cases j with
  | zero => simp [Nat.zero_lt_of_lt bound]
  | succ j => simp [BitVec.getLsbD_one]

theorem valeurSurMaskBloc_loop {w : Nat} (instr mask : BitVec w) (j n : Nat) (bound : j ≤ w) :
    ((List.range j).reverse.foldl (fun (s : BitVec w × BitVec 32) i =>
      (s.1 <<< 1,
        if s.1 &&& BitVec.twoPow w (w - 1) ≠ 0 then (s.2 <<< 1) ||| ((instr >>> i) &&& 1#w).setWidth 32 else s.2))
      (mask <<< (w - j),BitVec.ofNat 32 n)).2 =
    BitVec.ofNat 32 ((select (wordBits mask j) (wordBits instr j)).foldl (fun n b => 2 * n + b.toNat) n) := by
  induction j generalizing n with
  | zero => simp [wordBits,select]
  | succ j ih =>
    have shift : (mask <<< (w - (j + 1))) <<< 1 = mask <<< (w - j) := by
      rw [← BitVec.shiftLeft_add]
      congr 1
      omega
    have top : mask <<< (w - (j + 1)) &&& BitVec.twoPow w (w - 1) ≠ 0 ↔ mask.getLsbD j = true := by
      have place : w - 1 - (w - (j + 1)) = j := by omega
      have inside : ¬w - 1 < w - (j + 1) := by omega
      have large : w - 1 < w := by omega
      rw [BitVec.and_twoPow,BitVec.getLsbD_shiftLeft,place]
      cases mask.getLsbD j <;> simp [large,inside]
    rw [List.range_succ,List.reverse_append,List.reverse_singleton,List.singleton_append,List.foldl_cons,shift,
      wordBits_succ,wordBits_succ,lastBit instr (by omega)]
    by_cases set : mask.getLsbD j = true
    · rw [if_pos (top.mpr set),push_bit,ih _ (by omega),set]
      rfl
    · rw [if_neg (fun here => set (top.mp here)),ih _ (by omega),Bool.eq_false_iff.mpr set]
      rfl

theorem valeurSurMaskBloc_eq {w : Nat} (instr mask : BitVec w) :
    valeurSurMaskBloc instr mask = BitVec.ofNat 32 (bitsValue (select (wordBits mask w) (wordBits instr w))) := by
  have loop := valeurSurMaskBloc_loop instr mask w 0 (Nat.le_refl w)
  rw [Nat.sub_self,BitVec.shiftLeft_zero] at loop
  exact loop

theorem wordBits_ofNat {m : Bitmask} {w : Nat} (length : m.length = w) :
    wordBits (BitVec.ofNat w (bitsValue (ones m))) w = ones m := by
  have same : (ones m).length = w := by simpa [ones] using length
  apply List.ext_getElem?
  intro i
  by_cases inside : i < w
  · obtain ⟨b,known⟩ : ∃ b, (ones m)[i]? = some b := ⟨_,List.getElem?_eq_getElem (by omega)⟩
    have bit := testBit_bitsValue known
    rw [same] at bit
    rw [known,wordBits,List.getElem?_map,List.getElem?_reverse (by simpa using inside),List.length_range,
      List.getElem?_range (by omega),Option.map_some,BitVec.getLsbD_ofNat,bit]
    simp only [Option.some.injEq,Bool.and_eq_right_iff_imp,decide_eq_true_eq]
    omega
  · rw [List.getElem?_eq_none (by simp [wordBits]; omega),List.getElem?_eq_none (by omega)]

theorem valueOnMask_loop {inst mask : Mask} {positions : List Nat} {set bit : Nat → Bool}
    (masked : ∀ i ∈ positions, mask.getBitN i = bitWord (set i))
    (bits : ∀ i ∈ positions, inst.getBitN i = bitWord (bit i)) (n : Nat) :
    positions.foldl (fun (res : BitVec 32) i => if mask.getBitN i ≠ 0 then (res <<< 1) ||| inst.getBitN i else res)
      (BitVec.ofNat 32 n) =
    BitVec.ofNat 32 ((select (positions.map set) (positions.map bit)).foldl (fun n b => 2 * n + b.toNat) n) := by
  induction positions generalizing n with
  | nil => simp [select]
  | cons i rest ih =>
    have masked' := fun j member => masked j (List.mem_cons_of_mem i member)
    have bits' := fun j member => bits j (List.mem_cons_of_mem i member)
    rw [List.foldl_cons,masked i List.mem_cons_self,bits i List.mem_cons_self,List.map_cons,List.map_cons]
    by_cases here : set i = true
    · rw [if_pos (bitWord_ne_zero.mpr here),push_bit,ih masked' bits',here]
      rfl
    · rw [if_neg (fun set => here (bitWord_ne_zero.mp set)),ih masked' bits',Bool.eq_false_iff.mpr here]
      rfl

def chunkBit (chunks : List (BitVec 32)) (i : Nat) : Bool := (chunks[i / 32]?.getD 0).getLsbD (31 - i % 32)

theorem getBitN_eq {m : Mask} {i : Nat} (inside : i < m.bitLength) : m.getBitN i = bitWord (chunkBit m.mask i) := by
  rw [Mask.getBitN,if_neg (by omega)]
  have last := lastBit (m.mask[i / 32]?.getD 0) (i := 31 - i % 32) (by omega)
  rw [BitVec.setWidth_eq] at last
  exact last

theorem chunkBit_toInt32List {m : Bitmask} {i : Nat} {b : Bool} (known : (ones m)[i]? = some b) :
    chunkBit (toInt32List m) i = b := by
  fun_induction toInt32List m generalizing i with
  | case1 => cases known
  | case2 m some_ short =>
    have inside : i < m.length := by simpa [ones] using (List.getElem?_eq_some_iff.mp known).1
    have bit := testBit_bitsValue known
    have size : (ones m).length = m.length := by simp [ones]
    rw [size] at bit
    have first : i / 32 = 0 := by omega
    have place : 31 - i % 32 - (32 - m.length) = m.length - 1 - i := by omega
    simp only [chunkBit,first,List.getElem?_cons_zero,Option.getD_some,BitVec.getLsbD_shiftLeft,place,
      BitVec.getLsbD_ofNat,bit]
    have shifted : ¬31 - i % 32 < 32 - m.length := by omega
    have small : m.length - 1 - i < 32 := by omega
    have range : 31 - i % 32 < 32 := by omega
    simp [shifted,small,range]
  | case3 m some_ long ih =>
    by_cases head : i < 32
    · have here : (ones (m.take 32))[i]? = some b := by
        rw [ones,List.map_take,List.getElem?_take_of_lt head]
        exact known
      have bit := testBit_bitsValue here
      have size : (ones (m.take 32)).length = 32 := by simp [ones]; omega
      rw [size] at bit
      have first : i / 32 = 0 := by omega
      have place : 31 - i % 32 = 32 - 1 - i := by omega
      have range : 32 - 1 - i < 32 := by omega
      simp only [chunkBit,first,List.getElem?_cons_zero,Option.getD_some,place,BitVec.getLsbD_ofNat,bit,range,
        decide_true,Bool.true_and]
    · have later : (ones (m.drop 32))[i - 32]? = some b := by
        rw [ones,List.map_drop,List.getElem?_drop,Nat.add_sub_cancel' (by omega)]
        exact known
      have rest := ih later
      have index : i / 32 = (i - 32) / 32 + 1 := by omega
      have place : i % 32 = (i - 32) % 32 := by omega
      rw [chunkBit,index,place,List.getElem?_cons_succ]
      exact rest

/-- The positions set in the first mask are set in the second one. -/
def Within (mask other : Bitmask) : Prop := ∀ p : Nat, (ones mask)[p]? = some true → (ones other)[p]? = some true

@[simp] theorem length_ones (m : Bitmask) : (ones m).length = m.length := by simp [ones]

theorem getElem?_ones {m : Bitmask} {p : Nat} : (ones m)[p]? = some true ↔ m[p]? = some .one := by
  rw [ones,List.getElem?_map,Option.map_eq_some_iff]
  constructor
  · rintro ⟨d,known,one⟩
    rw [known,eq_of_beq one]
  · intro known
    exact ⟨.one,known,rfl⟩

theorem ones_inj {m other : Bitmask} (plain : .x ∉ m) (plain' : .x ∉ other) (same : ones m = ones other) :
    m = other := by
  induction m generalizing other with
  | nil => cases other with
    | nil => rfl
    | cons d other => simp [ones] at same
  | cons c m ih => cases other with
    | nil => simp [ones] at same
    | cons d other =>
      simp only [ones,List.map_cons,List.cons.injEq] at same
      have tails : m = other := ih (fun member => plain (List.mem_cons_of_mem c member))
        (fun member => plain' (List.mem_cons_of_mem d member)) same.2
      rw [tails]
      cases c with
      | x => simp at plain
      | zero => cases d with
        | x => simp at plain'
        | zero => rfl
        | one => cases same.1
      | one => cases d with
        | x => simp at plain'
        | zero => cases same.1
        | one => rfl

theorem logand_spec {m1 m2 : Bitmask} (length : m1.length = m2.length) (plain : .x ∉ m1) (plain' : .x ∉ m2) :
    ∃ m, logand m1 m2 = some m ∧ m.length = m1.length ∧ .x ∉ m ∧ Within m m1 ∧ Within m m2 := by
  refine ⟨_,if_neg (by simp [length,plain,plain']),by simp [length],?_,?_,?_⟩
  · intro member
    obtain ⟨p,known⟩ := List.mem_iff_getElem?.mp member
    obtain ⟨c,d,-,right,digit⟩ := List.getElem?_zipWith_eq_some.mp known
    split at digit
    case isTrue => exact plain' (List.mem_of_getElem? (digit ▸ right))
    case isFalse => cases digit
  · intro p set
    obtain ⟨c,d,left,-,digit⟩ := List.getElem?_zipWith_eq_some.mp (getElem?_ones.mp set)
    split at digit
    case isTrue one => exact getElem?_ones.mpr (one ▸ left)
    case isFalse => cases digit
  · intro p set
    obtain ⟨c,d,-,right,digit⟩ := List.getElem?_zipWith_eq_some.mp (getElem?_ones.mp set)
    split at digit
    case isTrue => exact getElem?_ones.mpr (digit ▸ right)
    case isFalse => cases digit

theorem unmask_spec {m mask : Bitmask} (length : m.length = mask.length) (plain : .x ∉ m) :
    ∃ rest, unmask m mask = some rest ∧ rest.length = m.length ∧ Within rest m := by
  induction m generalizing mask with
  | nil => cases mask with
    | nil => exact ⟨[],rfl,rfl,fun p set => set⟩
    | cons b mask => cases length
  | cons c m ih => cases mask with
    | nil => cases length
    | cons b mask =>
      obtain ⟨rest,done,same,inside⟩ := ih (Nat.succ.inj length) fun member => plain (List.mem_cons_of_mem c member)
      have digit : c ≠ .x := fun here => plain (here ▸ List.mem_cons_self)
      by_cases removed : b = .one
      · refine ⟨.zero :: rest,by simp [unmask,removed,done],by simp [same],fun p set => ?_⟩
        cases p with
        | zero => cases set
        | succ p => exact inside p set
      · refine ⟨c :: rest,by simp [unmask,removed,digit,done],by simp [same],fun p set => ?_⟩
        cases p with
        | zero => exact set
        | succ p => exact inside p set

theorem toInt_eq {m : Bitmask} (some_ : m ≠ []) (short : m.length ≤ 31) (plain : .x ∉ m) :
    toInt m = some (bitsValue (ones m) : Int) := by
  have small : bitsValue (ones m) < 2 ^ 31 := by
    refine Nat.lt_of_lt_of_le (bitsValue_lt _) (Nat.pow_le_pow_right (by decide) ?_)
    simpa using short
  have known : ¬(m = [] ∨ 32 < m.length ∨ .x ∈ m) := by
    rintro (empty | long | member)
    · exact some_ empty
    · omega
    · exact plain member
  rw [toInt,if_neg known,BitVec.toInt_eq_toNat_of_lt,BitVec.toNat_ofNat,Nat.mod_eq_of_lt (by omega)]
  rw [BitVec.toNat_ofNat,Nat.mod_eq_of_lt (by omega)]
  omega

end Otawa.Gep
