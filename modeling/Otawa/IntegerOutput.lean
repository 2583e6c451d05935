import Mathlib.Data.Nat.Digits.Lemmas
import Mathlib.Data.BitVec

/-!
The integers that `elm::io::Output` prints: the digits are put one before the other in a
buffer of a fixed size, from its end on, then the sign. A formatted integer is padded to
its width.
-/
namespace Otawa.Io

/-- The bytes before the pointer in the buffer, and the text from the pointer on. -/
structure Buffer where
  room : Nat
  text : List UInt8

/-- `*--p = c`, none before the start of the buffer. -/
def Buffer.put (p : Buffer) (c : UInt8) : Option Buffer :=
  match p.room with
  | 0 => none
  | room + 1 => some ⟨room,c :: p.text⟩

def digitChar (enc : UInt8) (digit : Nat) : UInt8 :=
  if digit < 10 then 48 + UInt8.ofNat digit else enc + UInt8.ofNat digit - 10

/-- The loop of `horner`, for some turns. -/
def hornerLoop (base : Nat) (enc : UInt8) : Nat → Nat → Buffer → Option Buffer
  | 0, _, _ => none
  | turns + 1, val, p =>
    if val = 0 then some p
    else (p.put (digitChar enc (val % base))).bind (hornerLoop base enc turns (val / base))

/-- `horner`; a value of 64 bits has 64 digits at most. -/
def horner (p : Buffer) (val : BitVec 64) (base : Nat) (enc : UInt8) : Option Buffer :=
  if val = 0 then p.put 48 else hornerLoop base enc 65 val.toNat p

/-- `print` of a signed integer, with a buffer of some bytes. -/
def printSigned {w : Nat} (size : Nat) (value : BitVec w) : Option (List UInt8) :=
  let neg := value.slt 0#w
  let uval := if neg then -value else value
  (horner ⟨size,[]⟩ (uval.setWidth 64) 10 97).bind fun p =>
  (if neg then p.put 45 else some p).map Buffer.text

/-- `print` of an unsigned integer, with a buffer of some bytes. -/
def printUnsigned {w : Nat} (size : Nat) (value : BitVec w) : Option (List UInt8) :=
  (horner ⟨size,[]⟩ (value.setWidth 64) 10 97).map Buffer.text

def printInt32 (value : BitVec 32) : Option (List UInt8) := printSigned 16 value
def printInt64 (value : BitVec 64) : Option (List UInt8) := printSigned 64 value
def printUInt32 (value : BitVec 32) : Option (List UInt8) := printUnsigned 16 value
def printUInt64 (value : BitVec 64) : Option (List UInt8) := printUnsigned 32 value

/-! ### Numerals -/

def numeral (base : Nat) (enc : UInt8) (n : Nat) : List UInt8 :=
  if n = 0 then [48] else ((Nat.digits base n).map (digitChar enc)).reverse

section
variable {base n k room turns : Nat} {enc : UInt8} {text : List UInt8}

theorem length_numeral_le (large : 1 < base) (some_ : 0 < k) : (numeral base enc n).length ≤ k ↔ n < base ^ k := by
  unfold numeral
  split
  · next null =>
    subst null
    simp only [List.length_singleton]
    exact ⟨fun _ => Nat.pow_pos (by omega),fun _ => some_⟩
  · rw [List.length_reverse,List.length_map]
    exact Nat.digits_length_le_iff large n

theorem hornerLoop_eq (large : 1 < base) (enough : n < 2 ^ turns) :
    hornerLoop base enc (turns + 1) n ⟨room,text⟩ =
      if (Nat.digits base n).length ≤ room then
        some ⟨room - (Nat.digits base n).length,((Nat.digits base n).map (digitChar enc)).reverse ++ text⟩
      else none := by
  induction turns generalizing n room text with
  | zero =>
    obtain rfl : n = 0 := by omega
    simp [hornerLoop]
  | succ turns ih =>
    unfold hornerLoop
    by_cases null : n = 0
    · subst null
      simp
    · have less : n / base < 2 ^ turns := by
        rw [Nat.pow_succ] at enough
        have half : n / base ≤ n / 2 := Nat.div_le_div_left large (by omega)
        omega
      rw [if_neg null,Nat.digits_eq_cons_digits_div large null]
      cases room with
      | zero => simp [Buffer.put]
      | succ room =>
        simp only [Buffer.put,Option.bind_some,ih less,List.length_cons,Nat.add_le_add_iff_right,Nat.add_sub_add_right,
          List.map_cons,List.reverse_cons,List.append_assoc,List.singleton_append]

theorem horner_eq (large : 1 < base) (val : BitVec 64) : horner ⟨room,[]⟩ val base enc =
    if (numeral base enc val.toNat).length ≤ room then
      some ⟨room - (numeral base enc val.toNat).length,numeral base enc val.toNat⟩
    else none := by
  unfold horner numeral
  by_cases null : val = 0
  · subst null
    cases room <;> simp [Buffer.put]
  · have value : val.toNat ≠ 0 := fun same => null (BitVec.eq_of_toNat_eq (by simpa using same))
    rw [if_neg null,if_neg value,hornerLoop_eq large val.isLt,List.length_reverse,List.length_map,List.append_nil]

theorem put_eq (room : Nat) (c : UInt8) (text : List UInt8) :
    Buffer.put ⟨room,text⟩ c = if 0 < room then some ⟨room - 1,c :: text⟩ else none := by
  cases room <;> simp [Buffer.put]

end

def signed (base : Nat) (enc : UInt8) (n : Int) : List UInt8 :=
  if n < 0 then 45 :: numeral base enc n.natAbs else numeral base enc n.natAbs

section
variable {w size : Nat}

theorem slt_zero_iff {w : Nat} (value : BitVec w) : value.slt 0#w = true ↔ value.toInt < 0 := by
  simp [BitVec.slt]

theorem toNat_neg_of_lt {w : Nat} {value : BitVec w} (negative : value.toInt < 0) : (-value).toNat = value.toInt.natAbs := by
  have bound := value.isLt
  rw [BitVec.toInt_eq_toNat_cond] at negative ⊢
  split at negative
  · omega
  · next high =>
    rw [if_neg high,BitVec.toNat_neg]
    have positive : 0 < value.toNat := by
      have : 0 < 2 ^ w := Nat.two_pow_pos w
      omega
    rw [Nat.mod_eq_of_lt (by omega)]
    omega

theorem toNat_of_nonneg {w : Nat} {value : BitVec w} (positive : ¬value.toInt < 0) : value.toNat = value.toInt.natAbs := by
  rw [BitVec.toInt_eq_toNat_cond] at positive ⊢
  split
  · rfl
  · next high =>
    rw [if_neg high] at positive
    have bound := value.isLt
    omega

theorem printUnsigned_eq (small : w ≤ 64) (fits : 2 ^ w ≤ 10 ^ size) (some_ : 0 < size) (value : BitVec w) :
    printUnsigned size value = some (numeral 10 97 value.toNat) := by
  have same : (value.setWidth 64).toNat = value.toNat := by
    rw [BitVec.toNat_setWidth]
    exact Nat.mod_eq_of_lt (Nat.lt_of_lt_of_le value.isLt (Nat.pow_le_pow_right (by decide) small))
  have room : (numeral 10 97 value.toNat).length ≤ size :=
    (length_numeral_le (by decide) some_).mpr (Nat.lt_of_lt_of_le value.isLt fits)
  rw [printUnsigned,horner_eq (by decide),same,if_pos room]
  rfl

theorem printSigned_eq (small : w ≤ 64) (fits : 2 ^ w ≤ 10 ^ size) (some_ : 0 < size) (value : BitVec w) :
    printSigned (size + 1) value = some (signed 10 97 value.toInt) := by
  have widen (v : BitVec w) : (v.setWidth 64).toNat = v.toNat := by
    rw [BitVec.toNat_setWidth]
    exact Nat.mod_eq_of_lt (Nat.lt_of_lt_of_le v.isLt (Nat.pow_le_pow_right (by decide) small))
  have magnitude : ((if value.slt 0#w then -value else value).setWidth 64).toNat = value.toInt.natAbs := by
    rw [widen]
    by_cases negative : value.toInt < 0
    · rw [if_pos ((slt_zero_iff value).mpr negative),toNat_neg_of_lt negative]
    · rw [if_neg (fun less => negative ((slt_zero_iff value).mp less)),toNat_of_nonneg negative]
  have bound : value.toInt.natAbs < 2 ^ w := by
    rw [← magnitude,widen]
    exact BitVec.isLt _
  have room : (numeral 10 97 value.toInt.natAbs).length ≤ size :=
    (length_numeral_le (by decide) some_).mpr (Nat.lt_of_lt_of_le bound fits)
  unfold printSigned
  dsimp only
  rw [horner_eq (by decide),magnitude,if_pos (Nat.le_succ_of_le room),Option.bind_some,signed]
  simp only [slt_zero_iff]
  split
  · rw [put_eq,if_pos (by omega)]
    rfl
  · rfl

end

/-! ### Formatted integers -/

/-- `alignment_t`. -/
inductive Alignment
  | none | left | center | right

/-- `IntFormat`, of a value of so many bytes. -/
structure IntFormat where
  val : BitVec 64
  base : Nat
  width : Nat
  align : Alignment
  upper : Bool
  sign : Bool
  displaySign : Bool
  pad : UInt8
  size : Nat
  sizes : size = 1 ∨ size = 2 ∨ size = 4 ∨ size = 8

/-- What is written: the digits with the sign, and the counts of pads before and after them, none if they are negative. -/
structure Printed where
  lpad : Int
  text : List UInt8
  rpad : Int

namespace IntFormat

def init (val : BitVec 64) (sign : Bool) (size : Nat) (sizes : size = 1 ∨ size = 2 ∨ size = 4 ∨ size = 8) : IntFormat where
  val
  base := 10
  width := 0
  align := .left
  upper := false
  sign
  displaySign := false
  pad := 32
  size
  sizes

variable (fmt : IntFormat)

def bin : IntFormat := { fmt with base := 2, sign := false }
def hex : IntFormat := { fmt with base := 16, sign := false }

def enc : UInt8 := if fmt.upper then 65 else 97

def uval : BitVec 64 :=
  let uval := if fmt.sign && fmt.val.slt 0#64 then -fmt.val else fmt.val
  if !fmt.sign && fmt.size ≠ 8 then uval &&& ((1#64 <<< (fmt.size * 8)) - 1) else uval

def pads (size : Nat) : Int × Int :=
  let space : Int := fmt.width - size
  if fmt.width = 0 then (0,0)
  else match fmt.align with
    | .none | .left => (0,space)
    | .right => (space,0)
    | .center => (space.tdiv 2,space - space.tdiv 2)

/-- `print`; there are 32 bytes before the pointer. -/
def print : Option Printed :=
  (horner ⟨32,[]⟩ fmt.uval fmt.base fmt.enc).bind fun res =>
  (if fmt.sign && fmt.val.slt 0#64 then res.put 45 else some res).bind fun res =>
  (if fmt.displaySign && (0#64).slt fmt.val then res.put 43 else some res).map fun res =>
  ⟨(fmt.pads res.text.length).1,res.text,(fmt.pads res.text.length).2⟩

/-- The number to print: the field of a signed format, the low bytes of it else. -/
def value : Int := if fmt.sign then fmt.val.toInt else (fmt.val.toNat % 2 ^ (8 * fmt.size) : Nat)

/-- The number in its base, with its sign, also the positive one when it is asked. -/
def body : List UInt8 :=
  if fmt.displaySign ∧ 0 < fmt.value then 43 :: signed fmt.base fmt.enc fmt.value else signed fmt.base fmt.enc fmt.value

def written : List UInt8 :=
  if fmt.displaySign ∧ 0 < fmt.val.toInt then 43 :: signed fmt.base fmt.enc fmt.value else signed fmt.base fmt.enc fmt.value

/-- The text with its pads has the width, or its own length if it is longer, and the pads are on the side of the alignment. -/
structure Padded (p : Printed) : Prop where
  width : p.lpad.toNat + p.text.length + p.rpad.toNat = max fmt.width p.text.length
  left : fmt.align = .none ∨ fmt.align = .left → p.lpad.toNat = 0
  right : fmt.align = .right → p.rpad.toNat = 0
  center : fmt.align = .center → p.lpad.toNat ≤ p.rpad.toNat ∧ p.rpad.toNat ≤ p.lpad.toNat + 1

/-- Nothing is written before the buffer, and what is written is the number with its sign and pads. -/
def Right : Prop := ∃ p, fmt.print = some p ∧ p.text = fmt.body ∧ fmt.Padded p

def Fits : Prop := fmt.value.natAbs < fmt.base ^ (if fmt.value < 0 ∨ fmt.displaySign ∧ 0 < fmt.value then 31 else 32)

/-- The sign of an unsigned number is read in its field. -/
def SignRead : Prop := fmt.displaySign = true → fmt.sign = false → (0 < fmt.val.toInt ↔ 0 < fmt.value)

end IntFormat

section
variable {fmt : IntFormat}

theorem and_mask {k : Nat} (v : BitVec 64) (small : k < 64) : (v &&& ((1#64 <<< k) - 1)).toNat = v.toNat % 2 ^ k := by
  have bound : 2 ^ k < 2 ^ 64 := Nat.pow_lt_pow_right (by decide) small
  have mask : ((1#64 <<< k) - 1).toNat = 2 ^ k - 1 := by
    have positive := Nat.two_pow_pos k
    have one : (1#64 <<< k).toNat = 2 ^ k := by
      rw [BitVec.toNat_shiftLeft,BitVec.toNat_ofNat,Nat.one_mod,Nat.one_shiftLeft,Nat.mod_eq_of_lt bound]
    rw [BitVec.toNat_sub,one]
    simp only [BitVec.ofNat_eq_ofNat,BitVec.toNat_ofNat]
    omega
  rw [BitVec.toNat_and,mask,Nat.and_two_pow_sub_one_eq_mod]

theorem zero_slt_iff (v : BitVec 64) : (0#64).slt v = true ↔ 0 < v.toInt := by
  simp [BitVec.slt]

theorem toNat_uval : fmt.uval.toNat = fmt.value.natAbs := by
  unfold IntFormat.uval IntFormat.value
  cases sign : fmt.sign with
  | true =>
    by_cases negative : fmt.val.toInt < 0
    · simp [(slt_zero_iff fmt.val).mpr negative,toNat_neg_of_lt negative]
    · have positive : fmt.val.slt 0#64 = false := by rw [← Bool.not_eq_true,slt_zero_iff]; exact negative
      simp [positive,toNat_of_nonneg negative]
  | false =>
    by_cases whole : fmt.size = 8
    · have bound := fmt.val.isLt
      simp only [Bool.false_and,whole,ne_eq,not_true,decide_false,Bool.and_false,if_false,Bool.false_eq_true]
      rw [Int.natAbs_natCast]
      exact (Nat.mod_eq_of_lt bound).symm
    · have small : fmt.size * 8 < 64 := by
        rcases fmt.sizes with size | size | size | size
        · omega
        · omega
        · omega
        · exact absurd size whole
      have masked := and_mask fmt.val small
      rw [Nat.mul_comm] at masked ⊢
      simp only [Bool.false_and,Bool.not_false,Bool.true_and,whole,ne_eq,not_false_eq_true,decide_true,if_true,if_false,
        Bool.false_eq_true]
      rw [Int.natAbs_natCast,Nat.mul_comm 8]
      rw [Nat.mul_comm] at masked
      exact masked

theorem negative_iff : (fmt.sign && fmt.val.slt 0#64) = true ↔ fmt.value < 0 := by
  unfold IntFormat.value
  rw [Bool.and_eq_true,slt_zero_iff]
  cases fmt.sign with
  | true => simp
  | false => simp only [Bool.false_eq_true,false_and,if_false,false_iff]; omega

theorem padded_pads (fmt : IntFormat) (text : List UInt8) :
    fmt.Padded ⟨(fmt.pads text.length).1,text,(fmt.pads text.length).2⟩ := by
  unfold IntFormat.pads
  by_cases none : fmt.width = 0
  · simp only [if_pos none]
    exact ⟨by simp [none],fun _ => rfl,fun _ => rfl,fun _ => ⟨Nat.le_refl _,Nat.zero_le _⟩⟩
  · simp only [if_neg none]
    have half : ((fmt.width : Int) - text.length).tdiv 2 = ((fmt.width : Int) - text.length) / 2 +
        if 0 ≤ (fmt.width : Int) - text.length ∨ 2 ∣ (fmt.width : Int) - text.length then 0 else 1 := Int.tdiv_eq_ediv
    cases align : fmt.align with
    | none | left =>
      refine ⟨?_,fun _ => rfl,?_,?_⟩
      · dsimp only
        omega
      · simp [align]
      · simp [align]
    | right =>
      refine ⟨?_,?_,fun _ => rfl,?_⟩
      · dsimp only
        omega
      · simp [align]
      · simp [align]
    | center =>
      refine ⟨?_,?_,?_,fun _ => ?_⟩
      · dsimp only
        omega
      · simp [align]
      · simp [align]
      · dsimp only
        omega

theorem print_eq (large : 2 ≤ fmt.base) : fmt.print =
    if fmt.written.length ≤ 32 then some ⟨(fmt.pads fmt.written.length).1,fmt.written,(fmt.pads fmt.written.length).2⟩ else none := by
  have signs : fmt.value < 0 → ¬0 < fmt.val.toInt := by
    intro negative
    have both := negative_iff.mpr negative
    rw [Bool.and_eq_true,slt_zero_iff] at both
    omega
  have plus : (fmt.displaySign && (0#64).slt fmt.val) = true ↔ fmt.displaySign = true ∧ 0 < fmt.val.toInt := by
    rw [Bool.and_eq_true,zero_slt_iff]
  unfold IntFormat.print IntFormat.written signed
  simp only [negative_iff,plus]
  rw [horner_eq large,toNat_uval]
  generalize numeral fmt.base fmt.enc fmt.value.natAbs = digits
  by_cases room : digits.length ≤ 32
  · rw [if_pos room,Option.bind_some]
    by_cases negative : fmt.value < 0
    · have alone : ¬(fmt.displaySign = true ∧ 0 < fmt.val.toInt) := fun both => signs negative both.2
      simp only [if_pos negative,if_neg alone,put_eq,List.length_cons]
      by_cases left : digits.length < 32
      · rw [if_pos (by omega),if_pos (by omega)]
        rfl
      · rw [if_neg (by omega),if_neg (by omega)]
        rfl
    · simp only [if_neg negative,Option.bind_some]
      by_cases shown : fmt.displaySign = true ∧ 0 < fmt.val.toInt
      · simp only [if_pos shown,put_eq,List.length_cons]
        by_cases left : digits.length < 32
        · rw [if_pos (by omega),if_pos (by omega)]
          rfl
        · rw [if_neg (by omega),if_neg (by omega)]
          rfl
      · simp only [if_neg shown,if_pos room]
        rfl
  · rw [if_neg room,Option.bind_none,if_neg]
    split
    · split
      · simp only [List.length_cons]
        omega
      · rw [List.length_cons]
        omega
    · split
      · rw [List.length_cons]
        omega
      · exact room

theorem length_body_le (large : 2 ≤ fmt.base) : fmt.body.length ≤ 32 ↔ fmt.Fits := by
  unfold IntFormat.body IntFormat.Fits signed
  by_cases negative : fmt.value < 0
  · have alone : ¬(fmt.displaySign = true ∧ 0 < fmt.value) := by omega
    rw [if_neg alone,if_pos negative,if_pos (.inl negative),List.length_cons]
    exact Nat.succ_le_succ_iff.trans (length_numeral_le large (by decide))
  · by_cases shown : fmt.displaySign = true ∧ 0 < fmt.value
    · rw [if_pos shown,if_neg negative,if_pos (.inr shown),List.length_cons]
      exact Nat.succ_le_succ_iff.trans (length_numeral_le large (by decide))
    · rw [if_neg shown,if_neg negative,if_neg (not_or.mpr ⟨negative,shown⟩)]
      exact length_numeral_le large (by decide)

theorem signRead_iff : fmt.SignRead ↔
    (fmt.displaySign = true ∧ 0 < fmt.val.toInt ↔ fmt.displaySign = true ∧ 0 < fmt.value) := by
  unfold IntFormat.SignRead
  cases displayed : fmt.displaySign with
  | false => simp
  | true =>
    cases sign : fmt.sign with
    | true => simp [IntFormat.value,sign]
    | false => simp

/-- A formatted integer is printed in the buffer with its sign and pads exactly when it has few digits and its field has its sign. -/
theorem print_right_iff (fmt : IntFormat) (large : 2 ≤ fmt.base) : fmt.Right ↔ fmt.Fits ∧ fmt.SignRead := by
  rw [signRead_iff,← length_body_le large]
  unfold IntFormat.Right
  rw [print_eq large]
  constructor
  · rintro ⟨p,printed,text,-⟩
    split at printed
    · next room =>
      obtain rfl := Option.some.inj printed
      have same : fmt.written.length = fmt.body.length := congrArg List.length text
      refine ⟨same ▸ room,?_⟩
      unfold IntFormat.written IntFormat.body at same
      by_cases shown : fmt.displaySign = true ∧ 0 < fmt.val.toInt
      · refine ⟨fun _ => ?_,fun _ => shown⟩
        by_contra other
        rw [if_pos shown,if_neg other,List.length_cons] at same
        omega
      · refine ⟨fun both => absurd both shown,fun both => ?_⟩
        rw [if_neg shown,if_pos both,List.length_cons] at same
        omega
    · cases printed
  · rintro ⟨room,same⟩
    have text : fmt.written = fmt.body := if_congr same rfl rfl
    rw [text]
    exact ⟨_,if_pos room,rfl,padded_pads fmt fmt.body⟩

/-- The hexadecimal digits of 666. -/
theorem print_right_iff_hex : (IntFormat.init 666 true 4 (by decide)).hex.Right := by
  refine (print_right_iff _ (by decide)).mpr ⟨?_,?_⟩
  · show (666 : Nat) < 16 ^ 32
    decide
  · intro displayed
    cases displayed

/-- The binary digits of 2^32 on 64 bits are written from before the buffer on. -/
theorem print_before_buffer : ¬(IntFormat.init 4294967296 true 8 (by decide)).bin.Right := by
  rintro ⟨p,printed,-⟩
  have out : (IntFormat.init 4294967296 true 8 (by decide)).bin.print.isNone = true := by decide
  rw [printed] at out
  cases out

end

end Otawa.Io
