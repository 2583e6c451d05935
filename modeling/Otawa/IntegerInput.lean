import Otawa.IntegerOutput

/-!
The integers that `elm::io::Input` scans, with one character that can be pushed back. The
overflow of the digits is noticed in 32 bits when the value becomes smaller, and not at
all in 64 bits; a signed integer is the unsigned one after its sign.
-/
namespace Otawa.Io

/-- `IOException`, and the failure of an assertion. -/
inductive Failure
  | assertion (text : String)
  | ioException (message : String)

/-- `Input`: the character that was pushed back, or -1, and what is left of the stream. -/
structure Input where
  buf : Int
  stream : List UInt8

/-- `get`; the pushed character goes through a `char`. -/
def Input.get (s : Input) : Int × Input :=
  if 0 ≤ s.buf then ((BitVec.ofInt 8 s.buf).toInt,{ s with buf := -1 })
  else match s.stream with
    | [] => (-1,s)
    | chr :: rest => (chr.toNat,{ s with stream := rest })

def Input.back (s : Input) (chr : Int) : Except Failure Input :=
  if s.buf < 0 then .ok { s with buf := chr } else .error (.assertion "buffer is empty")

/-- `test_base`, none for no digit. -/
def testBase (chr : UInt8) (base : Nat) : Option Nat :=
  let chr := chr.toNat
  if base < 10 then if 48 ≤ chr ∧ chr < 48 + base then some (chr - 48) else none
  else if 48 ≤ chr ∧ chr ≤ 57 then some (chr - 48)
  else if 97 ≤ chr ∧ chr < 97 + base - 10 then some (chr - 97 + 10)
  else if 65 ≤ chr ∧ chr < 65 + base - 10 then some (chr - 65 + 10)
  else none

/-- How the scan of an unsigned integer starts: it is zero, or its digits are in a base, with their first character. -/
inductive Start
  | zero (s : Input)
  | digits (base : Nat) (chr : Int) (s : Input)

def readBase (s : Input) : Except Failure Start :=
  let (chr,s) := s.get
  if chr = 48 then
    let (chr,s) := s.get
    if chr = 120 ∨ chr = 88 then
      let (chr,s) := s.get
      .ok (.digits 16 chr s)
    else if chr = 98 ∨ chr = 66 then
      let (chr,s) := s.get
      .ok (.digits 2 chr s)
    else if chr < 48 ∨ 55 < chr then (s.back chr).map .zero
    else .ok (.digits 8 chr s)
  else .ok (.digits 10 chr s)

/-- The characters from one on, none when there is no one. -/
def following (chr : Int) (s : Input) : List UInt8 := if chr < 0 then [] else UInt8.ofNat chr.toNat :: s.stream

/-- The loop of `scanULong` on the characters; nothing is pushed back, so that `get` reads the stream. -/
def uLongDigits (base : Nat) (val : BitVec 32) (one : Bool) : List UInt8 → Except Failure (BitVec 32 × Bool × Input)
  | [] => .ok (val,one,⟨-1,[]⟩)
  | chr :: rest =>
    match testBase chr base with
    | none => .ok (val,one,⟨chr.toNat,rest⟩)
    | some digit =>
      let old := val
      let val := val * BitVec.ofNat 32 base + BitVec.ofNat 32 digit
      if val < old then .error (.ioException "32-bits value too big") else uLongDigits base val true rest

def scanULong (s : Input) : Except Failure (BitVec 32 × Input) := do
  match ← readBase s with
  | .zero s => .ok (0,s)
  | .digits base chr s =>
    let (val,one,s) ← uLongDigits base 0 false (following chr s)
    if one then .ok (val,s) else .error (.ioException "not a number")

def readSign (s : Input) : Except Failure (Bool × Input) :=
  let (chr,s) := s.get
  if chr = 45 then .ok (true,s) else if chr ≠ 43 then (s.back chr).map fun s => (false,s) else .ok (false,s)

def scanLong (s : Input) : Except Failure (BitVec 32 × Input) := do
  let (neg,s) ← readSign s
  let (val,s) ← scanULong s
  if 2 ^ 31 ≤ val.toNat then .error (.ioException "32-bits value too big") else .ok (if neg then -val else val,s)

/-- The loop of `scanULLong` on the characters. -/
def uLLongDigits (base : Nat) (val : BitVec 64) : List UInt8 → BitVec 64 × Input
  | [] => (val,⟨-1,[]⟩)
  | chr :: rest =>
    match testBase chr base with
    | none => (val,⟨chr.toNat,rest⟩)
    | some digit => uLLongDigits base (val * BitVec.ofNat 64 base + BitVec.ofNat 64 digit) rest

def scanULLong (s : Input) : Except Failure (BitVec 64 × Input) := do
  match ← readBase s with
  | .zero s => .ok (0,s)
  | .digits base chr s =>
    if ((following chr s).head?.bind fun chr => testBase chr base).isNone then .error (.ioException "bad formatted integer")
    else .ok (uLLongDigits base 0 (following chr s))

def scanLLong (s : Input) : Except Failure (BitVec 64 × Input) := do
  let (neg,s) ← readSign s
  let (val,s) ← scanULLong s
  if 2 ^ 63 ≤ val.toNat then .error (.ioException "bad formatted signed 64-bits value")
  else .ok (if neg then -val else val,s)

def Input.of (text : List UInt8) : Input := ⟨-1,text⟩

inductive Prefix
  | decimal
  | octal
  | hexadecimal (upper : Bool)
  | binary (upper : Bool)

def Prefix.base : Prefix → Nat
  | decimal => 10
  | octal => 8
  | hexadecimal _ => 16
  | binary _ => 2

def Prefix.chars : Prefix → List UInt8
  | decimal => []
  | octal => [48]
  | hexadecimal upper => [48,if upper then 88 else 120]
  | binary upper => [48,if upper then 66 else 98]

/-- The digits of a number, the highest one first, with the case of the letters. -/
abbrev Digits := List (Nat × Bool)

/-- The number that the digits denote after some first ones. -/
def denoted (base n : Nat) (digits : Digits) : Nat := digits.foldl (fun n digit => n * base + digit.1) n

/-- A digit makes the number smaller in some bits. -/
def Wraps (w base n : Nat) : Digits → Prop
  | [] => False
  | digit :: rest => (n * base + digit.1) % 2 ^ w < n % 2 ^ w ∨ Wraps w base (n * base + digit.1) rest

def chars (digits : Digits) : List UInt8 := digits.map fun digit => digitChar (if digit.2 then 65 else 97) digit.1

/-- A text with digits, all in the base; a decimal number does not start with a zero, which is a prefix, but for zero itself. -/
structure Text where
  pre : Prefix
  digits : Digits
  some : digits ≠ []
  inBase : ∀ digit ∈ digits, digit.1 < pre.base
  plain : pre = .decimal → digits.head?.map Prod.fst = .some 0 → digits.length = 1

def Text.bytes (text : Text) : List UInt8 := text.pre.chars ++ chars text.digits

def Text.number (text : Text) : Nat := denoted text.pre.base 0 text.digits

def Text.Wraps (w : Nat) (text : Text) : Prop := Io.Wraps w text.pre.base 0 text.digits

def ReadBack {w : Nat} (print : BitVec w → Option (List UInt8)) (scan : Input → Except Failure (BitVec w × Input))
    (value : BitVec w) : Prop :=
  ∃ text s, print value = some text ∧ scan (.of text) = .ok (value,s)

def Reads {w : Nat} (scan : Input → Except Failure (BitVec w × Input)) (limit : Nat) (text : Text) : Prop :=
  if text.number < limit then ∃ s, scan (.of text.bytes) = .ok (BitVec.ofNat w text.number,s)
  else ∃ message, scan (.of text.bytes) = .error (.ioException message)

section
variable {base n w : Nat} {digits : Digits} {digit : Nat × Bool}

theorem le_denoted (positive : 0 < base) (n : Nat) (digits : Digits) : n ≤ denoted base n digits := by
  induction digits generalizing n with
  | nil => exact Nat.le_refl n
  | cons digit rest ih => exact Nat.le_trans (Nat.le_add_right_of_le (Nat.le_mul_of_pos_right n positive)) (ih _)

theorem not_wraps (positive : 0 < base) (fits : denoted base n digits < 2 ^ w) : ¬Wraps w base n digits := by
  induction digits generalizing n with
  | nil => exact id
  | cons digit rest ih =>
    rintro (less | later)
    · have le : n ≤ n * base + digit.1 := Nat.le_add_right_of_le (Nat.le_mul_of_pos_right n positive)
      have small : n * base + digit.1 < 2 ^ w := Nat.lt_of_le_of_lt (le_denoted positive _ rest) fits
      rw [Nat.mod_eq_of_lt small,Nat.mod_eq_of_lt (Nat.lt_of_le_of_lt le small)] at less
      omega
    · exact ih fits later

variable (pre : Prefix) (text : Text)

theorem Prefix.base_mem : pre.base ∈ [2,8,10,16] := by
  cases pre <;> simp [Prefix.base]

theorem Prefix.base_pos : 0 < pre.base := by
  cases pre <;> simp [Prefix.base]

theorem testBase_digitChar (inBase : digit.1 < pre.base) :
    testBase (digitChar (if digit.2 then 65 else 97) digit.1) pre.base = some digit.1 := by
  have all : ∀ base ∈ [2,8,10,16], ∀ d < base, ∀ upper : Bool, testBase (digitChar (if upper then 65 else 97) d) base = some d := by
    decide
  exact all _ pre.base_mem _ inBase digit.2

theorem ofNat_digit (n base d : Nat) :
    BitVec.ofNat w n * BitVec.ofNat w base + BitVec.ofNat w d = BitVec.ofNat w (n * base + d) := by
  rw [BitVec.ofNat_add,BitVec.ofNat_mul]

/-- The loop of `scanULong` throws when a digit makes the value smaller. -/
theorem uLongDigits_of_wraps (one : Bool) (inBase : ∀ digit ∈ digits, digit.1 < pre.base)
    (wraps : Wraps 32 pre.base n digits) :
    ∃ message, uLongDigits pre.base (BitVec.ofNat 32 n) one (chars digits) = .error (.ioException message) := by
  induction digits generalizing n one with
  | nil => exact wraps.elim
  | cons digit rest ih =>
    have tested := testBase_digitChar pre (inBase digit List.mem_cons_self)
    have inBase' : ∀ digit ∈ rest, digit.1 < pre.base := fun d member => inBase d (List.mem_cons_of_mem _ member)
    simp only [chars,List.map_cons,uLongDigits,tested,ofNat_digit,BitVec.lt_def,BitVec.toNat_ofNat]
    split
    · exact ⟨_,rfl⟩
    · next larger => exact ih true inBase' (wraps.resolve_left larger)

/-- The loop of `scanULong` gives the value in 32 bits when no digit makes it smaller. -/
theorem uLongDigits_of_not_wraps (one : Bool) (inBase : ∀ digit ∈ digits, digit.1 < pre.base)
    (steady : ¬Wraps 32 pre.base n digits) :
    uLongDigits pre.base (BitVec.ofNat 32 n) one (chars digits) =
      .ok (BitVec.ofNat 32 (denoted pre.base n digits),one || !digits.isEmpty,⟨-1,[]⟩) := by
  induction digits generalizing n one with
  | nil => simp [chars,uLongDigits,denoted]
  | cons digit rest ih =>
    obtain ⟨larger,steady⟩ := not_or.mp steady
    have tested := testBase_digitChar pre (inBase digit List.mem_cons_self)
    have inBase' : ∀ digit ∈ rest, digit.1 < pre.base := fun d member => inBase d (List.mem_cons_of_mem _ member)
    simp only [chars,List.map_cons,uLongDigits,tested,ofNat_digit,BitVec.lt_def,BitVec.toNat_ofNat]
    rw [if_neg larger]
    exact (ih true inBase' steady).trans (by simp [denoted])

/-- The loop of `scanULLong` gives the value in 64 bits. -/
theorem uLLongDigits_chars (inBase : ∀ digit ∈ digits, digit.1 < pre.base) :
    uLLongDigits pre.base (BitVec.ofNat 64 n) (chars digits) = (BitVec.ofNat 64 (denoted pre.base n digits),⟨-1,[]⟩) := by
  induction digits generalizing n with
  | nil => rfl
  | cons digit rest ih =>
    have tested := testBase_digitChar pre (inBase digit List.mem_cons_self)
    have inBase' : ∀ digit ∈ rest, digit.1 < pre.base := fun d member => inBase d (List.mem_cons_of_mem _ member)
    simp only [chars,List.map_cons,uLLongDigits,tested,ofNat_digit]
    exact ih inBase'

theorem get_of (c : UInt8) (rest : List UInt8) : (Input.of (c :: rest)).get = ((c.toNat : Int),Input.of rest) := rfl

theorem get_pushed (c : UInt8) (rest : List UInt8) (low : c.toNat < 128) : Input.get ⟨c.toNat,rest⟩ = (Input.of (c :: rest)).get := by
  have same : (BitVec.ofInt 8 (c.toNat : Int)).toInt = c.toNat := by
    rw [BitVec.toInt_ofInt]
    exact Int.bmod_eq_of_le (by omega) (by omega)
  rw [get_of,Input.get,if_pos (Int.natCast_nonneg _),same]
  rfl

theorem following_of (c : UInt8) (rest : List UInt8) : following c.toNat (.of rest) = c :: rest := by
  rw [following,if_neg (Int.not_lt.mpr (Int.natCast_nonneg _)),Int.toNat_natCast,UInt8.ofNat_toNat]
  rfl

theorem toNat_digitChar (enc : UInt8) {d : Nat} (small : d < 10) : (digitChar enc d).toNat = 48 + d := by
  have all : ∀ d < 10, (48 + UInt8.ofNat d).toNat = 48 + d := by decide
  rw [digitChar,if_pos small,all d small]

theorem readBase_bytes (text : Text) :
    (text.number = 0 ∧ readBase (.of text.bytes) = .ok (.zero (.of []))) ∨
      ∃ c rest, readBase (.of text.bytes) = .ok (.digits text.pre.base c.toNat (.of rest)) ∧ c :: rest = chars text.digits := by
  obtain ⟨pre,digits,some_,inBase,plain⟩ := text
  obtain ⟨digit,more,rfl⟩ := List.exists_cons_of_ne_nil some_
  have first := inBase digit List.mem_cons_self
  cases pre with
  | decimal =>
    have first : digit.1 < 10 := first
    have char := toNat_digitChar (if digit.2 then 65 else 97) first
    by_cases null : digit.1 = 0
    · obtain rfl : more = [] := by
        have one := plain rfl (by simp [null])
        simpa using one
      refine .inl ⟨by simp [Text.number,denoted,null],?_⟩
      simp only [Text.bytes,Prefix.chars,List.nil_append,chars,List.map_cons,readBase,get_of,null]
      rfl
    · refine .inr ⟨_,_,?_,rfl⟩
      have other : ¬((48 + digit.1 : Nat) : Int) = 48 := by omega
      simp only [Text.bytes,Prefix.chars,List.nil_append,chars,List.map_cons,readBase,get_of,char]
      rw [if_neg other]
      rfl
  | octal =>
    have first : digit.1 < 8 := first
    have char := toNat_digitChar (if digit.2 then 65 else 97) (by omega : digit.1 < 10)
    refine .inr ⟨_,_,?_,rfl⟩
    have notX : ¬(((48 + digit.1 : Nat) : Int) = 120 ∨ ((48 + digit.1 : Nat) : Int) = 88) := by omega
    have notB : ¬(((48 + digit.1 : Nat) : Int) = 98 ∨ ((48 + digit.1 : Nat) : Int) = 66) := by omega
    have inside : ¬(((48 + digit.1 : Nat) : Int) < 48 ∨ 55 < ((48 + digit.1 : Nat) : Int)) := by omega
    simp only [Text.bytes,Prefix.chars,List.singleton_append,chars,List.map_cons,readBase,get_of,char]
    rw [if_pos (by decide),if_neg notX,if_neg notB,if_neg inside]
    rfl
  | hexadecimal upper | binary upper =>
    refine .inr ⟨_,_,?_,rfl⟩
    cases upper <;> rfl

theorem scanULong_of_digits {s s' : Input} {chr : Int} (start : readBase s = .ok (.digits base chr s')) :
    scanULong s = (uLongDigits base (BitVec.ofNat 32 0) false (following chr s')).bind fun r =>
      if r.2.1 then .ok (r.1,r.2.2) else .error (.ioException "not a number") := by
  rw [scanULong,start]
  rfl

/-- `scanULong` throws when a digit makes the value smaller, and else gives the value in 32 bits. -/
theorem scanULong_bytes :
    (text.Wraps 32 → ∃ message, scanULong (.of text.bytes) = .error (.ioException message)) ∧
      (¬text.Wraps 32 → ∃ s, scanULong (.of text.bytes) = .ok (BitVec.ofNat 32 text.number,s)) := by
  rcases readBase_bytes text with ⟨null,start⟩ | ⟨c,rest,start,split⟩
  · have small : text.number < 2 ^ 32 := by omega
    refine ⟨fun wraps => absurd wraps (not_wraps text.pre.base_pos small),fun _ => ⟨.of [],?_⟩⟩
    rw [scanULong,start,null]
    rfl
  · rw [scanULong_of_digits start,following_of,split]
    refine ⟨fun wraps => ?_,fun steady => ⟨⟨-1,[]⟩,?_⟩⟩
    · obtain ⟨message,threw⟩ := uLongDigits_of_wraps text.pre false text.inBase wraps
      rw [threw]
      exact ⟨message,rfl⟩
    · have one : text.digits.isEmpty = false := by simpa using text.some
      rw [uLongDigits_of_not_wraps text.pre false text.inBase steady,one]
      rfl

/-- `scanULLong` gives the value in 64 bits. -/
theorem scanULLong_bytes : ∃ s, scanULLong (.of text.bytes) = .ok (BitVec.ofNat 64 text.number,s) := by
  rcases readBase_bytes text with ⟨null,start⟩ | ⟨c,rest,start,split⟩
  · refine ⟨.of [],?_⟩
    rw [scanULLong,start,null]
    rfl
  · obtain ⟨digit,more,cons⟩ := List.exists_cons_of_ne_nil text.some
    have tested := testBase_digitChar text.pre (text.inBase digit (cons ▸ List.mem_cons_self))
    have first : (chars text.digits).head?.bind (fun chr => testBase chr text.pre.base) = some digit.1 := by
      rw [cons]
      exact tested
    refine ⟨⟨-1,[]⟩,?_⟩
    rw [scanULLong,start]
    change (if ((following c.toNat (.of rest)).head?.bind fun chr => testBase chr text.pre.base).isNone then _
      else Except.ok (uLLongDigits text.pre.base (BitVec.ofNat 64 0) (following c.toNat (.of rest)))) = _
    rw [following_of,split,first,uLLongDigits_chars text.pre text.inBase]
    rfl

theorem bytes_cons : ∃ c rest, text.bytes = c :: rest ∧ 48 ≤ c.toNat ∧ c.toNat ≤ 57 := by
  obtain ⟨pre,digits,some_,inBase,plain⟩ := text
  obtain ⟨digit,more,rfl⟩ := List.exists_cons_of_ne_nil some_
  cases pre with
  | decimal =>
    have first : digit.1 < 10 := inBase digit List.mem_cons_self
    have char := toNat_digitChar (if digit.2 then 65 else 97) first
    exact ⟨_,_,rfl,by dsimp only; omega,by dsimp only; omega⟩
  | octal => exact ⟨_,_,rfl,by decide,by decide⟩
  | hexadecimal upper | binary upper => exact ⟨_,_,rfl,by decide,by decide⟩

/-- The state in which the first character was pushed back is the one of the text for the scans. -/
theorem readSign_bytes :
    ∃ s, readSign (.of text.bytes) = .ok (false,s) ∧ readBase s = readBase (.of text.bytes) := by
  obtain ⟨c,rest,split,low,high⟩ := bytes_cons text
  have minus : ¬(c.toNat : Int) = 45 := by omega
  have plus : (c.toNat : Int) ≠ 43 := by omega
  refine ⟨⟨c.toNat,rest⟩,?_,?_⟩
  · rw [split,readSign,get_of]
    dsimp only
    rw [if_neg minus,if_pos plus]
    rfl
  · rw [split,readBase,readBase,get_pushed c rest (by omega)]

theorem scanULong_congr {s s' : Input} (same : readBase s = readBase s') : scanULong s = scanULong s' := by
  rw [scanULong,scanULong,same]

theorem scanULLong_congr {s s' : Input} (same : readBase s = readBase s') : scanULLong s = scanULLong s' := by
  rw [scanULLong,scanULLong,same]

def finish {w : Nat} (message : String) (neg : Bool) (r : BitVec w × Input) : Except Failure (BitVec w × Input) :=
  if 2 ^ (w - 1) ≤ r.1.toNat then .error (.ioException message) else .ok (if neg then -r.1 else r.1,r.2)

theorem scanLong_bytes :
    scanLong (.of text.bytes) = (scanULong (.of text.bytes)).bind (finish "32-bits value too big" false) := by
  obtain ⟨s,read,same⟩ := readSign_bytes text
  rw [scanLong,read,← scanULong_congr same]
  rfl

theorem scanLong_minus :
    scanLong (.of (45 :: text.bytes)) = (scanULong (.of text.bytes)).bind (finish "32-bits value too big" true) := rfl

theorem scanLLong_bytes :
    scanLLong (.of text.bytes) = (scanULLong (.of text.bytes)).bind (finish "bad formatted signed 64-bits value" false) := by
  obtain ⟨s,read,same⟩ := readSign_bytes text
  rw [scanLLong,read,← scanULLong_congr same]
  rfl

theorem scanLLong_minus : scanLLong (.of (45 :: text.bytes)) =
    (scanULLong (.of text.bytes)).bind (finish "bad formatted signed 64-bits value" true) := rfl

def Text.ofNat (n : Nat) : Text where
  pre := .decimal
  digits := if n = 0 then [(0,false)] else (Nat.digits 10 n).reverse.map fun d => (d,false)
  some := by
    split
    · exact List.cons_ne_nil _ _
    · next other => simpa using Nat.digits_ne_nil_iff_ne_zero.mpr other
  inBase := by
    intro digit member
    split at member
    · obtain rfl := List.mem_singleton.mp member
      decide
    · obtain ⟨d,inside,rfl⟩ := List.mem_map.mp member
      exact Nat.digits_lt_base (by decide : 1 < 10) (List.mem_reverse.mp inside)
  plain := by
    intro _ first
    split at first
    · next null => simp [null]
    · next other =>
      have last := Nat.getLast_digit_ne_zero 10 other
      rw [List.head?_map,List.head?_reverse,List.getLast?_eq_getLast_of_ne_nil (Nat.digits_ne_nil_iff_ne_zero.mpr other)] at first
      exact absurd (Option.some.inj first) last

theorem bytes_ofNat (n : Nat) : (Text.ofNat n).bytes = numeral 10 97 n := by
  unfold Text.ofNat Text.bytes numeral chars
  split
  · rfl
  · simp [Prefix.chars]

theorem number_ofNat (n : Nat) : (Text.ofNat n).number = n := by
  unfold Text.ofNat Text.number denoted
  dsimp only
  split
  · next null => simp [null]
  · have value := Nat.ofDigits_digits 10 n
    rw [Nat.ofDigits_eq_foldr] at value
    rw [List.foldl_map,List.foldl_reverse]
    refine Eq.trans ?_ value
    congr 1
    funext d k
    simp [Prefix.base,Nat.mul_comm,Nat.add_comm]

end

section
variable {w : Nat} {print : BitVec w → Option (List UInt8)} {scan scanU : Input → Except Failure (BitVec w × Input)}
  {message : String}

theorem readBack_unsigned (printed : ∀ v, print v = some (numeral 10 97 v.toNat))
    (scanned : ∀ text : Text, text.number < 2 ^ w → ∃ s, scan (.of text.bytes) = .ok (BitVec.ofNat w text.number,s))
    (value : BitVec w) : ReadBack print scan value := by
  obtain ⟨s,read⟩ := scanned (.ofNat value.toNat) (by rw [number_ofNat]; exact value.isLt)
  rw [bytes_ofNat,number_ofNat,BitVec.ofNat_toNat,BitVec.setWidth_eq] at read
  exact ⟨_,s,printed value,read⟩

theorem readBack_signed (wide : 0 < w) (printed : ∀ v, print v = some (signed 10 97 v.toInt))
    (scanned : ∀ text : Text, text.number < 2 ^ w → ∃ s, scanU (.of text.bytes) = .ok (BitVec.ofNat w text.number,s))
    (plus : ∀ text : Text, scan (.of text.bytes) = (scanU (.of text.bytes)).bind (finish message false))
    (minus : ∀ text : Text, scan (.of (45 :: text.bytes)) = (scanU (.of text.bytes)).bind (finish message true))
    (value : BitVec w) : ReadBack print scan value ↔ value ≠ .intMin w := by
  have double : 2 ^ w = 2 * 2 ^ (w - 1) := by
    rw [← Nat.pow_succ']
    congr 1
    omega
  have bound : value.toInt.natAbs ≤ 2 ^ (w - 1) := by
    have low := BitVec.toInt_intMin_le value
    have high := BitVec.toInt_lt (x := value)
    rw [BitVec.toInt_intMin_of_pos wide] at low
    have cast : ((2 ^ (w - 1) : Nat) : Int) = 2 ^ (w - 1) := Nat.cast_pow ..
    omega
  have fits : (Text.ofNat value.toInt.natAbs).number < 2 ^ w := by
    rw [number_ofNat]
    have := Nat.two_pow_pos (w - 1)
    omega
  obtain ⟨s,read⟩ := scanned (.ofNat value.toInt.natAbs) fits
  rw [number_ofNat] at fits read
  have back (v : BitVec w) (same : v.toNat = value.toInt.natAbs) : BitVec.ofNat w value.toInt.natAbs = v := by
    rw [← same,BitVec.ofNat_toNat,BitVec.setWidth_eq]
  have magnitude : (BitVec.ofNat w value.toInt.natAbs).toNat = value.toInt.natAbs := by
    rw [BitVec.toNat_ofNat,Nat.mod_eq_of_lt fits]
  by_cases negative : value.toInt < 0
  · have text : print value = some (45 :: (Text.ofNat value.toInt.natAbs).bytes) := by
      rw [printed,signed,if_pos negative,bytes_ofNat]
    have result := minus (.ofNat value.toInt.natAbs)
    rw [read] at result
    change _ = finish message true _ at result
    unfold finish at result
    rw [magnitude,back (-value) (toNat_neg_of_lt negative)] at result
    have least : 2 ^ (w - 1) ≤ value.toInt.natAbs ↔ value = .intMin w := by
      constructor
      · intro large
        apply BitVec.eq_of_toInt_eq
        rw [BitVec.toInt_intMin_of_pos wide]
        have cast : ((2 ^ (w - 1) : Nat) : Int) = 2 ^ (w - 1) := Nat.cast_pow ..
        omega
      · rintro rfl
        rw [BitVec.toInt_intMin_of_pos wide,Int.natAbs_neg]
        have cast : ((2 ^ (w - 1) : Nat) : Int) = 2 ^ (w - 1) := Nat.cast_pow ..
        omega
    constructor
    · rintro ⟨text',s',printed',scanned'⟩ same
      obtain rfl := Option.some.inj (text.symm.trans printed')
      rw [if_pos (least.mpr same),scanned'] at result
      cases result
    · intro other
      rw [if_neg (fun large => other (least.mp large))] at result
      refine ⟨_,s,text,result.trans ?_⟩
      rw [if_pos rfl,BitVec.neg_neg]
  · have text : print value = some (Text.ofNat value.toInt.natAbs).bytes := by
      rw [printed,signed,if_neg negative,bytes_ofNat]
    have small : ¬2 ^ (w - 1) ≤ value.toInt.natAbs := by
      have high := BitVec.toInt_lt (x := value)
      have cast : ((2 ^ (w - 1) : Nat) : Int) = 2 ^ (w - 1) := Nat.cast_pow ..
      omega
    have result := plus (.ofNat value.toInt.natAbs)
    rw [read] at result
    change _ = finish message false _ at result
    unfold finish at result
    rw [magnitude,if_neg small,back value (toNat_of_nonneg negative)] at result
    refine ⟨fun _ same => ?_,fun _ => ⟨_,s,text,result⟩⟩
    subst same
    rw [BitVec.toInt_intMin_of_pos wide] at negative
    have cast : ((2 ^ (w - 1) : Nat) : Int) = 2 ^ (w - 1) := Nat.cast_pow ..
    have := Nat.two_pow_pos (w - 1)
    omega

end

section
variable (text : Text)

theorem reads_scanULong : Reads scanULong (2 ^ 32) text ↔ text.number < 2 ^ 32 ∨ text.Wraps 32 := by
  obtain ⟨throws,reads⟩ := scanULong_bytes text
  unfold Reads
  by_cases fits : text.number < 2 ^ 32
  · rw [if_pos fits]
    exact ⟨fun _ => .inl fits,fun _ => reads (not_wraps text.pre.base_pos fits)⟩
  · rw [if_neg fits]
    refine ⟨?_,fun condition => throws (condition.resolve_left fits)⟩
    rintro ⟨message,threw⟩
    by_contra neither
    obtain ⟨s,read⟩ := reads (not_or.mp neither).2
    rw [read] at threw
    cases threw

theorem reads_scanULLong : Reads scanULLong (2 ^ 64) text ↔ text.number < 2 ^ 64 := by
  obtain ⟨s,read⟩ := scanULLong_bytes text
  unfold Reads
  by_cases fits : text.number < 2 ^ 64
  · rw [if_pos fits]
    exact ⟨fun _ => fits,fun _ => ⟨s,read⟩⟩
  · rw [if_neg fits]
    refine ⟨?_,fun condition => absurd condition fits⟩
    rintro ⟨message,threw⟩
    rw [read] at threw
    cases threw

/-- The scan of a signed number whose unsigned scan gives it in some bits. -/
theorem reads_finish {w : Nat} {message : String} {scan : Input → Except Failure (BitVec w × Input)} {s : Input}
    (read : scan (.of text.bytes) = finish message false (BitVec.ofNat w text.number,s)) :
    Reads scan (2 ^ (w - 1)) text ↔ text.number < 2 ^ (w - 1) ∨ 2 ^ (w - 1) ≤ text.number % 2 ^ w := by
  unfold Reads
  rw [finish,BitVec.toNat_ofNat] at read
  by_cases fits : text.number < 2 ^ (w - 1)
  · have less : text.number < 2 ^ w := Nat.lt_of_lt_of_le fits (Nat.pow_le_pow_right (by decide) (Nat.sub_le w 1))
    rw [if_pos fits]
    rw [Nat.mod_eq_of_lt less,if_neg (Nat.not_le.mpr fits)] at read
    exact ⟨fun _ => .inl fits,fun _ => ⟨s,read⟩⟩
  · rw [if_neg fits]
    by_cases large : 2 ^ (w - 1) ≤ text.number % 2 ^ w
    · rw [if_pos large] at read
      exact ⟨fun _ => .inr large,fun _ => ⟨message,read⟩⟩
    · rw [if_neg large] at read
      refine ⟨?_,fun condition => absurd condition (not_or.mpr ⟨fits,large⟩)⟩
      rintro ⟨other,threw⟩
      rw [read] at threw
      cases threw

theorem reads_scanLong :
    Reads scanLong (2 ^ 31) text ↔ text.number < 2 ^ 31 ∨ text.Wraps 32 ∨ 2 ^ 31 ≤ text.number % 2 ^ 32 := by
  obtain ⟨throws,reads⟩ := scanULong_bytes text
  have whole := scanLong_bytes text
  by_cases wraps : text.Wraps 32
  · obtain ⟨message,threw⟩ := throws wraps
    rw [threw] at whole
    have large : ¬text.number < 2 ^ 31 := fun small => not_wraps text.pre.base_pos (w := 32) (Nat.lt_trans small (by decide)) wraps
    unfold Reads
    rw [if_neg large]
    exact ⟨fun _ => .inr (.inl wraps),fun _ => ⟨message,whole⟩⟩
  · obtain ⟨s,read⟩ := reads wraps
    rw [read] at whole
    refine (reads_finish text whole).trans ?_
    simp [wraps]

theorem reads_scanLLong : Reads scanLLong (2 ^ 63) text ↔ text.number < 2 ^ 63 ∨ 2 ^ 63 ≤ text.number % 2 ^ 64 := by
  obtain ⟨s,read⟩ := scanULLong_bytes text
  have whole := scanLLong_bytes text
  rw [read] at whole
  exact reads_finish text whole

end

/-- The values but the least ones are read back, and the scans give the numbers of texts and throw for the ones that do not
    fit, exactly when these are noticed by a digit that makes the value smaller, or by the bit of the sign. -/
theorem scan_right_iff (value32 : BitVec 32) (value64 : BitVec 64) (text : Text) :
    (ReadBack printInt32 scanLong value32 ↔ value32 ≠ .intMin 32) ∧ ReadBack printUInt32 scanULong value32 ∧
    (ReadBack printInt64 scanLLong value64 ↔ value64 ≠ .intMin 64) ∧ ReadBack printUInt64 scanULLong value64 ∧
    (Reads scanLong (2 ^ 31) text ↔ text.number < 2 ^ 31 ∨ text.Wraps 32 ∨ 2 ^ 31 ≤ text.number % 2 ^ 32) ∧
    (Reads scanULong (2 ^ 32) text ↔ text.number < 2 ^ 32 ∨ text.Wraps 32) ∧
    (Reads scanLLong (2 ^ 63) text ↔ text.number < 2 ^ 63 ∨ 2 ^ 63 ≤ text.number % 2 ^ 64) ∧
    (Reads scanULLong (2 ^ 64) text ↔ text.number < 2 ^ 64) := by
  have scanned32 (text : Text) (fits : text.number < 2 ^ 32) :=
    (scanULong_bytes text).2 (not_wraps text.pre.base_pos fits)
  have scanned64 (text : Text) (_ : text.number < 2 ^ 64) := scanULLong_bytes text
  refine ⟨?_,?_,?_,?_,reads_scanLong text,reads_scanULong text,reads_scanLLong text,reads_scanULLong text⟩
  · exact readBack_signed (by decide) (printSigned_eq (by decide) (by decide) (by decide)) scanned32 scanLong_bytes scanLong_minus value32
  · exact readBack_unsigned (printUnsigned_eq (by decide) (by decide) (by decide)) scanned32 value32
  · exact readBack_signed (by decide) (printSigned_eq (by decide) (by decide) (by decide)) scanned64 scanLLong_bytes scanLLong_minus value64
  · exact readBack_unsigned (printUnsigned_eq (by decide) (by decide) (by decide)) scanned64 value64

def fiveBillions : Text where
  pre := .decimal
  digits := [(5,false),(0,false),(0,false),(0,false),(0,false),(0,false),(0,false),(0,false),(0,false),(0,false)]
  some := List.cons_ne_nil _ _
  inBase := by decide
  plain _ := by decide

/-- The text 5000000000 is scanned as 705032704 in 32 bits, and the least value is not read back. -/
theorem scan_too_big : ¬Reads scanULong (2 ^ 32) fiveBillions ∧ ¬ReadBack printInt32 scanLong (.intMin 32) := by
  constructor
  · intro reads
    have large : ¬fiveBillions.number < 2 ^ 32 := by decide
    rw [Reads,if_neg large] at reads
    obtain ⟨message,threw⟩ := reads
    have scanned : scanULong (.of fiveBillions.bytes) = .ok (705032704,⟨-1,[]⟩) := rfl
    rw [scanned] at threw
    cases threw
  · rintro ⟨text,s,printed,scanned⟩
    have least : printInt32 (.intMin 32) = some [45,50,49,52,55,52,56,51,54,52,56] := by decide
    obtain rfl := Option.some.inj (least.symm.trans printed)
    have threw : scanLong (.of [45,50,49,52,55,52,56,51,54,52,56]) = .error (.ioException "32-bits value too big") := rfl
    rw [threw] at scanned
    cases scanned

end Otawa.Io
