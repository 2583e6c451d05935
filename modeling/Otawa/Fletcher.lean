import Mathlib.Data.Nat.Bitwise
import Mathlib.Data.List.Basic

/-!
The checksum `elm::checksum::Fletcher`, fed by pieces. The half-words are read in a buffer
of two bytes, of which the second one stays when a piece ends after the first one; the
sums are folded in 16 bits after each 180 half-words, and once at the end.
-/
namespace Otawa.Checksum

structure Fletcher where
  sum1 : Nat
  sum2 : Nat
  len : Nat
  half0 : UInt8
  half1 : UInt8
  size : Nat

def halfWord (big : Bool) (half : UInt8 × UInt8) : Nat :=
  if big then 256 * half.1.toNat + half.2.toNat else half.1.toNat + 256 * half.2.toNat

namespace Fletcher

/-- The constructor, which leaves what was in `half`. -/
def create (half0 half1 : UInt8) : Fletcher := ⟨0xffff,0xffff,0,half0,half1,0⟩

def shuffle (s : Fletcher) : Fletcher :=
  { s with
    sum1 := (s.sum1 &&& 0xffff) + (s.sum1 >>> 16)
    sum2 := (s.sum2 &&& 0xffff) + (s.sum2 >>> 16)
    len := 0 }

def add (big : Bool) (s : Fletcher) : Fletcher :=
  let sum1 := (s.sum1 + halfWord big (s.half0,s.half1)) % 2 ^ 32
  let s := { s with sum1, sum2 := (s.sum2 + sum1) % 2 ^ 32, len := s.len + 2 }
  if s.len = 360 then s.shuffle else s

/-- `put` of a block: the reads stop at its end, also in a half-word, which is added as soon as it has a byte. -/
def put (big : Bool) (s : Fletcher) : List UInt8 → Fletcher
  | [] => s
  | [a] => { s with half0 := a }.add big
  | a :: b :: rest => ({ s with half0 := a, half1 := b }.add big).put big rest

/-- The value of `sum`. -/
def sum (big : Bool) (s : Fletcher) : Nat :=
  let s := if s.size = 1 then { s with half1 := 0 }.add big else s
  let s := s.shuffle
  ((s.sum2 <<< 16) ||| s.sum1) % 2 ^ 32

end Fletcher

def padded : List UInt8 → List (UInt8 × UInt8)
  | [] => []
  | [a] => [(a,0)]
  | a :: b :: rest => (a,b) :: padded rest

def sums (ab : Nat × Nat) (words : List Nat) : Nat × Nat := words.foldl (fun ab w => (ab.1 + w,ab.2 + (ab.1 + w))) ab

/-- The value from 1 to 65535 of a sum modulo 65535, as the sums start with 65535. -/
def residue (n : Nat) : Nat := if n % 65535 = 0 then 65535 else n % 65535

def fletcher32 (words : List Nat) : Nat := residue (sums (0,0) words).2 * 2 ^ 16 + residue (sums (0,0) words).1

/-- The half-words that a piece adds after a byte that stays in the buffer. -/
def halfWords (stale : UInt8) : List UInt8 → List (UInt8 × UInt8)
  | [] => []
  | [a] => [(a,stale)]
  | a :: b :: rest => (a,b) :: halfWords b rest

/-- The second byte of the buffer after a piece. -/
def staleAfter (stale : UInt8) : List UInt8 → UInt8
  | [] => stale
  | [_] => stale
  | _ :: b :: rest => staleAfter b rest

def fed (stale : UInt8) : List (List UInt8) → List (UInt8 × UInt8)
  | [] => []
  | piece :: rest => halfWords stale piece ++ fed (staleAfter stale piece) rest

def carry (n : Nat) : Nat := n % 2 ^ 16 + n / 2 ^ 16

/-- The sums of half-words, with the carries after each 180 ones, when some were added since the last carries. -/
def accumulate : Nat → Nat → Nat → List Nat → Nat × Nat
  | a, b, _, [] => (a,b)
  | a, b, k, w :: rest =>
    if k + 1 = 180 then accumulate (carry (a + w)) (carry (b + (a + w))) 0 rest
    else accumulate (a + w) (b + (a + w)) (k + 1) rest

section
variable (big : Bool) (half0 half1 : UInt8) (pieces : List (List UInt8))

/-- The sum of the pieces is the one of the whole string, and the checksum of the string. -/
def SumRight : Prop :=
  let fold := fun pieces => (pieces.foldl (fun s piece => s.put big piece) (Fletcher.create half0 half1)).sum big
  fold pieces = fold [pieces.flatten] ∧ fold pieces = fletcher32 ((padded pieces.flatten).map (halfWord big))

/-- The half-words that are added are those of the string, from the pieces as from the whole. -/
def Paired : Prop := fed half1 pieces = padded pieces.flatten ∧ fed half1 [pieces.flatten] = padded pieces.flatten

def Folds : Prop :=
  let ab := accumulate 0xffff 0xffff 0 ((padded pieces.flatten).map (halfWord big))
  carry ab.1 < 2 ^ 16 ∧ carry ab.2 < 2 ^ 16

end

def step (big : Bool) (s : Fletcher) (half : UInt8 × UInt8) : Fletcher := { s with half0 := half.1, half1 := half.2 }.add big

section
variable (big : Bool) {s : Fletcher}

theorem and_mask_eq (n : Nat) : (n &&& 0xffff) + (n >>> 16) = carry n := by
  rw [carry,Nat.shiftRight_eq_div_pow]
  exact congrArg (· + n / 2 ^ 16) (Nat.and_two_pow_sub_one_eq_mod n 16)

theorem half1_add (s : Fletcher) : (s.add big).half1 = s.half1 := by
  unfold Fletcher.add
  dsimp only
  split <;> rfl

theorem put_eq (s : Fletcher) (piece : List UInt8) :
    s.put big piece = (halfWords s.half1 piece).foldl (step big) s ∧ (s.put big piece).half1 = staleAfter s.half1 piece := by
  fun_induction Fletcher.put big s piece with
  | case1 s => exact ⟨rfl,rfl⟩
  | case2 s a => exact ⟨rfl,half1_add big _⟩
  | case3 s a b rest ih =>
    rw [half1_add] at ih
    exact ⟨ih.1,ih.2⟩

theorem foldl_put (pieces : List (List UInt8)) (s : Fletcher) :
    pieces.foldl (fun s piece => s.put big piece) s = (fed s.half1 pieces).foldl (step big) s := by
  induction pieces generalizing s with
  | nil => rfl
  | cons piece rest ih =>
    obtain ⟨put,stale⟩ := put_eq big s piece
    rw [List.foldl_cons,ih,fed,List.foldl_append,stale,put]

theorem halfWord_lt (half : UInt8 × UInt8) : halfWord big half < 2 ^ 16 := by
  have low := half.1.toNat_lt
  have high := half.2.toNat_lt
  unfold halfWord
  split <;> omega

/-- The sums do not overflow in 32 bits. -/
structure Small (s : Fletcher) (k : Nat) : Prop where
  len : s.len = 2 * k
  few : k < 180
  sum1 : s.sum1 ≤ 65535 * (k + 2)
  sum2 : s.sum2 ≤ 65535 * (182 * k + 2)
  size : s.size = 0

theorem Small.step {k : Nat} (small : Small s k) (half : UInt8 × UInt8) :
    if k + 1 = 180 then Small (step big s half) 0 ∧
        (step big s half).sum1 = carry (s.sum1 + halfWord big half) ∧
        (step big s half).sum2 = carry (s.sum2 + (s.sum1 + halfWord big half))
      else Small (step big s half) (k + 1) ∧
        (step big s half).sum1 = s.sum1 + halfWord big half ∧
        (step big s half).sum2 = s.sum2 + (s.sum1 + halfWord big half) := by
  obtain ⟨len,few,sum1,sum2,size⟩ := small
  have word := halfWord_lt big half
  have first : (s.sum1 + halfWord big half) % 2 ^ 32 = s.sum1 + halfWord big half := Nat.mod_eq_of_lt (by omega)
  have second : (s.sum2 + (s.sum1 + halfWord big half)) % 2 ^ 32 = s.sum2 + (s.sum1 + halfWord big half) :=
    Nat.mod_eq_of_lt (by omega)
  unfold Checksum.step Fletcher.add
  dsimp only
  rw [first,second]
  by_cases last : k + 1 = 180
  · have full : s.len + 2 = 360 := by omega
    rw [if_pos last,if_pos full]
    refine ⟨⟨rfl,by decide,?_,?_,size⟩,and_mask_eq _,and_mask_eq _⟩
    · simp only [Fletcher.shuffle,and_mask_eq,carry]
      omega
    · simp only [Fletcher.shuffle,and_mask_eq,carry]
      omega
  · have more : ¬s.len + 2 = 360 := by omega
    rw [if_neg last,if_neg more]
    refine ⟨⟨?_,by omega,?_,?_,size⟩,rfl,rfl⟩
    · dsimp only
      omega
    · dsimp only
      omega
    · dsimp only
      omega

theorem foldl_step {k : Nat} (small : Small s k) (halves : List (UInt8 × UInt8)) :
    (∃ k', Small (halves.foldl (step big) s) k') ∧
      ((halves.foldl (step big) s).sum1,(halves.foldl (step big) s).sum2) =
        accumulate s.sum1 s.sum2 k (halves.map (halfWord big)) := by
  induction halves generalizing s k with
  | nil => exact ⟨⟨k,small⟩,rfl⟩
  | cons half rest ih =>
    have next := small.step big half
    rw [List.foldl_cons,List.map_cons,accumulate]
    split at next
    · next last =>
      obtain ⟨small',sum1,sum2⟩ := next
      have rest' := ih small'
      rw [sum1,sum2] at rest'
      rw [if_pos last]
      exact rest'
    · next more =>
      obtain ⟨small',sum1,sum2⟩ := next
      have rest' := ih small'
      rw [sum1,sum2] at rest'
      rw [if_neg more]
      exact rest'

end

section
variable {a b a' b' x y : Nat}

theorem carry_mod (n : Nat) : carry n % 65535 = n % 65535 := by
  unfold carry
  omega

theorem carry_pos (positive : 1 ≤ x) : 1 ≤ carry x := by
  unfold carry
  omega

theorem accumulate_mod (k : Nat) (first : a % 65535 = a' % 65535) (second : b % 65535 = b' % 65535) (words : List Nat) :
    (accumulate a b k words).1 % 65535 = (sums (a',b') words).1 % 65535 ∧
      (accumulate a b k words).2 % 65535 = (sums (a',b') words).2 % 65535 := by
  induction words generalizing a b k a' b' with
  | nil => exact ⟨first,second⟩
  | cons w rest ih =>
    unfold accumulate
    split
    · refine ih 0 ?_ ?_
      · rw [carry_mod]
        omega
      · rw [carry_mod]
        omega
    · refine ih (k + 1) ?_ ?_
      · omega
      · omega

theorem accumulate_pos (k : Nat) (first : 1 ≤ a) (second : 1 ≤ b) (words : List Nat) :
    1 ≤ (accumulate a b k words).1 ∧ 1 ≤ (accumulate a b k words).2 := by
  induction words generalizing a b k with
  | nil => exact ⟨first,second⟩
  | cons w rest ih =>
    unfold accumulate
    split
    · exact ih 0 (carry_pos (by omega)) (carry_pos (by omega))
    · exact ih (k + 1) (by omega) (by omega)

theorem residue_congr (same : x % 65535 = y % 65535) : residue x = residue y := by
  unfold residue
  rw [same]

/-- The sums after the last carries are packed as their residues exactly when they fit in 16 bits. -/
theorem pack_eq_iff (first : 1 ≤ x) (second : 1 ≤ y) (small : x < 2 ^ 32) (small' : y < 2 ^ 32) :
    ((carry y <<< 16) ||| carry x) % 2 ^ 32 = residue y * 2 ^ 16 + residue x ↔ carry x < 2 ^ 16 ∧ carry y < 2 ^ 16 := by
  have fold (n : Nat) (positive : 1 ≤ n) (less : n < 2 ^ 32) :
      1 ≤ carry n ∧ carry n ≤ 131070 ∧ residue n = if carry n < 2 ^ 16 then carry n else carry n - 65535 := by
    refine ⟨carry_pos positive,?_,?_⟩
    · unfold carry
      omega
    · unfold residue carry
      split
      · split <;> omega
      · split <;> omega
  obtain ⟨pos,le,res⟩ := fold x first small
  obtain ⟨pos',le',res'⟩ := fold y second small'
  rw [res,res']
  constructor
  · intro same
    have low : carry x < 2 ^ 16 := by
      by_contra large
      have mod := congrArg (· % 2 ^ 16) same
      rw [if_neg large,Nat.mod_mod_of_dvd _ (by decide : 2 ^ 16 ∣ 2 ^ 32),Nat.or_mod_two_pow,Nat.shiftLeft_eq,
        Nat.mul_mod_left,Nat.zero_or] at mod
      omega
    refine ⟨low,?_⟩
    by_contra large
    rw [← Nat.shiftLeft_add_eq_or_of_lt low,Nat.shiftLeft_eq,if_pos low,if_neg large] at same
    omega
  · rintro ⟨low,low'⟩
    rw [← Nat.shiftLeft_add_eq_or_of_lt low,Nat.shiftLeft_eq,if_pos low,if_pos low']
    omega

end

/-- The half-words that were added are those of the string with the zero byte: the sum is the checksum exactly when the last
    carries give 16 bits. -/
theorem sum_right_iff (big : Bool) (half0 half1 : UInt8) (pieces : List (List UInt8)) (paired : Paired half1 pieces) :
    SumRight big half0 half1 pieces ↔ Folds big pieces := by
  obtain ⟨parts,whole⟩ := paired
  have start : Small (Fletcher.create half0 half1) 0 := by
    refine ⟨rfl,by decide,?_,?_,rfl⟩
    · exact (by decide : (0xffff : Nat) ≤ 65535 * (0 + 2))
    · exact (by decide : (0xffff : Nat) ≤ 65535 * (182 * 0 + 2))
  have folded (cut : List (List UInt8)) (same : fed half1 cut = padded pieces.flatten) :
      (cut.foldl (fun s piece => s.put big piece) (Fletcher.create half0 half1)).sum big =
        ((padded pieces.flatten).foldl (step big) (Fletcher.create half0 half1)).sum big := by
    rw [foldl_put]
    exact congrArg (fun halves => (halves.foldl (step big) (Fletcher.create half0 half1)).sum big) same
  obtain ⟨⟨k,small⟩,sums_⟩ := foldl_step big start (padded pieces.flatten)
  have start0 : 0xffff % 65535 = 0 % 65535 := rfl
  have start1 : 1 ≤ 0xffff := by decide
  have mods := accumulate_mod 0 start0 start0 ((padded pieces.flatten).map (halfWord big))
  have positive := accumulate_pos 0 start1 start1 ((padded pieces.flatten).map (halfWord big))
  unfold SumRight Folds fletcher32
  dsimp only
  rw [folded pieces parts,folded [pieces.flatten] whole,eq_self,true_and,← residue_congr mods.1,← residue_congr mods.2]
  change _ = accumulate 0xffff 0xffff 0 _ at sums_
  rw [← sums_] at positive ⊢
  generalize (padded pieces.flatten).foldl (step big) (Fletcher.create half0 half1) = s at small positive ⊢
  have value : s.sum big = ((carry s.sum2 <<< 16) ||| carry s.sum1) % 2 ^ 32 := by
    have whole' : ¬s.size = 1 := by
      rw [small.size]
      decide
    simp only [Fletcher.sum,if_neg whole',Fletcher.shuffle,and_mask_eq]
  obtain ⟨-,few,bound1,bound2,-⟩ := small
  rw [value]
  exact pack_eq_iff positive.1 positive.2 (by omega) (by omega)

theorem padded_eq_halfWords (stale : UInt8) (bytes : List UInt8) (even : bytes.length % 2 = 0) : halfWords stale bytes = padded bytes := by
  fun_induction padded bytes generalizing stale with
  | case1 => rfl
  | case2 a => simp at even
  | case3 a b rest ih =>
    simp only [List.length_cons] at even
    rw [halfWords,ih b (by omega)]

theorem padded_append (bytes more : List UInt8) (even : bytes.length % 2 = 0) : padded (bytes ++ more) = padded bytes ++ padded more := by
  fun_induction padded bytes with
  | case1 => rfl
  | case2 a => simp at even
  | case3 a b rest ih =>
    simp only [List.length_cons] at even
    simp only [List.cons_append,padded]
    rw [ih (by omega)]

theorem paired_of_even (stale : UInt8) (pieces : List (List UInt8)) (even : ∀ piece ∈ pieces, piece.length % 2 = 0) : Paired stale pieces := by
  have whole : pieces.flatten.length % 2 = 0 := by
    induction pieces with
    | nil => rfl
    | cons piece rest ih =>
      rw [List.flatten_cons,List.length_append]
      have := even piece List.mem_cons_self
      have := ih fun p member => even p (List.mem_cons_of_mem _ member)
      omega
  refine ⟨?_,by rw [fed,fed,List.append_nil,padded_eq_halfWords _ _ whole]⟩
  clear whole
  induction pieces generalizing stale with
  | nil => rfl
  | cons piece rest ih =>
    have here := even piece List.mem_cons_self
    rw [fed,ih _ fun p member => even p (List.mem_cons_of_mem _ member),padded_eq_halfWords _ _ here,List.flatten_cons,
      padded_append _ _ here]

/-- Two pieces of two bytes. -/
theorem sum_right_iff_pieces : SumRight false 0 0 [[1,2],[255,3]] := by
  refine (sum_right_iff false 0 0 _ (paired_of_even 0 _ (by decide))).mpr ?_
  exact ⟨by decide,by decide⟩

/-- The bytes 1, 2, 3 cut after the first one; and one half-word of 1, whose second sum does not fit. -/
theorem sum_of_cut : ¬SumRight false 0 0 [[1],[2,3]] ∧ ¬SumRight false 0 0 [[1,0]] := by
  constructor
  · rintro ⟨same,-⟩
    exact absurd same (by decide)
  · rintro ⟨-,right⟩
    exact absurd right (by decide)

end Otawa.Checksum
