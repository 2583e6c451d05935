import Mathlib.Data.BitVec

/-!
The bit vector as a run-length code (`elm::WAHVector`). The bits are cut into groups
of 31; a word is a group, or the length of a run of equal groups with all bits equal.
The vector is only changed by building a new list of words.
-/
namespace Otawa.Wah

/-- `word_t`. -/
abbrev Word := BitVec 32

def FILL : Word := 0x80000000#32
def ONES : Word := 0x40000000#32
def ALL_ONES : Word := 0x7fffffff#32
def ALL_ZEROES : Word := 0#32

def isFill (w : Word) : Bool := w &&& FILL != 0
def isOnes (w : Word) : Bool := w &&& ONES != 0
def isZeroes (w : Word) : Bool := !isOnes w
def fillCount (w : Word) : Word := w &&& ~~~(FILL ||| ONES)
def fill (size : Int) (init : Bool) : Word := FILL ||| (if init then ONES else 0) ||| BitVec.ofInt 32 size

def times (v : Nat) : Nat := (v <<< 5) - v
def div (v : Nat) : Nat := ((2^32 / 31 + 30) * v % 2^64) >>> 32
def mod (v : Nat) : Int := v - times (div v)

/-- `1 << n`, undefined for a count outside of the word. -/
def shift (n : Int) : Option Word := if 0 ≤ n ∧ n < 32 then some (1#32 <<< n.toNat) else none
def mask (n : Int) : Option Word := (shift n).map fun bit => bit - 1

/-- `builder`: the words pushed so far, the last one first. -/
abbrev Builder := List Word

def pushRaw (b : Builder) (w : Word) : Builder := w :: b

def pushFill (b : Builder) (w : Word) : Builder :=
  match b with
  | [] => pushRaw b w
  | last :: before =>
    if w &&& (FILL ||| ONES) = last &&& (FILL ||| ONES) then (last + fillCount w) :: before else pushRaw b w

def pushLite (b : Builder) (w : Word) : Builder :=
  if w = 0 then pushFill b (fill 1 false)
  else if w = ALL_ONES then pushFill b (fill 1 true)
  else pushRaw b w

def push (b : Builder) (w : Word) : Builder := if isFill w then pushFill b w else pushLite b w

/-- The end of `fix`: the last group has all its bits equal, its word joins the word
    before it when bit 30 of that word says so. -/
def joinLast (value : Bool) (before : Builder) : Builder :=
  match before with
  | [] => [fill 1 value]
  | previous :: older =>
    if (if value then isOnes previous else isZeroes previous) then (previous + 1) :: older
    else fill 1 value :: before

/-- `fix`: the words of the vector, the last group cleaned when it is partial. -/
def fix (b : Builder) (rem : Int) : Option (List Word) :=
  if rem = 0 then some b.reverse
  else match b with
    | [] => none
    | last :: before =>
      if isFill last then some b.reverse
      else do
        let kept ← mask rem
        let last := last &&& kept
        if last = 0 then some (joinLast false before).reverse
        else if last = kept then some (joinLast true before).reverse
        else some (last :: before).reverse

/-- `iter` on a word: its groups have the value `val`, the bits from `i` to `ii` are
    those left. `cur` starts with the word. -/
structure Iter where
  isFill : Bool
  val : Word
  cnt : Nat
  i : Nat
  ii : Nat
  cur : List Word

def count (w : Word) : Nat := if isFill w then (fillCount w).toNat else 1
def value (w : Word) : Word :=
  if isFill w then if isOnes w then ALL_ONES else ALL_ZEROES else w

namespace Iter

/-- `step`, at a word that starts at bit `ii`. -/
def step (ii : Nat) (cur : List Word) : Iter :=
  match cur with
  | [] => ⟨false,0,0,ii,ii,[]⟩
  | w :: _ => ⟨Wah.isFill w,value w,count w,ii,ii + times (count w),cur⟩

def start (words : List Word) : Iter := step 0 words
def ended (it : Iter) : Bool := it.cur.isEmpty
def next (it : Iter) : Iter := step it.ii it.cur.tail

/-- `consume`, with its assertion. -/
def consume (it : Iter) (c : Nat) : Option Iter :=
  if c ≤ it.cnt then
    let left := { it with cnt := it.cnt - c, i := it.i + times c }
    some (if left.cnt = 0 then left.next else left)
  else none

theorem consume_less {it after : Iter} {c : Nat} (more : it.ended = false) (taken : it.consume c = some after) :
    after.cur.length < it.cur.length ∨
      after.cur.length = it.cur.length ∧ c < it.cnt ∧ after.cnt = it.cnt - c := by
  unfold consume at taken
  split at taken
  · rename_i enough
    obtain rfl := Option.some.inj taken
    by_cases last : it.cnt - c = 0
    · left
      obtain ⟨w,rest,shape⟩ : ∃ w rest, it.cur = w :: rest := by
        cases shape : it.cur with
        | nil => simp [ended,shape] at more
        | cons w rest => exact ⟨w,rest,rfl⟩
      cases rest <;> simp [last,next,step,shape]
    · exact Or.inr ⟨by simp [if_neg last],by omega,by simp [if_neg last]⟩
  · cases taken

def pushTail (it : Iter) (b : Builder) : Builder :=
  match it.cur.tail with
  | [] => b
  | w :: rest => rest.reverse ++ push b w

end Iter

/-- `WAHVector`. `rem` is an unsigned word in the source, only read back as an `int`. -/
structure WAHVector where
  words : List Word
  rem : Int
  deriving DecidableEq

namespace WAHVector

def make (size : Nat) (init : Bool) : WAHVector :=
  ⟨[fill (div size + if mod size ≠ 0 then 1 else 0) init],mod size⟩

/-- The loop of `bit` from the word that starts at bit `ii`. -/
def bitFrom (index : Nat) (ii : Nat) : List Word → Option Bool
  | [] => none
  | w :: rest =>
    let it := Iter.step ii (w :: rest)
    if it.i ≤ index ∧ index < it.ii then (shift (mod index)).map fun one => it.val &&& one != 0
    else bitFrom index it.ii rest

def bit (v : WAHVector) (index : Nat) : Option Bool := bitFrom index 0 v.words

def size (v : WAHVector) : Int :=
  let r := (v.words.map count).sum
  if v.rem ≠ 0 then times r - (31 - v.rem) else times r

/-- The loop of `set` and of `clear`: `put` changes the bit in a group, a fill of the
    value `done` stays. -/
def changeFrom (put : Word → Word → Word) (done : Bool) (index : Nat) (b : Builder) (ii : Nat) :
    List Word → Option Builder
  | [] => none
  | w :: rest =>
    let it := Iter.step ii (w :: rest)
    if index < it.i ∨ it.ii ≤ index then changeFrom put done index (pushRaw b w) it.ii rest
    else if !it.isFill then (shift (mod index)).map fun one => it.pushTail (pushLite b (put it.val one))
    else if (it.val != 0) = done then some (it.pushTail (pushRaw b w))
    else
      let before := div (index - it.i)
      let after : Int := it.cnt - before - 1
      (shift (mod index)).map fun one =>
        let b := if before ≠ 0 then pushRaw b (fill before (it.val != 0)) else b
        let b := pushLite b (put it.val one)
        let b := if after ≠ 0 then pushRaw b (fill after (it.val != 0)) else b
        it.pushTail b

def change (put : Word → Word → Word) (done : Bool) (v : WAHVector) (index : Nat) : Option WAHVector := do
  let b ← changeFrom put done index [] 0 v.words
  let words ← fix b v.rem
  some ⟨words,v.rem⟩

def set : WAHVector → Nat → Option WAHVector := change (fun w one => w ||| one) true
def clear : WAHVector → Nat → Option WAHVector := change (fun w one => w &&& ~~~one) false

/-- The loop of `doAnd`, `doOr` and `doReset`; only `op` differs. -/
def combine (op : Word → Word → Word) (i1 i2 : Iter) (b : Builder) : Option Builder :=
  if _ : i1.ended then some b
  else if _ : i2.ended then none
  else if i1.isFill && i2.isFill then
    let n := min i1.cnt i2.cnt
    match _ : i1.consume n, _ : i2.consume n with
    | some j1, some j2 => combine op j1 j2 (pushFill b (fill n (op i1.val i2.val != 0)))
    | _, _ => none
  else match _ : i1.consume 1, _ : i2.consume 1 with
    | some j1, some j2 => combine op j1 j2 (pushLite b (op i1.val i2.val))
    | _, _ => none
termination_by (i1.cur.length + i2.cur.length,i1.cnt + i2.cnt)
decreasing_by
  all_goals
    have less1 := Iter.consume_less (Bool.eq_false_iff.mpr ‹_›) ‹i1.consume _ = some _›
    have less2 := Iter.consume_less (Bool.eq_false_iff.mpr ‹_›) ‹i2.consume _ = some _›
    simp only [Prod.lex_def]
    omega

def apply (op : Word → Word → Word) (v1 v2 : WAHVector) : Option WAHVector := do
  let b ← combine op (Iter.start v1.words) (Iter.start v2.words) []
  let words ← fix b v1.rem
  some ⟨words,v1.rem⟩

def doAnd : WAHVector → WAHVector → Option WAHVector := apply fun w1 w2 => w1 &&& w2
def doOr : WAHVector → WAHVector → Option WAHVector := apply fun w1 w2 => w1 ||| w2
def doReset : WAHVector → WAHVector → Option WAHVector := apply fun w1 w2 => w1 &&& ~~~w2

/-- The loop of `doNot`. -/
def notFrom (b : Builder) (ii : Nat) : List Word → Builder
  | [] => b
  | w :: rest =>
    let it := Iter.step ii (w :: rest)
    notFrom (if it.isFill then pushFill b (fill it.cnt (it.val == 0)) else pushLite b (~~~it.val &&& ALL_ONES))
      it.ii rest

def doNot (v : WAHVector) : Option WAHVector := do
  let words ← fix (notFrom [] 0 v.words) v.rem
  some ⟨words,v.rem⟩

end WAHVector

end Otawa.Wah
