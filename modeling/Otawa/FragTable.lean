import Mathlib.Data.Nat.Bitwise
import Mathlib.Data.List.Basic
import Mathlib.Tactic.Positivity
import Mathlib.Tactic.Ring

/-!
The fragmented table of `elm::genstruct::FragTable`: a vector of fragments of `2 ^ k`
cells and the number of used cells in the last one. It behaves as the list of its items
while nothing is removed, its vector has at most 32768 fragments and its items can be
counted by an `int`. A removal reads an item after the last one.
-/
namespace Otawa.Frag

variable {T : Type}

/-- `FragTable`, with the fields of its vector of fragments; a cell that was not written has no item. -/
structure FragTable (T : Type) where
  tab : List (List (Option T))
  cap : Nat
  size : Nat
  msk : Nat
  shf : Nat
  used : Int

def maxInt : Nat := 2147483647

/-- The value that an `int` gets. -/
def int (n : Int) : Int := n.bmod (2 ^ 32)

namespace FragTable

/-- The constructor, with its assertion, for a size that is an `int`. -/
def create (size_pow : Nat) : Option (FragTable T) :=
  if 0 < size_pow ∧ size_pow < 31 then
    some ⟨[],8,1 <<< size_pow,1 <<< size_pow - 1,size_pow,((1 <<< size_pow : Nat) : Int)⟩
  else none

section
variable (t : FragTable T)

def length : Int := int (((t.tab.length : Int) - 1) * 2 ^ t.shf + t.used)

/-- `tab[a][b]`, none out of the allocated fragments. -/
def load (a b : Nat) : Option (Option T) := t.tab[a]?.bind fun fragment => fragment[b]?

/-- The assignment of `tab[a][b]`. -/
def store (a b : Nat) (cell : Option T) : Option (FragTable T) :=
  t.tab[a]?.bind fun fragment =>
    if b < fragment.length then some { t with tab := t.tab.set a (fragment.set b cell) } else none

/-- `get`, with its assertion. -/
def get (index : Nat) : Option (Option T) :=
  if (index : Int) < t.length then t.load (index >>> t.shf) (index &&& t.msk) else none

/-- `set`, with its assertion, of an item that may be unspecified. -/
def put (index : Nat) (cell : Option T) : Option (FragTable T) :=
  if (index : Int) < t.length then t.store (index >>> t.shf) (index &&& t.msk) cell else none

def set (index : Nat) (value : T) : Option (FragTable T) := t.put index (some value)

/-- A new fragment, of which no cell is used. The capacity of the vector is doubled when it is full. -/
def addFragment : Option (FragTable T) :=
  let fragment := List.replicate t.size none
  if t.tab.length < t.cap then some { t with tab := t.tab ++ [fragment], used := 0 }
  else if t.cap * 2 < 65536 then some { t with tab := t.tab ++ [fragment], cap := t.cap * 2, used := 0 }
  else none

def add (value : T) : Option (FragTable T) :=
  (if t.size ≤ t.used then t.addFragment else some t).bind fun t =>
    if t.used < 0 then none
    else (t.store (t.tab.length - 1) t.used.toNat (some value)).map fun t => { t with used := t.used + 1 }

/-- The loop of `alloc`, for some turns. -/
def grow : Nat → Int → FragTable T → Option (FragTable T)
  | 0, _, _ => none
  | turns + 1, count, t =>
    if t.size - t.used ≤ count then t.addFragment.bind (grow turns (count - (t.size - t.used)))
    else some { t with used := t.used + count }

/-- `alloc`: the index of the first item and the table. -/
def alloc (count : Nat) : Option (Int × FragTable T) := (grow (count + 2) count t).map fun t' => (t.length,t')

/-- `shrink`, with its assertion and the one of `setLength`. -/
def shrink (length : Nat) : Option (FragTable T) :=
  if (length : Int) < t.length then
    let last := int (length + t.msk)
    if last < 0 then none
    else
      let used := length &&& t.msk
      some { t with tab := t.tab.take (last.toNat >>> t.shf), used := if used = 0 then t.size else used }
  else none

/-- The loop of `insert`, from the item before `i` down to the one at the index. -/
def shiftUp (index : Nat) : Nat → FragTable T → Option (FragTable T)
  | 0, t => some t
  | i + 1, t =>
    if index ≤ i then (t.get i).bind fun cell => (t.put (i + 1) cell).bind (shiftUp index i) else some t

def insert (index : Nat) (item : T) : Option (FragTable T) :=
  if (index : Int) ≤ t.length then
    (t.alloc 1).bind fun (_,grown) => (shiftUp index t.length.toNat grown).bind fun t => t.set index item
  else none

/-- A turn of the loop of `removeAt`. -/
def shiftDown (t : FragTable T) (i : Nat) : Option (FragTable T) := (t.get i).bind (t.put (i - 1))

def removeAt (index : Nat) : Option (FragTable T) :=
  ((List.range' (index + 1) (t.length - index).toNat).foldlM shiftDown t).map fun t =>
    if t.used - 1 = 0 then { t with tab := t.tab.dropLast, used := t.size } else { t with used := t.used - 1 }

end
end FragTable

/-! ### Operations -/

inductive Op (T : Type) where
  | add (value : T)
  | alloc (count : Nat)
  | set (index : Nat) (value : T)
  | insert (index : Nat) (value : T)
  | removeAt (index : Nat)
  | shrink (length : Nat)

namespace Op

def apply (t : FragTable T) : Op T → Option (FragTable T)
  | add value => t.add value
  | alloc count => (t.alloc count).map (·.2)
  | set index value => t.set index value
  | insert index value => t.insert index value
  | removeAt index => t.removeAt index
  | shrink length => t.shrink length

/-- The same operation on a list of items, of which those that are allocated are unspecified. -/
def onList (items : List (Option T)) : Op T → List (Option T)
  | add value => items ++ [some value]
  | alloc count => items ++ List.replicate count none
  | set index value => items.set index (some value)
  | insert index value => items.insertIdx index (some value)
  | removeAt index => items.eraseIdx index
  | shrink length => items.take length

def Valid (length : Nat) : Op T → Prop
  | add _ | alloc _ => True
  | set index _ | removeAt index => index < length
  | insert index _ => index ≤ length
  | shrink new => new < length

/-- Nothing is removed, and the fragments and items of a table of this length are not too many. -/
def Room (k length : Nat) : Op T → Prop
  | add _ => length + 1 ≤ 32768 * 2 ^ k ∧ length + 1 ≤ maxInt
  | alloc count => length + count < 32768 * 2 ^ k ∧ length + count ≤ maxInt
  | set _ _ => True
  | insert _ _ => length + 1 < 32768 * 2 ^ k ∧ length + 1 ≤ maxInt
  | removeAt _ => False
  | shrink new => new + (2 ^ k - 1) ≤ maxInt

end Op

structure Agrees (t : FragTable T) (items : List (Option T)) : Prop where
  length : t.length = items.length
  get : ∀ i (h : i < items.length), ∃ cell, t.get i = some cell ∧ ∀ value, items[i] = some value → cell = some value

/-- Each operation succeeds on the table, which agrees with the list after it. -/
def AgreesAlong (t : FragTable T) (items : List (Option T)) : List (Op T) → Prop
  | [] => Agrees t items
  | op :: ops => Agrees t items ∧ ∃ t', op.apply t = some t' ∧ AgreesAlong t' (op.onList items) ops

def Along (p : Nat → Op T → Prop) (items : List (Option T)) : List (Op T) → Prop
  | [] => True
  | op :: ops => p items.length op ∧ Along p (op.onList items) ops

/-- The fields of a table of `n` items. -/
structure Shape (k : Nat) (t : FragTable T) (n : Nat) : Prop where
  power : 0 < k ∧ k < 31
  size : t.size = 2 ^ k
  msk : t.msk = 2 ^ k - 1
  shf : t.shf = k
  fragments : ∀ fragment ∈ t.tab, fragment.length = 2 ^ k
  low : 0 ≤ t.used
  high : t.used ≤ 2 ^ k
  total : (n : Int) + 2 ^ k = t.tab.length * 2 ^ k + t.used
  cap : ∃ j ≤ 12, t.cap = 8 * 2 ^ j
  room : t.tab.length ≤ t.cap

def cell (k : Nat) (t : FragTable T) (i : Nat) : Option (Option T) := t.load (i / 2 ^ k) (i % 2 ^ k)

section
variable {k n i j a b : Nat} {t t' : FragTable T} {items : List (Option T)} {c : Option T}

private theorem int_eq {m : Nat} (small : m ≤ maxInt) : int m = m :=
  Int.bmod_eq_of_le (by omega) (by rw [maxInt] at small; omega)

private theorem int_le (m : Int) : int m ≤ maxInt := by
  have := Int.bmod_lt (x := m) (show 0 < 2 ^ 32 by decide)
  rw [int,maxInt]
  omega

theorem Shape.length_eq_int (shape : Shape k t n) : t.length = int n := by
  rw [FragTable.length,shape.shf]
  congr 1
  have total := shape.total
  rw [Int.sub_mul]
  omega

theorem Shape.length_eq (shape : Shape k t n) (small : n ≤ maxInt) : t.length = n :=
  shape.length_eq_int.trans (int_eq small)

theorem Shape.below (shape : Shape k t n) : n ≤ t.tab.length * 2 ^ k := by
  have total := shape.total
  have high := shape.high
  have cast : ((t.tab.length * 2 ^ k : Nat) : Int) = t.tab.length * 2 ^ k := by push_cast; rfl
  omega

theorem Shape.cap_le (shape : Shape k t n) : t.cap ≤ 32768 := by
  obtain ⟨j,few,cap⟩ := shape.cap
  have := Nat.pow_le_pow_right (show 0 < 2 by decide) few
  omega

theorem Shape.fragment_lt (shape : Shape k t n) (inside : i < n) : i / 2 ^ k < t.tab.length :=
  Nat.div_lt_of_lt_mul (Nat.mul_comm _ _ ▸ inside.trans_le shape.below)

theorem Shape.indices (shape : Shape k t n) (i : Nat) : i >>> t.shf = i / 2 ^ k ∧ i &&& t.msk = i % 2 ^ k := by
  rw [shape.shf,shape.msk,Nat.shiftRight_eq_div_pow,Nat.and_two_pow_sub_one_eq_mod]
  exact ⟨rfl,rfl⟩

theorem load_some (fragments : ∀ fragment ∈ t.tab, fragment.length = 2 ^ k) (first : a < t.tab.length)
    (second : b < 2 ^ k) : ∃ c, t.load a b = some c := by
  have long : b < t.tab[a].length := (fragments _ (List.getElem_mem first)).symm ▸ second
  exact ⟨t.tab[a][b],by simp [FragTable.load,first,long]⟩

theorem store_spec (fragments : ∀ fragment ∈ t.tab, fragment.length = 2 ^ k) (first : a < t.tab.length)
    (second : b < 2 ^ k) (c : Option T) :
    ∃ tab, t.store a b c = some { t with tab := tab } ∧ tab.length = t.tab.length ∧
      (∀ fragment ∈ tab, fragment.length = 2 ^ k) ∧
      ∀ a' b', FragTable.load { t with tab := tab } a' b' = if a' = a ∧ b' = b then some c else t.load a' b' := by
  have long : b < t.tab[a].length := (fragments _ (List.getElem_mem first)).symm ▸ second
  refine ⟨t.tab.set a (t.tab[a].set b c),by simp [FragTable.store,first,long],List.length_set,?_,fun a' b' => ?_⟩
  · intro fragment member
    rcases List.mem_or_eq_of_mem_set member with old | rfl
    · exact fragments fragment old
    · rw [List.length_set]
      exact fragments _ (List.getElem_mem first)
  · by_cases same : a' = a
    · subst same
      by_cases here : b' = b
      · subst here
        simp [FragTable.load,first,long]
      · simp [FragTable.load,first,here,List.getElem?_set_ne (Ne.symm here)]
    · simp [FragTable.load,same,List.getElem?_set_ne (Ne.symm same)]

private theorem place_iff : i / 2 ^ k = j / 2 ^ k ∧ i % 2 ^ k = j % 2 ^ k ↔ i = j := by
  constructor
  · rintro ⟨first,second⟩
    rw [← Nat.div_add_mod i (2 ^ k),first,second,Nat.div_add_mod]
  · rintro rfl
    exact ⟨rfl,rfl⟩

theorem Shape.store (shape : Shape k t n) (inside : i / 2 ^ k < t.tab.length) (c : Option T) :
    ∃ tab, t.store (i / 2 ^ k) (i % 2 ^ k) c = some { t with tab := tab } ∧ Shape k { t with tab := tab } n ∧
      tab.length = t.tab.length ∧ ∀ j, cell k { t with tab := tab } j = if j = i then some c else cell k t j := by
  obtain ⟨tab,stored,length,fragments,loads⟩ := store_spec shape.fragments inside (Nat.mod_lt i (Nat.two_pow_pos k)) c
  refine ⟨tab,stored,?_,length,fun j => ?_⟩
  · exact { shape with fragments := fragments, total := by rw [length]; exact shape.total, room := by rw [length]; exact shape.room }
  · rw [cell,loads]
    simp only [place_iff]
    rfl

theorem Shape.get (shape : Shape k t n) (small : n ≤ maxInt) (inside : i < n) :
    ∃ c, t.get i = some c ∧ cell k t i = some c := by
  obtain ⟨first,second⟩ := shape.indices i
  obtain ⟨c,loaded⟩ := load_some shape.fragments (shape.fragment_lt inside) (Nat.mod_lt i (Nat.two_pow_pos k))
  refine ⟨c,?_,loaded⟩
  rw [FragTable.get,shape.length_eq small,if_pos (by omega),first,second,loaded]

theorem Shape.put (shape : Shape k t n) (small : n ≤ maxInt) (inside : i < n) (c : Option T) :
    ∃ t', t.put i c = some t' ∧ Shape k t' n ∧ ∀ j, cell k t' j = if j = i then some c else cell k t j := by
  obtain ⟨first,second⟩ := shape.indices i
  obtain ⟨tab,stored,kept,-,cells⟩ := shape.store (shape.fragment_lt inside) c
  refine ⟨_,?_,kept,cells⟩
  rw [FragTable.put,shape.length_eq small,if_pos (by omega),first,second,stored]

theorem get_none (out : t.length ≤ i) : t.get i = none := if_neg (Int.not_lt.mpr out)

theorem put_none (out : t.length ≤ i) : t.put i c = none := if_neg (Int.not_lt.mpr out)

theorem length_put (put : t.put i c = some t') : t'.length = t.length := by
  rw [FragTable.put] at put
  split at put
  · rw [FragTable.store] at put
    obtain ⟨fragment,found,stored⟩ := Option.bind_eq_some_iff.mp put
    split at stored
    · obtain rfl := Option.some.inj stored
      simp [FragTable.length]
    · cases stored
  · cases put

/-! ### Growth -/

theorem Shape.last (shape : Shape k t n) (part : t.used < 2 ^ k) :
    n / 2 ^ k = t.tab.length - 1 ∧ n % 2 ^ k = t.used.toNat ∧ 0 < t.tab.length := by
  obtain ⟨used,same⟩ := Int.eq_ofNat_of_zero_le shape.low
  have total := shape.total
  have cast : ((2 ^ k : Nat) : Int) = 2 ^ k := by push_cast; rfl
  rw [same] at part total ⊢
  have less : used < 2 ^ k := by omega
  have some : 0 < t.tab.length := by
    by_contra none
    rw [Nat.eq_zero_of_not_pos none,Int.ofNat_zero,Int.zero_mul] at total
    omega
  obtain ⟨fragments,counted⟩ := Nat.exists_eq_succ_of_ne_zero (Nat.ne_of_gt some)
  have sum : n = 2 ^ k * fragments + used := by
    have : ((n + 2 ^ k : Nat) : Int) = ((2 ^ k * fragments + used + 2 ^ k : Nat) : Int) := by
      push_cast
      rw [total,counted,Nat.succ_eq_add_one]
      push_cast
      ring
    omega
  refine ⟨?_,?_,some⟩
  · rw [sum,Nat.mul_add_div (Nat.two_pow_pos k),Nat.div_eq_of_lt less,counted]
    rfl
  · rw [sum,Nat.mul_add_mod,Nat.mod_eq_of_lt less]
    rfl

theorem Shape.addFragment (shape : Shape k t n) (full : t.used = 2 ^ k) :
    (n < 32768 * 2 ^ k → ∃ t', t.addFragment = some t' ∧ Shape k t' n ∧ t'.used = 0 ∧ ∀ j < n, cell k t' j = cell k t j) ∧
      (32768 * 2 ^ k ≤ n → t.addFragment = none) := by
  have total := shape.total
  obtain ⟨j,few,cap⟩ := shape.cap
  have room := shape.room
  have sum : n = t.tab.length * 2 ^ k := by
    have : ((n + 2 ^ k : Nat) : Int) = ((t.tab.length * 2 ^ k + 2 ^ k : Nat) : Int) := by
      push_cast
      rw [total,full]
    omega
  have bound := shape.cap_le
  have grown : ∀ cap', (∃ j ≤ 12, cap' = 8 * 2 ^ j) → t.tab.length < cap' →
      Shape k { t with tab := t.tab ++ [List.replicate t.size none], cap := cap', used := 0 } n ∧
        ∀ j < n, cell k { t with tab := t.tab ++ [List.replicate t.size none], cap := cap', used := 0 } j = cell k t j := by
    intro cap' power less
    refine ⟨{ shape with fragments := ?_, low := le_refl _, high := by positivity, total := ?_, cap := power, room := ?_ },?_⟩
    · intro fragment member
      rcases List.mem_append.mp member with old | new
      · exact shape.fragments fragment old
      · rw [List.mem_singleton.mp new,List.length_replicate,shape.size]
    · rw [List.length_append,List.length_singleton,total,full]
      push_cast
      ring
    · rw [List.length_append,List.length_singleton]
      exact less
    · intro j before
      rw [cell,cell,FragTable.load,FragTable.load,List.getElem?_append_left (shape.fragment_lt before)]
  constructor
  · intro less
    have fragments : t.tab.length < 32768 := Nat.lt_of_mul_lt_mul_right (sum ▸ less)
    rw [FragTable.addFragment]
    by_cases free : t.tab.length < t.cap
    · rw [if_pos free]
      obtain ⟨kept,cells⟩ := grown t.cap shape.cap free
      exact ⟨_,rfl,kept,rfl,cells⟩
    · have small : j < 12 := by
        by_contra large
        obtain rfl : j = 12 := by omega
        omega
      have doubled : ∃ j ≤ 12, t.cap * 2 = 8 * 2 ^ j := ⟨j + 1,small,by rw [cap,pow_succ]; ring⟩
      have half := Nat.pow_le_pow_right (show 0 < 2 by decide) (Nat.le_of_lt_succ small)
      have some := Nat.two_pow_pos j
      rw [if_neg free,if_pos (by omega)]
      obtain ⟨kept,cells⟩ := grown (t.cap * 2) doubled (by omega)
      exact ⟨_,rfl,kept,rfl,cells⟩
  · intro many
    have fragments : 32768 ≤ t.tab.length := Nat.le_of_mul_le_mul_right (sum ▸ many) (Nat.two_pow_pos k)
    rw [FragTable.addFragment,if_neg (by omega),if_neg (by omega)]

theorem Shape.add (shape : Shape k t n) (value : T) :
    (n + 1 ≤ 32768 * 2 ^ k → ∃ t', t.add value = some t' ∧ Shape k t' (n + 1) ∧
        ∀ j < n + 1, cell k t' j = if j = n then some (some value) else cell k t j) ∧
      (¬n + 1 ≤ 32768 * 2 ^ k → t.add value = none) := by
  -- the item is put after the last one of a fragment that is not full
  have ends : ∀ {t₁ : FragTable T}, Shape k t₁ n → t₁.used < 2 ^ k →
      ∃ t', (if t₁.used < 0 then none else (t₁.store (t₁.tab.length - 1) t₁.used.toNat (some value)).map
          fun t => { t with used := t.used + 1 }) = some t' ∧ Shape k t' (n + 1) ∧
        ∀ j, cell k t' j = if j = n then some (some value) else cell k t₁ j := by
    intro t₁ shape₁ part
    obtain ⟨fragment,place,some_⟩ := shape₁.last part
    obtain ⟨tab,stored,kept,-,cells⟩ := shape₁.store (i := n) (by omega) (some value)
    rw [if_neg (Int.not_lt.mpr shape₁.low),← fragment,← place,stored]
    refine ⟨_,rfl,{ kept with low := ?_, high := ?_, total := ?_ },cells⟩
    · have := shape₁.low
      change 0 ≤ t₁.used + 1
      omega
    · change t₁.used + 1 ≤ 2 ^ k
      omega
    · have := kept.total
      push_cast
      change (n : Int) + 2 ^ k = tab.length * 2 ^ k + t₁.used at this
      change (n : Int) + 1 + 2 ^ k = tab.length * 2 ^ k + (t₁.used + 1)
      omega
  have size : (t.size : Int) = 2 ^ k := by rw [shape.size]; push_cast; rfl
  rw [FragTable.add,size]
  by_cases full : (2 ^ k : Int) ≤ t.used
  · have high := shape.high
    obtain ⟨grows,stops⟩ := shape.addFragment (by omega)
    rw [if_pos full]
    refine ⟨fun room => ?_,fun room => ?_⟩
    · obtain ⟨t₁,added,shape₁,empty,same⟩ := grows room
      obtain ⟨t',put,kept,cells⟩ := ends shape₁ (by rw [empty]; positivity)
      refine ⟨t',by rw [added,Option.bind_some,put],kept,fun j before => ?_⟩
      rw [cells]
      split
      · rfl
      · exact same j (by omega)
    · rw [stops (by omega),Option.bind_none]
  · have below := shape.last (Int.not_le.mp full)
    obtain ⟨t',put,kept,cells⟩ := ends shape (Int.not_le.mp full)
    rw [if_neg full]
    refine ⟨fun _ => ⟨t',by rw [Option.bind_some,put],kept,fun j _ => cells j⟩,fun many => ?_⟩
    -- a fragment that is not full is one of the 32768
    have bound := shape.room.trans shape.cap_le
    have inside : n < t.tab.length * 2 ^ k := (Nat.div_lt_iff_lt_mul (Nat.two_pow_pos k)).mp (by omega)
    exact absurd (Nat.succ_le_of_lt (inside.trans_le (Nat.mul_le_mul_right (2 ^ k) bound))) many

theorem Shape.grow : ∀ (turns count : Nat) {t : FragTable T} {n : Nat}, Shape k t n → count < turns →
    (t.used = 2 ^ k → count + 1 < turns) →
    (n + count < 32768 * 2 ^ k → ∃ t', FragTable.grow turns count t = some t' ∧ Shape k t' (n + count) ∧
        ∀ j < n, cell k t' j = cell k t j) ∧
      (¬n + count < 32768 * 2 ^ k → FragTable.grow turns count t = none) := by
  intro turns
  induction turns with
  | zero => intro count t n _ enough; exact absurd enough (Nat.not_lt_zero _)
  | succ turns ih =>
    intro count t n shape enough atEnd
    have size : (t.size : Int) = 2 ^ k := by rw [shape.size]; push_cast; rfl
    have cast : ((2 ^ k : Nat) : Int) = 2 ^ k := by push_cast; rfl
    have positive := Nat.two_pow_pos k
    have low := shape.low
    have high := shape.high
    rw [FragTable.grow,size]
    by_cases more : 2 ^ k - t.used ≤ (count : Int)
    · rw [if_pos more]
      -- the rest of the last fragment is used, which is then full
      obtain ⟨part,same⟩ := Int.eq_ofNat_of_zero_le (show 0 ≤ 2 ^ k - t.used by omega)
      have filled : Shape k { t with used := 2 ^ k } (n + part) :=
        { shape with
          low := by positivity
          high := le_refl _
          total := by
            have := shape.total
            push_cast
            change (n : Int) + part + 2 ^ k = t.tab.length * 2 ^ k + 2 ^ k
            omega }
      have added : FragTable.addFragment { t with used := 2 ^ k } = t.addFragment := rfl
      obtain ⟨grows,stops⟩ := filled.addFragment rfl
      rw [added] at grows stops
      have rest : (count : Int) - (2 ^ k - t.used) = ((count - part : Nat) : Int) := by omega
      rw [rest]
      by_cases room : n + part < 32768 * 2 ^ k
      · obtain ⟨t₁,grown,shape₁,empty,same₁⟩ := grows room
        have left : count - part < turns := by
          by_cases full : t.used = 2 ^ k
          · have := atEnd full
            omega
          · omega
        obtain ⟨goes,fails⟩ := ih (count - part) shape₁ left (fun full => by omega)
        have sum : n + part + (count - part) = n + count := by omega
        rw [sum] at goes fails
        rw [grown,Option.bind_some]
        refine ⟨fun fits => ?_,fails⟩
        obtain ⟨t',got,kept,cells⟩ := goes fits
        exact ⟨t',got,kept,fun j before => (cells j (by omega)).trans (same₁ j (by omega))⟩
      · rw [stops (by omega),Option.bind_none]
        exact ⟨fun fits => absurd fits (by omega),fun _ => rfl⟩
    · rw [if_neg more]
      obtain ⟨fragment,place,some_⟩ := shape.last (by omega)
      refine ⟨fun _ => ⟨_,rfl,{ shape with low := ?_, high := ?_, total := ?_ },fun j _ => rfl⟩,fun many => ?_⟩
      · change 0 ≤ t.used + count
        omega
      · change t.used + count ≤ 2 ^ k
        omega
      · have := shape.total
        push_cast
        change (n : Int) + count + 2 ^ k = t.tab.length * 2 ^ k + (t.used + count)
        omega
      · have bound := shape.room.trans shape.cap_le
        have total := shape.total
        have product : ((t.tab.length * 2 ^ k : Nat) : Int) = t.tab.length * 2 ^ k := by push_cast; rfl
        have := Nat.mul_le_mul_right (2 ^ k) bound
        exact absurd (show n + count < 32768 * 2 ^ k by omega) many

theorem Shape.alloc (shape : Shape k t n) (count : Nat) :
    (n + count < 32768 * 2 ^ k → ∃ index t', t.alloc count = some (index,t') ∧ Shape k t' (n + count) ∧
        ∀ j < n, cell k t' j = cell k t j) ∧
      (¬n + count < 32768 * 2 ^ k → t.alloc count = none) := by
  obtain ⟨grows,stops⟩ := shape.grow (count + 2) count (by omega) (fun _ => by omega)
  rw [FragTable.alloc]
  refine ⟨fun room => ?_,fun many => by rw [stops many]; rfl⟩
  obtain ⟨t',grown,rest⟩ := grows room
  exact ⟨t.length,t',by rw [grown]; rfl,rest⟩

theorem Shape.shiftUp (index : Nat) : ∀ (i : Nat) {t : FragTable T}, Shape k t n → n ≤ maxInt → i < n →
    ∃ t', FragTable.shiftUp index i t = some t' ∧ Shape k t' n ∧
      ∀ j, cell k t' j = if index < j ∧ j ≤ i then cell k t (j - 1) else cell k t j := by
  intro i
  induction i with
  | zero =>
    intro t shape _ _
    exact ⟨t,rfl,shape,fun j => by rw [if_neg (by omega)]⟩
  | succ i ih =>
    intro t shape small inside
    rw [FragTable.shiftUp]
    by_cases goes : index ≤ i
    · obtain ⟨c,got,old⟩ := shape.get small (show i < n by omega)
      obtain ⟨t₁,put,shape₁,cells₁⟩ := shape.put small inside c
      obtain ⟨t',shifted,kept,cells⟩ := ih shape₁ small (by omega)
      refine ⟨t',by rw [if_pos goes,got,Option.bind_some,put,Option.bind_some,shifted],kept,fun j => ?_⟩
      rw [cells]
      by_cases moved : index < j ∧ j ≤ i
      · rw [if_pos moved,if_pos ⟨moved.1,by omega⟩,cells₁,if_neg (by omega)]
      · rw [if_neg moved,cells₁]
        by_cases last : j = i + 1
        · rw [if_pos last,if_pos ⟨by omega,by omega⟩,last,Nat.add_sub_cancel,old]
        · rw [if_neg last,if_neg (by omega)]
    · exact ⟨t,if_neg goes,shape,fun j => by rw [if_neg (by omega)]⟩

theorem length_shiftUp {index : Nat} : ∀ (i : Nat) {t t' : FragTable T}, FragTable.shiftUp index i t = some t' →
    t'.length = t.length := by
  intro i
  induction i with
  | zero =>
    intro t t' shifted
    rw [Option.some.inj shifted]
  | succ i ih =>
    intro t t' shifted
    rw [FragTable.shiftUp] at shifted
    split at shifted
    · obtain ⟨c,-,rest⟩ := Option.bind_eq_some_iff.mp shifted
      obtain ⟨t₁,put,rest⟩ := Option.bind_eq_some_iff.mp rest
      rw [ih rest,length_put put]
    · rw [Option.some.inj shifted]

theorem Shape.insert (shape : Shape k t n) (small : n ≤ maxInt) {index : Nat} (valid : index ≤ n) (value : T) :
    (n + 1 < 32768 * 2 ^ k ∧ n + 1 ≤ maxInt → ∃ t', t.insert index value = some t' ∧ Shape k t' (n + 1) ∧
        ∀ j < n + 1, cell k t' j =
          if j < index then cell k t j else if j = index then some (some value) else cell k t (j - 1)) ∧
      (¬(n + 1 < 32768 * 2 ^ k ∧ n + 1 ≤ maxInt) → t.insert index value = none) := by
  obtain ⟨grows,stops⟩ := shape.alloc 1
  rw [FragTable.insert,shape.length_eq small,if_pos (by omega)]
  by_cases room : n + 1 < 32768 * 2 ^ k
  · obtain ⟨_,t₁,grown,shape₁,same⟩ := grows room
    rw [grown,Int.toNat_natCast]
    simp only [Option.bind_some]
    constructor
    · rintro ⟨-,counted⟩
      obtain ⟨t₂,shifted,shape₂,cells₂⟩ := Shape.shiftUp index n shape₁ counted (Nat.lt_succ_self n)
      obtain ⟨t',put,kept,cells⟩ := shape₂.put counted (show index < n + 1 by omega) (some value)
      refine ⟨t',by rw [shifted,Option.bind_some,FragTable.set,put],kept,fun j before => ?_⟩
      rw [cells]
      by_cases here : j = index
      · rw [if_pos here,if_neg (by omega),if_pos here]
      rw [if_neg here,cells₂]
      by_cases low : j < index
      · rw [if_neg (by omega),if_pos low,same j (by omega)]
      · rw [if_pos ⟨by omega,by omega⟩,if_neg low,if_neg here,same (j - 1) (by omega)]
    · -- the new length is not an `int`, so that the assertion of `set` fails
      intro many
      have length := shape₁.length_eq_int
      rw [show n + 1 = 2147483648 by rw [maxInt] at small many; omega] at length
      cases shifted : FragTable.shiftUp index n t₁ with
      | none => rfl
      | some t₂ =>
        rw [Option.bind_some,FragTable.set,put_none]
        rw [length_shiftUp n shifted,length]
        exact le_trans (by decide) (Int.natCast_nonneg index)
  · rw [stops room]
    exact ⟨fun both => absurd both.1 room,fun _ => rfl⟩

/-- An item is read after the last one. -/
theorem Shape.removeAt_none (shape : Shape k t n) (small : n ≤ maxInt) {index : Nat} (valid : index < n) :
    t.removeAt index = none := by
  have loop : ∀ (count i : Nat) (t : FragTable T), t.length = ((i + count : Nat) : Int) →
      (List.range' i (count + 1)).foldlM FragTable.shiftDown t = none := by
    intro count
    induction count with
    | zero =>
      intro i t last
      rw [List.range'_succ,List.foldlM_cons,FragTable.shiftDown,get_none (by omega)]
      rfl
    | succ count ih =>
      intro i t last
      rw [List.range'_succ,List.foldlM_cons]
      cases turned : FragTable.shiftDown t i with
      | none => rfl
      | some t₁ =>
        obtain ⟨c,-,put⟩ := Option.bind_eq_some_iff.mp turned
        exact ih (i + 1) t₁ (by rw [length_put put,last]; omega)
  have turns : ((n : Int) - index).toNat = (n - index - 1) + 1 := by omega
  rw [FragTable.removeAt,shape.length_eq small,turns,loop _ _ _ (by rw [shape.length_eq small]; omega)]
  rfl

theorem Shape.shrink (shape : Shape k t n) (small : n ≤ maxInt) {new : Nat} (valid : new < n) :
    (new + (2 ^ k - 1) ≤ maxInt → ∃ t', t.shrink new = some t' ∧ Shape k t' new ∧ ∀ j < new, cell k t' j = cell k t j) ∧
      (¬new + (2 ^ k - 1) ≤ maxInt → t.shrink new = none) := by
  have positive := Nat.two_pow_pos k
  rw [FragTable.shrink,shape.length_eq small,if_pos (by omega)]
  have power := Nat.pow_le_pow_right (show 0 < 2 by decide) (Nat.le_of_lt_succ shape.power.2)
  have sum : (new : Int) + t.msk = ((new + (2 ^ k - 1) : Nat) : Int) := by
    rw [shape.msk]
    omega
  obtain ⟨-,second⟩ := shape.indices new
  simp only [sum,second,shape.size]
  constructor
  · intro fits
    rw [int_eq fits,if_neg (by omega),Int.toNat_natCast,shape.shf,Nat.shiftRight_eq_div_pow]
    have rounded := Nat.div_add_mod (new + (2 ^ k - 1)) (2 ^ k)
    have less := Nat.mod_lt (new + (2 ^ k - 1)) positive
    have parts := Nat.div_add_mod new (2 ^ k)
    have rest := Nat.mod_lt new positive
    -- the fragments up to the last item are kept
    have fragments : (new + (2 ^ k - 1)) / 2 ^ k = if new % 2 ^ k = 0 then new / 2 ^ k else new / 2 ^ k + 1 := by
      split
      · exact (Nat.div_eq_iff positive).mpr ⟨by rw [Nat.mul_comm]; omega,by rw [Nat.mul_comm]; omega⟩
      · exact (Nat.div_eq_iff positive).mpr ⟨by rw [Nat.add_mul,Nat.mul_comm]; omega,by rw [Nat.add_mul,Nat.mul_comm]; omega⟩
    have enough : (new + (2 ^ k - 1)) / 2 ^ k ≤ t.tab.length := by
      have := shape.fragment_lt valid
      split at fragments <;> omega
    have length : (t.tab.take ((new + (2 ^ k - 1)) / 2 ^ k)).length = (new + (2 ^ k - 1)) / 2 ^ k := by
      rw [List.length_take,Nat.min_eq_left enough]
    refine ⟨_,rfl,⟨shape.power,rfl,shape.msk,rfl,?_,?_,?_,?_,shape.cap,?_⟩,?_⟩
    · exact fun fragment member => shape.fragments fragment (List.mem_of_mem_take member)
    · split <;> positivity
    · split
      · push_cast
        exact le_refl _
      · change ((new % 2 ^ k : Nat) : Int) ≤ 2 ^ k
        exact_mod_cast rest.le
    · rw [length,fragments]
      have cast : (new : Int) = 2 ^ k * (new / 2 ^ k : Nat) + (new % 2 ^ k : Nat) := by exact_mod_cast parts.symm
      split
      · rename_i full
        rw [cast,full]
        push_cast
        ring
      · rw [cast]
        push_cast
        ring
    · rw [length]
      exact enough.trans shape.room
    · intro j before
      have inside : j / 2 ^ k < (new + (2 ^ k - 1)) / 2 ^ k := by
        refine (Nat.div_lt_iff_lt_mul positive).mpr (before.trans_le ?_)
        rw [Nat.mul_comm]
        omega
      simp [cell,FragTable.load,inside]
  · intro large
    have wrapped : int ((new + (2 ^ k - 1) : Nat) : Int) < 0 := by
      rw [maxInt] at small large
      have value : ((new + (2 ^ k - 1) : Nat) : Int).bmod (2 ^ 32) = ((new + (2 ^ k - 1) : Nat) : Int) - 2 ^ 32 := by
        rw [← Int.sub_bmod_right]
        exact Int.bmod_eq_of_le (by omega) (by omega)
      rw [int,value]
      omega
    rw [if_pos wrapped]

/-! ### The law of the table -/

structure Holds (k : Nat) (t : FragTable T) (items : List (Option T)) : Prop where
  shape : Shape k t items.length
  items : ∀ j value, items[j]? = some (some value) → cell k t j = some (some value)

private theorem lt_of_item {value : T} (item : items[j]? = some (some value)) : j < items.length := by
  by_contra out
  rw [List.getElem?_eq_none (Nat.not_lt.mp out)] at item
  cases item

theorem Holds.agrees (holds : Holds k t items) (small : items.length ≤ maxInt) : Agrees t items where
  length := holds.shape.length_eq small
  get := by
    intro i inside
    obtain ⟨c,got,old⟩ := holds.shape.get small inside
    refine ⟨c,got,fun value same => ?_⟩
    have := holds.items i value (by rw [List.getElem?_eq_getElem inside,same])
    exact Option.some.inj (old.symm.trans this)

theorem Shape.disagrees (shape : Shape k t items.length) (large : ¬items.length ≤ maxInt) : ¬Agrees t items := by
  intro agrees
  have := int_le items.length
  rw [← shape.length_eq_int,agrees.length] at this
  omega

theorem Holds.create (power : 0 < k ∧ k < 31) :
    ∃ t : FragTable T, FragTable.create k = some t ∧ Holds k t [] := by
  have one : 1 <<< k = 2 ^ k := Nat.one_shiftLeft k
  refine ⟨_,by rw [FragTable.create,if_pos power,one],⟨⟨power,rfl,rfl,rfl,?_,?_,?_,?_,⟨0,by decide,rfl⟩,by simp⟩,?_⟩⟩
  · intro fragment member
    cases member
  · positivity
  · push_cast
    exact le_refl _
  · push_cast
    simp
  · intro j value item
    simp at item

/-- An operation keeps the table right where there is room for it, else it fails or gives a wrong length. -/
def Answers (k : Nat) (t : FragTable T) (items : List (Option T)) (op : Op T) : Prop :=
  (op.Room k items.length → ∃ t', op.apply t = some t' ∧ Holds k t' (op.onList items) ∧ (op.onList items).length ≤ maxInt) ∧
    (¬op.Room k items.length → ∀ t', op.apply t = some t' → ¬Agrees t' (op.onList items))

section Apply
variable (holds : Holds k t items)
include holds

theorem Holds.apply_add (value : T) :
    Answers k t items (.add value) := by
  have length : (items ++ [some value]).length = items.length + 1 := by simp
  obtain ⟨goes,fails⟩ := holds.shape.add value
  by_cases room : items.length + 1 ≤ 32768 * 2 ^ k
  · obtain ⟨t',added,kept,cells⟩ := goes room
    rw [← length] at kept
    refine ⟨fun both => ⟨t',added,⟨kept,fun j v item => ?_⟩,by rw [Op.onList,length]; exact both.2⟩,fun large t₁ applied => ?_⟩
    · rw [cells j (length ▸ lt_of_item item)]
      by_cases last : j = items.length
      · rw [if_pos last]
        rw [Op.onList,last,List.getElem?_concat_length] at item
        rw [Option.some.inj item]
      · have before : j < items.length := by
          have := lt_of_item item
          rw [Op.onList,length] at this
          omega
        rw [if_neg last]
        rw [Op.onList,List.getElem?_append_left before] at item
        exact holds.items j v item
    · obtain rfl : t' = t₁ := Option.some.inj (added.symm.trans applied)
      exact kept.disagrees fun counted => large ⟨room,length ▸ counted⟩
  · exact ⟨fun both => absurd both.1 room,fun _ t₁ applied => by
      rw [Op.apply,fails room] at applied
      cases applied⟩

theorem Holds.apply_alloc (count : Nat) :
    Answers k t items (.alloc count) := by
  have length : (items ++ List.replicate count (none : Option T)).length = items.length + count := by simp
  obtain ⟨goes,fails⟩ := holds.shape.alloc count
  by_cases room : items.length + count < 32768 * 2 ^ k
  · obtain ⟨index,t',grown,kept,cells⟩ := goes room
    rw [← length] at kept
    refine ⟨fun both => ⟨t',by rw [Op.apply,grown]; rfl,⟨kept,fun j v item => ?_⟩,by rw [Op.onList,length]; exact both.2⟩,
      fun large t₁ applied => ?_⟩
    · by_cases before : j < items.length
      · rw [Op.onList,List.getElem?_append_left before] at item
        rw [cells j before]
        exact holds.items j v item
      · rw [Op.onList,List.getElem?_append_right (Nat.not_lt.mp before),List.getElem?_replicate] at item
        split at item <;> cases item
    · rw [Op.apply,grown] at applied
      obtain rfl : t' = t₁ := Option.some.inj applied
      exact kept.disagrees fun counted => large ⟨room,length ▸ counted⟩
  · exact ⟨fun both => absurd both.1 room,fun _ t₁ applied => by
      rw [Op.apply,fails room] at applied
      cases applied⟩

theorem Holds.apply_set (small : items.length ≤ maxInt) (valid : index < items.length) (value : T) :
    Answers k t items (.set index value) := by
  refine ⟨fun _ => ?_,fun none => absurd trivial none⟩
  obtain ⟨t',put,kept,cells⟩ := holds.shape.put small valid (some value)
  have length : (items.set index (some value)).length = items.length := List.length_set
  refine ⟨t',put,⟨by rw [Op.onList,length]; exact kept,fun j v item => ?_⟩,by rw [Op.onList,length]; exact small⟩
  rw [cells]
  by_cases here : j = index
  · rw [if_pos here]
    rw [Op.onList,here,List.getElem?_set_self valid] at item
    rw [Option.some.inj item]
  · rw [if_neg here]
    rw [Op.onList,List.getElem?_set_ne (Ne.symm here)] at item
    exact holds.items j v item

theorem Holds.apply_insert (small : items.length ≤ maxInt) (valid : index ≤ items.length) (value : T) :
    Answers k t items (.insert index value) := by
  obtain ⟨goes,fails⟩ := holds.shape.insert small valid value
  have length : (items.insertIdx index (some value)).length = items.length + 1 := by
    rw [List.length_insertIdx,if_pos (show index ≤ items.length from valid)]
  refine ⟨fun room => ?_,fun many t₁ applied => by rw [Op.apply,fails many] at applied; cases applied⟩
  obtain ⟨t',inserted,kept,cells⟩ := goes room
  refine ⟨t',inserted,⟨by rw [Op.onList,length]; exact kept,fun j v item => ?_⟩,by rw [Op.onList,length]; exact room.2⟩
  have before := lt_of_item item
  rw [Op.onList,length] at before
  rw [cells j before]
  rw [Op.onList,List.getElem?_insertIdx] at item
  split
  · rename_i low
    rw [if_pos low] at item
    exact holds.items j v item
  · rename_i low
    rw [if_neg low] at item
    split
    · rename_i here
      rw [if_pos here,if_pos (by omega)] at item
      rw [Option.some.inj item]
    · rename_i here
      rw [if_neg here] at item
      exact holds.items (j - 1) v item

theorem Holds.apply_shrink (small : items.length ≤ maxInt) (valid : new < items.length) :
    Answers k t items (.shrink new) := by
  obtain ⟨goes,fails⟩ := holds.shape.shrink small valid
  have length : (items.take new).length = new := List.length_take_of_le (Nat.le_of_lt valid)
  refine ⟨fun room => ?_,fun many t₁ applied => by rw [Op.apply,fails many] at applied; cases applied⟩
  obtain ⟨t',shrunk,kept,cells⟩ := goes room
  refine ⟨t',shrunk,⟨by rw [Op.onList,length]; exact kept,fun j v item => ?_⟩,
    by rw [Op.onList,length]; exact (Nat.le_of_lt valid).trans small⟩
  have before := lt_of_item item
  rw [Op.onList,length] at before
  rw [cells j before]
  rw [Op.onList,List.getElem?_take_of_lt before] at item
  exact holds.items j v item

end Apply

theorem Holds.apply (holds : Holds k t items) (small : items.length ≤ maxInt) {op : Op T} (valid : op.Valid items.length) :
    Answers k t items op := by
  cases op with
  | add value => exact holds.apply_add value
  | alloc count => exact holds.apply_alloc count
  | set index value => exact holds.apply_set small valid value
  | insert index value => exact holds.apply_insert small valid value
  | removeAt index =>
    exact ⟨False.elim,fun _ t₁ applied => by
      rw [Op.apply,holds.shape.removeAt_none small valid] at applied
      cases applied⟩
  | shrink new => exact holds.apply_shrink small valid

theorem Holds.run (ops : List (Op T)) : ∀ {t : FragTable T} {items : List (Option T)}, Holds k t items →
    items.length ≤ maxInt → Along Op.Valid items ops → (AgreesAlong t items ops ↔ Along (Op.Room k) items ops) := by
  induction ops with
  | nil =>
    intro t items holds small _
    exact iff_of_true (holds.agrees small) trivial
  | cons op ops ih =>
    intro t items holds small valid
    obtain ⟨goes,fails⟩ := holds.apply small valid.1
    constructor
    · rintro ⟨-,t',applied,later⟩
      have agrees : Agrees t' (op.onList items) := by
        cases ops with
        | nil => exact later
        | cons _ _ => exact later.1
      have room : op.Room k items.length := by
        by_contra none
        exact fails none t' applied agrees
      obtain ⟨t₁,applied₁,holds₁,small₁⟩ := goes room
      obtain rfl : t₁ = t' := Option.some.inj (applied₁.symm.trans applied)
      exact ⟨room,(ih holds₁ small₁ valid.2).mp later⟩
    · rintro ⟨room,later⟩
      obtain ⟨t₁,applied₁,holds₁,small₁⟩ := goes room
      exact ⟨holds.agrees small,t₁,applied₁,(ih holds₁ small₁ valid.2).mpr later⟩

end

/-- The table behaves as a list along operations with valid indices if and only if the size of a fragment
    is an `int`, nothing is removed and at each operation there is room for the fragments and the items. -/
theorem agrees_iff_room (k : Nat) (positive : 0 < k) (ops : List (Op T)) (valid : Along Op.Valid [] ops) :
    (∃ t, FragTable.create k = some t ∧ AgreesAlong t [] ops) ↔ k < 31 ∧ Along (Op.Room k) [] ops := by
  constructor
  · rintro ⟨t,created,agrees⟩
    have power : 0 < k ∧ k < 31 := by
      by_contra large
      rw [FragTable.create,if_neg large] at created
      cases created
    obtain ⟨t₁,created₁,holds⟩ := Holds.create (T := T) power
    obtain rfl : t₁ = t := Option.some.inj (created₁.symm.trans created)
    exact ⟨power.2,(holds.run ops (Nat.zero_le _) valid).mp agrees⟩
  · rintro ⟨power,room⟩
    obtain ⟨t,created,holds⟩ := Holds.create (T := T) ⟨positive,power⟩
    exact ⟨t,created,(holds.run ops (Nat.zero_le _) valid).mpr room⟩

/-- Three items, one of which is inserted, and an allocation over two fragments. -/
theorem agrees_iff_room_small :
    (∃ t : FragTable Nat, FragTable.create 1 = some t ∧
      AgreesAlong t [] [.add 5,.add 6,.insert 1 7,.alloc 3,.shrink 4]) ↔
      1 < 31 ∧ Along (Op.Room 1) [] [.add 5,.add 6,.insert 1 (7 : Nat),.alloc 3,.shrink 4] :=
  agrees_iff_room 1 Nat.one_pos _ (by simp [Along,Op.Valid,Op.onList])

/-- The only item of a table cannot be removed. -/
theorem removeAt_fails : ¬∀ (k : Nat) (ops : List (Op Nat)), 0 < k → Along Op.Valid [] ops →
    ∃ t, FragTable.create k = some t ∧ AgreesAlong t [] ops := by
  intro law
  obtain ⟨t,created,agrees⟩ := law 1 [.add 5,.removeAt 0] Nat.one_pos (by simp [Along,Op.Valid,Op.onList])
  obtain ⟨t₁,created₁,holds⟩ := Holds.create (T := Nat) (k := 1) ⟨Nat.one_pos,by decide⟩
  obtain rfl : t₁ = t := Option.some.inj (created₁.symm.trans created)
  exact ((holds.run [.add 5,.removeAt 0] (Nat.zero_le _) (by simp [Along,Op.Valid,Op.onList])).mp agrees).2.1

end Otawa.Frag
