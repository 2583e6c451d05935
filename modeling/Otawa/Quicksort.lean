import Mathlib.Algebra.Group.Nat.Defs
import Mathlib.Data.List.Perm.Basic
import Mathlib.Logic.Function.Basic

/-!
The quick sort of `elm::genstruct`, with its stack of intervals in two arrays of 300
entries. The elements of an interval are moved through a hole, first the one where the
pivot was. The smaller part of an interval is on the top of the stack, so that the size
of an entry is halved from each place to the next one.
-/
namespace Otawa.Quicksort

variable {T : Type}

def max : Nat := 300

structure Total (compare : T → T → Int) : Prop where
  swap : ∀ a b, 0 ≤ compare a b ↔ compare b a ≤ 0
  trans : ∀ a b c, compare a b ≤ 0 → compare b c ≤ 0 → compare a c ≤ 0

section
variable (compare : T → T → Int)

/-- `array[i] = x`, none out of the array. -/
def write (array : List T) (i : Nat) (x : T) : Option (List T) := if i < array.length then some (array.set i x) else none

/-- `while(compare(array[R], piv) >= 0 && L < R) R--` -/
def down (piv : T) (array : List T) (L : Nat) : Nat → Option Nat
  | 0 => array[0]?.map fun _ => 0
  | R + 1 => array[R + 1]?.bind fun x => if 0 ≤ compare x piv ∧ L < R + 1 then down piv array L R else some (R + 1)

/-- `while(compare(array[L], piv) <= 0 && L < R) L++` -/
def up (piv : T) (array : List T) (R : Nat) (L : Nat) : Option Nat :=
  array[L]?.bind fun x => if compare x piv ≤ 0 ∧ L < R then up piv array R (L + 1) else some L
termination_by R - L

/-- The loop that moves the elements on the wrong side, for some turns: the array and the place of the hole. -/
def partition (piv : T) : Nat → List T → Nat → Nat → Option (List T × Nat)
  | 0, _, _, _ => none
  | turns + 1, array, L, R =>
    if L < R then
      (down compare piv array L R).bind fun R =>
      (if L < R then array[R]?.bind fun x => (write array L x).map fun array => (array,L + 1)
        else some (array,L)).bind fun (array,L) =>
      (up compare piv array R L).bind fun L =>
      (if L < R then array[L]?.bind fun x => (write array R x).map fun array => (array,R - 1)
        else some (array,R)).bind fun (array,R) =>
      partition piv turns array L R
    else some (array,L)

/-- The array, the bounds of the intervals and the number of intervals, `i + 1`. -/
structure State (T : Type) where
  array : List T
  beg : Nat → Nat
  fin : Nat → Nat
  count : Nat

/-- A turn of the main loop. An interval is empty when its last index is before its first one. -/
def turn (s : State T) (i : Nat) : Option (State T) :=
  if i < max then
    let L := s.beg i
    let R := s.fin i - 1
    if L < R then
      s.array[L]?.bind fun piv =>
      (partition compare piv (R - L + 1) s.array L R).bind fun (array,L) =>
      (write array L piv).bind fun array =>
      if i + 1 < max then
        let beg := Function.update s.beg (i + 1) (L + 1)
        let fin := Function.update (Function.update s.fin (i + 1) (s.fin i)) i L
        if (fin (i + 1) : Int) - beg (i + 1) > fin i - beg i then
          some ⟨array,Function.update (Function.update beg (i + 1) (beg i)) i (beg (i + 1)),
            Function.update (Function.update fin (i + 1) (fin i)) i (fin (i + 1)),i + 2⟩
        else some ⟨array,beg,fin,i + 2⟩
      else none
    else some { s with count := i }
  else none

def loop : Nat → State T → Option (List T)
  | 0, _ => none
  | turns + 1, s =>
    match s.count with
    | 0 => some s.array
    | i + 1 => (turn compare s i).bind (loop turns)

/-- `quicksort`, with turns enough for its main loop. -/
def quicksort (array : List T) : Option (List T) :=
  loop compare (2 * array.length + 2) ⟨array,fun _ => 0,fun i => if i = 0 then array.length else 0,1⟩

end

/-! ### Moves in an interval -/

/-- The second array has the elements of the first one, and those of an interval were moved in it. -/
structure Moved (lo hi : Nat) (a b : List T) : Prop where
  perm : b.Perm a
  outside : ∀ j, ¬(lo ≤ j ∧ j < hi) → b[j]? = a[j]?
  inside : ∀ j, lo ≤ j → j < hi → ∃ i, lo ≤ i ∧ i < hi ∧ b[j]? = a[i]?

section
variable {lo hi i j : Nat} {a b c : List T} {x piv : T}

theorem Moved.refl (lo hi : Nat) (a : List T) : Moved lo hi a a :=
  ⟨.refl a,fun _ _ => rfl,fun j low high => ⟨j,low,high,rfl⟩⟩

theorem Moved.trans (first : Moved lo hi a b) (second : Moved lo hi b c) : Moved lo hi a c where
  perm := second.perm.trans first.perm
  outside j out := (second.outside j out).trans (first.outside j out)
  inside j low high := by
    obtain ⟨i,low',high',same⟩ := second.inside j low high
    obtain ⟨i',low'',high'',same'⟩ := first.inside i low' high'
    exact ⟨i',low'',high'',same.trans same'⟩

theorem moved_swap (first : i < a.length) (second : j < a.length) (inside : lo ≤ i ∧ i < hi) (inside' : lo ≤ j ∧ j < hi) :
    Moved lo hi a ((a.set i a[j]).set j a[i]) where
  perm := List.set_set_perm first second
  outside := by
    intro l out
    have differ : j ≠ l := fun same => out (same ▸ inside')
    have differ' : i ≠ l := fun same => out (same ▸ inside)
    rw [List.getElem?_set_ne differ,List.getElem?_set_ne differ']
  inside := by
    intro l low high
    by_cases here : j = l
    · subst here
      exact ⟨i,inside.1,inside.2,by simp [first,second]⟩
    by_cases there : i = l
    · subst there
      exact ⟨j,inside'.1,inside'.2,by
        rw [List.getElem?_set_ne here,List.getElem?_set_self first,List.getElem?_eq_getElem second]⟩
    · exact ⟨l,low,high,by rw [List.getElem?_set_ne here,List.getElem?_set_ne there]⟩

theorem Moved.hole (moved : Moved lo hi a (b.set i piv)) (inside : lo ≤ i ∧ i < hi) (inside' : lo ≤ j ∧ j < hi)
    (differ : i ≠ j) (first : i < b.length) (element : b[j]? = some x) : Moved lo hi a ((b.set i x).set j piv) := by
  obtain ⟨second,rfl⟩ := List.getElem?_eq_some_iff.mp element
  have swapped := moved_swap (a := b.set i piv) (by simpa using first) (by simpa using second) inside inside'
  rw [List.getElem_set_self,List.getElem_set_ne differ,List.set_set] at swapped
  exact moved.trans swapped

end

section
variable {compare : T → T → Int} {piv : T} {lo hi : Nat} {origin : List T}

theorem write_eq {a : List T} {i : Nat} (room : i < a.length) (x : T) : write a i x = some (a.set i x) := if_pos room

theorem down_spec (compare : T → T → Int) (piv : T) {a : List T} {L : Nat} : ∀ R, L ≤ R → R < a.length →
    ∃ R', down compare piv a L R = some R' ∧ L ≤ R' ∧ R' ≤ R ∧
      (∀ j x, R' < j → j ≤ R → a[j]? = some x → 0 ≤ compare x piv) ∧
      (L < R' → ∃ x, a[R']? = some x ∧ compare x piv ≤ 0) := by
  intro R
  induction R with
  | zero =>
    intro below inside
    refine ⟨0,by simp [down,inside],below,Nat.le_refl _,fun j x above ends => by omega,fun above => by omega⟩
  | succ R ih =>
    intro below inside
    have here : a[R + 1]? = some a[R + 1] := List.getElem?_eq_getElem inside
    rw [down,here,Option.bind_some]
    by_cases goes : 0 ≤ compare a[R + 1] piv ∧ L < R + 1
    · rw [if_pos goes]
      obtain ⟨R',found,low,high,greater,stops⟩ := ih (by omega) (by omega)
      refine ⟨R',found,low,by omega,fun j x above ends element => ?_,stops⟩
      by_cases last : j = R + 1
      · subst last
        rw [here] at element
        exact Option.some.inj element ▸ goes.1
      · exact greater j x above (by omega) element
    · rw [if_neg goes]
      refine ⟨R + 1,rfl,below,Nat.le_refl _,fun j x above ends => by omega,fun above => ⟨_,here,?_⟩⟩
      exact Int.le_of_lt (Int.not_le.mp fun high => goes ⟨high,above⟩)

theorem up_spec (compare : T → T → Int) (piv : T) (a : List T) {R : Nat} : ∀ n L, R - L = n → L ≤ R → R < a.length →
    ∃ L', up compare piv a R L = some L' ∧ L ≤ L' ∧ L' ≤ R ∧
      (∀ j x, L ≤ j → j < L' → a[j]? = some x → compare x piv ≤ 0) ∧
      (L' < R → ∃ x, a[L']? = some x ∧ 0 ≤ compare x piv) := by
  intro n
  induction n with
  | zero =>
    intro L size below inside
    have here : a[L]? = some a[L] := List.getElem?_eq_getElem (by omega)
    refine ⟨L,?_,Nat.le_refl _,below,fun j x low high => by omega,fun less => by omega⟩
    rw [up,here,Option.bind_some,if_neg (fun goes => by omega)]
  | succ n ih =>
    intro L size below inside
    have here : a[L]? = some a[L] := List.getElem?_eq_getElem (by omega)
    rw [up,here,Option.bind_some]
    by_cases goes : compare a[L] piv ≤ 0 ∧ L < R
    · rw [if_pos goes]
      obtain ⟨L',found,low,high,less,stops⟩ := ih (L + 1) (by omega) (by omega) inside
      refine ⟨L',found,by omega,high,fun j x from_ before element => ?_,stops⟩
      by_cases first : j = L
      · subst first
        rw [here] at element
        exact Option.some.inj element ▸ goes.1
      · exact less j x (by omega) before element
    · rw [if_neg goes]
      refine ⟨L,rfl,Nat.le_refl _,below,fun j x low high => by omega,fun less => ⟨_,here,?_⟩⟩
      exact Int.le_of_lt (Int.not_le.mp fun low => goes ⟨low,less⟩)

/-- The elements before the first index and after the second one are on their sides of the pivot. -/
structure Sides (compare : T → T → Int) (piv : T) (lo hi : Nat) (a : List T) (L R : Nat) : Prop where
  low : lo ≤ L
  order : L ≤ R
  high : R < hi
  less : ∀ j x, lo ≤ j → j < L → a[j]? = some x → compare x piv ≤ 0
  greater : ∀ j x, R < j → j < hi → a[j]? = some x → 0 ≤ compare x piv

theorem partition_spec (compare : T → T → Int) (piv : T) (lo hi : Nat) {origin : List T} (inside : hi ≤ origin.length) : ∀ (turns : Nat) (a : List T) (L R : Nat),
    Sides compare piv lo hi a L R → a.length = origin.length → R - L < turns → Moved lo hi origin (a.set L piv) →
    ∃ a' p, partition compare piv turns a L R = some (a',p) ∧ a'.length = origin.length ∧
      Sides compare piv lo hi a' p p ∧ Moved lo hi origin (a'.set p piv) := by
  intro turns
  induction turns with
  | zero => intro a L R _ _ enough; exact absurd enough (Nat.not_lt_zero _)
  | succ turns ih =>
    intro a L R sides length enough moved
    have ⟨low,order,high,less,greater⟩ := sides
    rw [partition]
    by_cases goes : L < R
    case neg =>
      obtain rfl : L = R := by omega
      exact ⟨a,L,if_neg goes,length,sides,moved⟩
    have more : 0 < turns := by omega
    rw [if_pos goes]
    obtain ⟨R₁,down,low₁,high₁,greater₁,stop₁⟩ := down_spec compare piv R order
      (show R < a.length by omega)
    have greater' : ∀ j x, R₁ < j → j < hi → a[j]? = some x → 0 ≤ compare x piv := by
      intro j x above ends element
      by_cases scanned : j ≤ R
      · exact greater₁ j x above scanned element
      · exact greater j x (by omega) ends element
    rw [down,Option.bind_some]
    by_cases left : L < R₁
    case neg =>
      -- the indices met at the hole
      obtain rfl : L = R₁ := by omega
      obtain ⟨L₂,up,low₂,high₂,-,-⟩ := up_spec compare piv a _ L rfl (Nat.le_refl L)
        (show L < a.length by omega)
      obtain rfl : L₂ = L := by omega
      simp only [if_neg left,Option.bind_some,up]
      exact ih a L₂ L₂ ⟨low,Nat.le_refl _,by omega,less,greater'⟩ length (by omega) moved
    obtain ⟨x,element,small⟩ := stop₁ left
    have moved₁ := moved.hole (j := R₁) ⟨low,by omega⟩ ⟨by omega,by omega⟩ (by omega) (by omega) element
    have length₁ : (a.set L x).length = origin.length := by rw [List.length_set,length]
    simp only [if_pos left,element,Option.bind_some,write_eq (show L < a.length by omega),Option.map_some]
    obtain ⟨L₂,up,low₂,high₂,less₂,stop₂⟩ := up_spec compare piv (a.set L x) _ (L + 1) rfl
      (show L + 1 ≤ R₁ by omega) (by omega)
    have less' : ∀ j y, lo ≤ j → j < L₂ → (a.set L x)[j]? = some y → compare y piv ≤ 0 := by
      intro j y from_ before here
      by_cases scanned : L + 1 ≤ j
      · exact less₂ j y scanned before here
      by_cases last : j = L
      · subst last
        rw [List.getElem?_set_self (by omega)] at here
        exact Option.some.inj here ▸ small
      · rw [List.getElem?_set_ne (Ne.symm last)] at here
        exact less j y from_ (by omega) here
    have greater'' : ∀ j y, R₁ < j → j < hi → (a.set L x)[j]? = some y → 0 ≤ compare y piv := by
      intro j y above ends here
      rw [List.getElem?_set_ne (by omega)] at here
      exact greater' j y above ends here
    rw [up,Option.bind_some]
    by_cases right : L₂ < R₁
    · obtain ⟨y,element₂,large⟩ := stop₂ right
      have moved₂ := moved₁.hole (j := L₂) ⟨by omega,by omega⟩ ⟨by omega,by omega⟩ (by omega) (by omega) element₂
      simp only [if_pos right,element₂,Option.bind_some,write_eq (show R₁ < (a.set L x).length by omega),Option.map_some]
      refine ih _ L₂ (R₁ - 1) ⟨by omega,by omega,by omega,fun j z from_ before here => ?_,fun j z above ends here => ?_⟩
        (by rw [List.length_set,length₁]) (by omega) moved₂
      · rw [List.getElem?_set_ne (by omega)] at here
        exact less' j z from_ before here
      · by_cases last : j = R₁
        · subst last
          rw [List.getElem?_set_self (by omega)] at here
          exact Option.some.inj here ▸ large
        · rw [List.getElem?_set_ne (Ne.symm last)] at here
          exact greater'' j z (by omega) ends here
    · obtain rfl : L₂ = R₁ := by omega
      simp only [if_neg right,Option.bind_some]
      exact ih _ L₂ L₂ ⟨by omega,Nat.le_refl _,by omega,less',greater''⟩ length₁ (by rwa [Nat.sub_self]) moved₁

/-! ### The stack of intervals -/

/-- What holds after each turn: two elements that are not in one interval of the stack are in order. -/
structure Inv (compare : T → T → Int) (origin : List T) (s : State T) : Prop where
  perm : s.array.Perm origin
  few : s.count ≤ 31
  bounds : ∀ j < s.count, s.beg j ≤ s.fin j ∧ s.fin j ≤ origin.length
  apart : ∀ j < s.count, ∀ l < s.count, j ≠ l → s.fin j ≤ s.beg l ∨ s.fin l ≤ s.beg j
  halved : ∀ j < s.count, 2 ^ j * (s.fin j - s.beg j) ≤ origin.length
  ordered : ∀ x y u v, x < y → s.array[x]? = some u → s.array[y]? = some v →
    (∀ j < s.count, ¬(s.beg j ≤ x ∧ y < s.fin j)) → compare u v ≤ 0

/-- The turns that the first intervals take at most. -/
def weight (s : State T) : Nat → Nat
  | 0 => 0
  | n + 1 => weight s n + (2 * (s.fin n - s.beg n) + 1)

theorem weight_congr {s s' : State T} : ∀ {n : Nat}, (∀ j < n, s'.beg j = s.beg j ∧ s'.fin j = s.fin j) →
    weight s' n = weight s n := by
  intro n
  induction n with
  | zero => intro _; rfl
  | succ n ih =>
    intro same
    obtain ⟨first,second⟩ := same n (Nat.lt_succ_self n)
    rw [weight,weight,first,second,ih fun j before => same j (Nat.lt_succ_of_lt before)]

/-- An interval is replaced by its parts before and after the place of the pivot, the smaller one on the top. -/
structure Split (s s' : State T) (i p : Nat) : Prop where
  count : s'.count = i + 2
  below : ∀ j < i, s'.beg j = s.beg j ∧ s'.fin j = s.fin j
  parts : s'.beg i = s.beg i ∧ s'.fin i = p ∧ s'.beg (i + 1) = p + 1 ∧ s'.fin (i + 1) = s.fin i ∨
    s'.beg i = p + 1 ∧ s'.fin i = s.fin i ∧ s'.beg (i + 1) = s.beg i ∧ s'.fin (i + 1) = p
  smaller : s'.fin (i + 1) - s'.beg (i + 1) ≤ s'.fin i - s'.beg i

theorem turn_spec {s : State T} {i : Nat} (inv : Inv compare origin s) (small : origin.length < 2 ^ 31)
    (top : s.count = i + 1) :
    (s.fin i ≤ s.beg i + 1 ∧ turn compare s i = some { s with count := i }) ∨
      ∃ s' p piv, turn compare s i = some s' ∧ i < 30 ∧ Split s s' i p ∧ s.beg i ≤ p ∧ p < s.fin i ∧
        Moved (s.beg i) (s.fin i) s.array s'.array ∧ s'.array[p]? = some piv ∧
        Sides compare piv (s.beg i) (s.fin i) s'.array p p := by
  have halved := inv.halved i (by omega)
  have length := inv.perm.length_eq
  obtain ⟨order,inside⟩ := inv.bounds i (by omega)
  by_cases filled : s.beg i < s.fin i - 1
  case neg =>
    have few := inv.few
    exact .inl ⟨by omega,by rw [turn,if_pos (show i < max by rw [max]; omega)]; exact if_neg filled⟩
  right
  have few : i < 30 := by
    by_contra many
    have : 2 ^ 30 ≤ 2 ^ i := Nat.pow_le_pow_right (by decide) (by omega)
    have := Nat.mul_le_mul this (show 2 ≤ s.fin i - s.beg i by omega)
    omega
  have element : s.array[s.beg i]? = some s.array[s.beg i] := List.getElem?_eq_getElem (by omega)
  generalize s.array[s.beg i] = piv at element
  have start : s.array.set (s.beg i) piv = s.array := by
    obtain ⟨here,same⟩ := List.getElem?_eq_some_iff.mp element
    rw [← same,List.set_getElem_self]
  obtain ⟨a,p,parted,length',sides,moved⟩ := partition_spec compare piv (s.beg i) (s.fin i)
    (show s.fin i ≤ s.array.length by omega) (s.fin i - 1 - s.beg i + 1) s.array (s.beg i) (s.fin i - 1)
    ⟨Nat.le_refl _,by omega,by omega,fun j x low high => by omega,fun j x low high => by omega⟩ rfl (Nat.lt_succ_self _)
    (by rw [start]; exact .refl _ _ _)
  have ⟨low,_,high,less,greater⟩ := sides
  have place : (a.set p piv)[p]? = some piv := List.getElem?_set_self (by omega)
  have sides' : Sides compare piv (s.beg i) (s.fin i) (a.set p piv) p p := by
    refine ⟨low,Nat.le_refl p,high,fun j x from_ before here => ?_,fun j x above ends here => ?_⟩
    · rw [List.getElem?_set_ne (by omega)] at here
      exact less j x from_ before here
    · rw [List.getElem?_set_ne (by omega)] at here
      exact greater j x above ends here
  have self : ∀ n : Nat, n + 1 ≠ n := fun n => by omega
  rw [turn,if_pos (show i < max by rw [max]; omega)]
  simp only [if_pos filled,element,Option.bind_some,parted,write_eq (show p < a.length by omega),
    if_pos (show i + 1 < max by rw [max]; omega)]
  split
  · rename_i larger
    refine ⟨_,p,piv,rfl,few,⟨rfl,fun j before => ?_,.inr ?_,?_⟩,low,high,moved,place,sides'⟩
    · simp [show j ≠ i by omega,show j ≠ i + 1 by omega]
    · simp [self]
    · simp [self] at larger ⊢
      omega
  · rename_i larger
    refine ⟨_,p,piv,rfl,few,⟨rfl,fun j before => ?_,.inl ?_,?_⟩,low,high,moved,place,sides'⟩
    · simp [show j ≠ i by omega,show j ≠ i + 1 by omega]
    · simp [self]
    · simp [self] at larger ⊢
      omega

private theorem Total.refl (total : Total compare) (a : T) : compare a a ≤ 0 := by
  rcases Int.le_total (compare a a) 0 with low | high
  · exact low
  · exact (total.swap a a).mp high

theorem Split.ordered {s s' : State T} {i p : Nat} (split : Split s s' i p) (inv : Inv compare origin s)
    (total : Total compare) (top : s.count = i + 1) (low : s.beg i ≤ p) (high : p < s.fin i)
    (moved : Moved (s.beg i) (s.fin i) s.array s'.array) (place : s'.array[p]? = some piv)
    (sides : Sides compare piv (s.beg i) (s.fin i) s'.array p p) (x y : Nat) (u v : T) (less : x < y)
    (first : s'.array[x]? = some u) (second : s'.array[y]? = some v)
    (outside : ∀ j < s'.count, ¬(s'.beg j ≤ x ∧ y < s'.fin j)) : compare u v ≤ 0 := by
  have count := split.count
  have older : ∀ j < i, ¬(s.beg j ≤ x ∧ y < s.fin j) := by
    intro j before
    have := outside j (by omega)
    rwa [(split.below j before).1,(split.below j before).2] at this
  by_cases inX : s.beg i ≤ x ∧ x < s.fin i <;> by_cases inY : s.beg i ≤ y ∧ y < s.fin i
  · -- the pivot is between them
    have small : x ≤ p → compare u piv ≤ 0 := by
      intro before
      by_cases here : x = p
      · subst here
        rw [Option.some.inj (first.symm.trans place)]
        exact total.refl piv
      · exact sides.less x u inX.1 (by omega) first
    have large : p ≤ y → compare piv v ≤ 0 := by
      intro after
      by_cases here : p = y
      · subst here
        rw [Option.some.inj (second.symm.trans place)]
        exact total.refl piv
      · exact (total.swap v piv).mp (sides.greater y v (by omega) inY.2 second)
    have across : x ≤ p ∧ p ≤ y := by
      have part := outside i (by omega)
      have part' := outside (i + 1) (by omega)
      rcases split.parts with parts | parts <;> omega
    exact total.trans u piv v (small across.1) (large across.2)
  · obtain ⟨x',from_,before,same⟩ := moved.inside x inX.1 inX.2
    rw [moved.outside y inY] at second
    refine inv.ordered x' y u v (by omega) (same ▸ first) second fun j inside both => ?_
    by_cases last : j = i
    · subst last
      omega
    · have := inv.apart j inside i (by omega) last
      omega
  · obtain ⟨y',from_,before,same⟩ := moved.inside y inY.1 inY.2
    rw [moved.outside x inX] at first
    refine inv.ordered x y' u v (by omega) first (same ▸ second) fun j inside both => ?_
    by_cases last : j = i
    · subst last
      omega
    · have := inv.apart j inside i (by omega) last
      omega
  · rw [moved.outside x inX] at first
    rw [moved.outside y inY] at second
    refine inv.ordered x y u v less first second fun j inside both => ?_
    by_cases last : j = i
    · subst last
      omega
    · exact older j (by omega) both

theorem Inv.turn {s : State T} {i : Nat} (inv : Inv compare origin s) (small : origin.length < 2 ^ 31)
    (total : Total compare) (top : s.count = i + 1) :
    ∃ s', turn compare s i = some s' ∧ Inv compare origin s' ∧ weight s' s'.count < weight s s.count := by
  rcases turn_spec inv small top with ⟨single,turned⟩ | ⟨s',p,piv,turned,few,split,low,high,moved,place,sides⟩
  · refine ⟨_,turned,⟨inv.perm,?_,fun j before => ?_,fun j before l before' => ?_,fun j before => ?_,?_⟩,?_⟩
    · have := inv.few
      change i ≤ 31
      omega
    · exact inv.bounds j (by rw [top]; exact Nat.lt_succ_of_lt before)
    · exact inv.apart j (by rw [top]; exact Nat.lt_succ_of_lt before) l (by rw [top]; exact Nat.lt_succ_of_lt before')
    · exact inv.halved j (by rw [top]; exact Nat.lt_succ_of_lt before)
    · intro x y u v less first second outside
      refine inv.ordered x y u v less first second fun j before both => ?_
      by_cases last : j = i
      · subst last
        omega
      · exact outside j (show j < i by omega) both
    · have same : weight { s with count := i } i = weight s i := weight_congr fun _ _ => ⟨rfl,rfl⟩
      rw [top,weight]
      change weight { s with count := i } i < _
      omega
  · have count := split.count
    obtain ⟨order,inside⟩ := inv.bounds i (by omega)
    have halved := inv.halved i (by omega)
    have within : ∀ l, i ≤ l → l < i + 2 → s.beg i ≤ s'.beg l ∧ s'.beg l ≤ s'.fin l ∧ s'.fin l ≤ s.fin i := by
      intro l from_ before
      rcases split.parts with parts | parts <;> rcases (show l = i ∨ l = i + 1 by omega) with rfl | rfl <;> omega
    refine ⟨s',turned,⟨moved.perm.trans inv.perm,by omega,?_,?_,?_,?_⟩,?_⟩
    · intro j before
      by_cases below : j < i
      · obtain ⟨first,second⟩ := split.below j below
        rw [first,second]
        exact inv.bounds j (by omega)
      · have := within j (by omega) (by omega)
        omega
    · intro j before l before' differ
      by_cases below : j < i <;> by_cases below' : l < i
      · rw [(split.below j below).1,(split.below j below).2,(split.below l below').1,(split.below l below').2]
        exact inv.apart j (by omega) l (by omega) differ
      · have := inv.apart j (by omega) i (by omega) (by omega)
        have := within l (by omega) (by omega)
        have := split.below j below
        omega
      · have := inv.apart i (by omega) l (by omega) (by omega)
        have := within j (by omega) (by omega)
        have := split.below l below'
        omega
      · rcases split.parts with parts | parts <;>
          rcases (show j = i ∧ l = i + 1 ∨ j = i + 1 ∧ l = i by omega) with ⟨rfl,rfl⟩ | ⟨rfl,rfl⟩ <;> omega
    · intro j before
      by_cases below : j < i
      · rw [(split.below j below).1,(split.below j below).2]
        exact inv.halved j (by omega)
      · rcases (show j = i ∨ j = i + 1 by omega) with rfl | rfl
        · have := within j (Nat.le_refl j) (by omega)
          exact Nat.le_trans (Nat.mul_le_mul_left _ (by omega)) halved
        · have smaller := split.smaller
          refine Nat.le_trans ?_ halved
          rw [Nat.pow_succ,Nat.mul_assoc]
          refine Nat.mul_le_mul_left _ ?_
          rcases split.parts with parts | parts <;> omega
    · exact split.ordered inv total top low high moved place sides
    · rw [count,top,weight,weight,weight,weight_congr split.below]
      rcases split.parts with parts | parts <;> omega

theorem loop_spec (small : origin.length < 2 ^ 31) (total : Total compare) : ∀ (turns : Nat) {s : State T},
    Inv compare origin s → weight s s.count < turns →
    ∃ a, loop compare turns s = some a ∧ a.Perm origin ∧ a.Pairwise fun u v => compare u v ≤ 0 := by
  intro turns
  induction turns with
  | zero => intro s _ enough; exact absurd enough (Nat.not_lt_zero _)
  | succ turns ih =>
    intro s inv enough
    rw [loop]
    cases top : s.count with
    | zero =>
      refine ⟨s.array,rfl,inv.perm,List.pairwise_iff_getElem.mpr fun x y insideX insideY less => ?_⟩
      refine inv.ordered x y _ _ less (List.getElem?_eq_getElem insideX) (List.getElem?_eq_getElem insideY) fun j before => ?_
      omega
    | succ i =>
      obtain ⟨s',turned,inv',less⟩ := inv.turn small total top
      obtain ⟨a,ended,sorted⟩ := ih inv' (by omega)
      refine ⟨a,?_,sorted⟩
      change (Quicksort.turn compare s i).bind (loop compare turns) = some a
      rw [turned,Option.bind_some,ended]

/-- The sort ends, without an access out of the array or of the stack, with the elements in order. -/
theorem quicksort_sorts (total : Total compare) (array : List T) (small : array.length < 2 ^ 31) :
    ∃ sorted, quicksort compare array = some sorted ∧ sorted.Perm array ∧ sorted.Pairwise fun u v => compare u v ≤ 0 := by
  refine loop_spec small total _ ⟨.refl array,Nat.le_add_left 1 30,?_,?_,?_,?_⟩ ?_
  · intro j first
    obtain rfl : j = 0 := Nat.lt_one_iff.mp first
    exact ⟨Nat.zero_le _,Nat.le_refl _⟩
  · intro j first l first' differ
    exact absurd ((Nat.lt_one_iff.mp first).trans (Nat.lt_one_iff.mp first').symm) differ
  · intro j first
    obtain rfl : j = 0 := Nat.lt_one_iff.mp first
    simp
  · intro x y u v _ _ second outside
    exact absurd ⟨Nat.zero_le x,(List.getElem?_eq_some_iff.mp second).1⟩ (outside 0 Nat.one_pos)
  · simp [weight]

/-- Integers in their order. -/
theorem quicksort_sorts_ints : ∃ sorted, quicksort (fun a b : Int => a - b) [3,1,2,1] = some sorted ∧
    sorted.Perm [3,1,2,1] ∧ sorted.Pairwise fun u v => u - v ≤ 0 :=
  quicksort_sorts ⟨fun a b => by omega,fun a b c => by omega⟩ [3,1,2,1] (by decide)

end
end Otawa.Quicksort
