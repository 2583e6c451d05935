import Mathlib.Algebra.Order.Group.Nat
import Mathlib.Data.List.Basic
import Mathlib.Tactic.Common

/-!
An array of items kept in pages that a table finds, each page being a block of a
heap that other tables may share; the items of a page may be stored backwards.
What is read and written through the table is the one array, and what belongs
to other tables is left as it is.
-/
namespace Otawa.Paged

/-! ### Arrays -/

section
variable {α : Type*}

def overwrite (f : Nat → α) (a : Nat) (items : List α) (x : Nat) : α := (if a ≤ x then items[x - a]? else none).getD (f x)

def slice (f : Nat → α) (a n : Nat) : List α := (List.range n).map fun i => f (a + i)

def splice (i : Nat) (items page : List α) : List α := page.take i ++ items ++ page.drop (i + items.length)

theorem length_splice {i : Nat} {items page : List α} (room : i + items.length ≤ page.length) : (splice i items page).length = page.length := by
  simp only [splice,List.length_append,List.length_take,List.length_drop]
  omega

theorem getElem?_splice {i : Nat} {items page : List α} (room : i + items.length ≤ page.length) (k : Nat) :
    (splice i items page)[k]? = (if i ≤ k then items[k - i]? else none).or page[k]? := by
  rw [splice,List.append_assoc]
  have front : (page.take i).length = i := by
    rw [List.length_take]
    omega
  by_cases before : k < i
  · rw [List.getElem?_append_left (by omega),List.getElem?_take_of_lt before,if_neg (by omega)]
    rfl
  · rw [List.getElem?_append_right (by omega),front,if_pos (by omega)]
    by_cases inside : k - i < items.length
    · rw [List.getElem?_append_left inside,List.getElem?_eq_getElem inside]
      rfl
    · rw [List.getElem?_append_right (by omega),List.getElem?_drop,List.getElem?_eq_none (l := items) (by omega),Option.none_or]
      congr 1
      omega

variable (f : Nat → α) (a : Nat)

@[simp] theorem overwrite_nil : overwrite f a [] = f := by
  funext x
  simp [overwrite]

theorem overwrite_append (items more : List α) : overwrite f a (items ++ more) = overwrite (overwrite f a items) (a + items.length) more := by
  funext x
  simp only [overwrite]
  by_cases before : a ≤ x
  · by_cases inside : x - a < items.length
    · rw [if_pos before,List.getElem?_append_left inside,if_neg (by omega),if_pos before]
      rfl
    · rw [if_pos before,if_pos (by omega),if_pos before,List.getElem?_append_right (by omega),Nat.sub_sub,List.getElem?_eq_none (l := items) (by omega)]
      rfl
  · rw [if_neg before,if_neg (by omega),if_neg before]
    rfl

theorem overwrite_take_drop {items : List α} {k : Nat} (few : k ≤ items.length) :
    overwrite (overwrite f a (items.take k)) (a + k) (items.drop k) = overwrite f a items := by
  have length : (items.take k).length = k := List.length_take_of_le few
  have := overwrite_append f a (items.take k) (items.drop k)
  rwa [List.take_append_drop,length,eq_comm] at this

theorem slice_append (m n : Nat) : slice f a (m + n) = slice f a m ++ slice f (a + m) n := by
  simp [slice,List.range_add,Nat.add_assoc]

@[simp] theorem length_slice (n : Nat) : (slice f a n).length = n := by simp [slice]

@[simp] theorem slice_zero : slice f a 0 = [] := rfl

theorem getElem?_slice {n i : Nat} (inside : i < n) : (slice f a n)[i]? = some (f (a + i)) := by
  simp [slice,inside]

end

theorem div_mod_add {size a k : Nat} (inside : a % size + k < size) : (a + k) / size = a / size ∧ (a + k) % size = a % size + k := by
  have eq : a + k = size * (a / size) + (a % size + k) := by
    rw [← Nat.add_assoc,Nat.div_add_mod]
  rw [eq,Nat.mul_add_div (by omega),Nat.div_eq_of_lt inside,Nat.mul_add_mod,Nat.mod_eq_of_lt inside]
  exact ⟨rfl,rfl⟩

structure State (α M : Type*) where
  heap : List (List α)
  table : M

/-- A table finds the block of a page, from an address in it, and allocates one when there is none. -/
structure Paging (α M : Type*) where
  size : Nat
  size_pos : 0 < size
  blank : α
  Valid : M → Prop
  lookup : M → Nat → Option Nat
  getPage : State α M → Nat → Nat × State α M
  getPage_found : ∀ s a b, lookup s.table (a / size) = some b → getPage s a = (b,s)
  getPage_new : ∀ s a, lookup s.table (a / size) = none → ∃ table, getPage s a = (s.heap.length,⟨s.heap ++ [List.replicate size blank],table⟩) ∧
    (∀ p, lookup table p = if p = a / size then some s.heap.length else lookup s.table p) ∧ (Valid s.table → Valid table)

section
variable {α M : Type*} (P : Paging α M)

def Paging.index (back : Bool) (offset : Nat) : Nat := if back then P.size - 1 - offset else offset

def Paging.flat (back : Bool) (s : State α M) (x : Nat) : α :=
  ((P.lookup s.table (x / P.size)).bind fun b => (s.heap[b]?).bind fun page => page[P.index back (x % P.size)]?).getD P.blank

/-- A valid table, with one block for each page, and pages of the right length. -/
structure Paging.Inv (s : State α M) : Prop where
  valid : P.Valid s.table
  inside : ∀ p b, P.lookup s.table p = some b → b < s.heap.length
  full : ∀ page ∈ s.heap, page.length = P.size
  apart : ∀ p q b, P.lookup s.table p = some b → P.lookup s.table q = some b → p = q

/-- What is not of the table is left as it is, and the table gets only new blocks. -/
structure Paging.Extends (s s' : State α M) : Prop where
  grows : s.heap.length ≤ s'.heap.length
  frame : ∀ b < s.heap.length, (∀ p, P.lookup s.table p ≠ some b) → s'.heap[b]? = s.heap[b]?
  fresh : ∀ p b, P.lookup s'.table p = some b → P.lookup s.table p = some b ∨ s.heap.length ≤ b

variable {P} {back : Bool} {s s' s'' : State α M}

theorem Paging.Extends.refl : P.Extends s s := ⟨Nat.le_refl _,fun _ _ _ => rfl,fun _ _ => .inl⟩

theorem Paging.Extends.trans (first : P.Extends s s') (second : P.Extends s' s'') : P.Extends s s'' := by
  refine ⟨first.grows.trans second.grows,?_,?_⟩
  · intro b old free
    rw [second.frame b (by have := first.grows; omega) ?_,first.frame b old free]
    intro p owned
    rcases first.fresh p b owned with owned | new
    · exact free p owned
    · omega
  · intro p b owned
    rcases second.fresh p b owned with owned | new
    · exact first.fresh p b owned
    · exact .inr (first.grows.trans new)

/-- A page found or allocated changes nothing in the array. -/
theorem Paging.getPage_spec (back : Bool) (inv : P.Inv s) (a : Nat) :
    ∃ b s', P.getPage s a = (b,s') ∧ P.Inv s' ∧ P.lookup s'.table (a / P.size) = some b ∧ P.flat back s' = P.flat back s ∧ P.Extends s s' := by
  cases found : P.lookup s.table (a / P.size) with
  | some b => exact ⟨b,s,P.getPage_found s a b found,inv,found,rfl,.refl⟩
  | none =>
    obtain ⟨table,eq,lookups,valid⟩ := P.getPage_new s a found
    have fresh (p b : Nat) (owned : P.lookup table p = some b) : P.lookup s.table p = some b ∨ p = a / P.size ∧ b = s.heap.length := by
      rw [lookups] at owned
      split at owned
      next same => exact .inr ⟨same,(Option.some.inj owned).symm⟩
      next other => exact .inl owned
    refine ⟨_,_,eq,⟨valid inv.valid,?_,?_,?_⟩,?_,?_,?_,?_,?_⟩
    · intro p b owned
      rw [List.length_append,List.length_singleton]
      rcases fresh p b owned with old | ⟨-,rfl⟩
      · have := inv.inside p b old
        omega
      · omega
    · intro page member
      rcases List.mem_append.mp member with old | new
      · exact inv.full page old
      · rw [List.mem_singleton.mp new,List.length_replicate]
    · intro p q b owned owned'
      rcases fresh p b owned with old | ⟨rfl,rfl⟩ <;> rcases fresh q _ owned' with old' | ⟨same,new⟩
      · exact inv.apart p q b old old'
      · have := inv.inside p b old
        omega
      · have := inv.inside q _ old'
        omega
      · exact same.symm
    · simp [lookups]
    · funext x
      rw [Paging.flat,Paging.flat,lookups]
      by_cases same : x / P.size = a / P.size
      · rw [if_pos same,same,found]
        simp only [Option.bind_some,List.getElem?_concat_length,Option.bind_none,Option.getD_none]
        rw [List.getElem?_replicate]
        split <;> rfl
      · rw [if_neg same]
        cases owned : P.lookup s.table (x / P.size) with
        | none => rfl
        | some b => rw [Option.bind_some,Option.bind_some,List.getElem?_append_left (inv.inside _ _ owned)]
    · simp
    · intro b old free
      exact List.getElem?_append_left old
    · intro p b owned
      rcases fresh p b owned with old | ⟨-,rfl⟩
      · exact .inl old
      · exact .inr (Nat.le_refl _)

section
variable (P) (back)

/-- Items written in the page of an address; no result when they do not fit in it. -/
def Paging.store (s : State α M) (a : Nat) (items : List α) : Option (State α M) :=
  let (b,s) := P.getPage s a
  let offset := a % P.size
  if offset + items.length ≤ P.size then
    let i := if back then P.size - items.length - offset else offset
    some {s with heap := s.heap.modify b (splice i (if back then items.reverse else items))}
  else
    none

/-- Items read in the page of an address; no result when they go past its end. -/
def Paging.load (s : State α M) (a n : Nat) : Option (List α × State α M) :=
  let (b,s) := P.getPage s a
  let offset := a % P.size
  if offset + n ≤ P.size then
    let i := if back then P.size - n - offset else offset
    (s.heap[b]?).map fun page =>
      let items := (page.drop i).take n
      (if back then items.reverse else items,s)
  else
    none

end

theorem Paging.replace_spec (back : Bool) {a b : Nat} (items : List α) (change : List α → List α) (inv : P.Inv s) (owned : P.lookup s.table (a / P.size) = some b)
    (room : a % P.size + items.length ≤ P.size) (length : ∀ page : List α, page.length = P.size → (change page).length = P.size)
    (changed : ∀ page : List α, page.length = P.size → ∀ k < P.size,
      (change page)[P.index back k]? = ((if a % P.size ≤ k then items[k - a % P.size]? else none).or page[P.index back k]?)) :
    P.Inv {s with heap := s.heap.modify b change} ∧ P.flat back {s with heap := s.heap.modify b change} = overwrite (P.flat back s) a items ∧
      P.Extends s {s with heap := s.heap.modify b change} := by
  refine ⟨⟨inv.valid,?_,?_,inv.apart⟩,?_,⟨?_,?_,fun p b' => .inl⟩⟩
  · intro p b' owned'
    rw [List.length_modify]
    exact inv.inside p b' owned'
  · intro page member
    obtain ⟨i,here⟩ := List.mem_iff_getElem?.mp member
    rw [List.getElem?_modify] at here
    obtain ⟨old,found,rfl⟩ := Option.map_eq_some_iff.mp here
    have full := inv.full old (List.mem_of_getElem? found)
    split
    · exact length old full
    · exact full
  · funext x
    have positive := P.size_pos
    have split := Nat.div_add_mod x P.size
    have split' := Nat.div_add_mod a P.size
    have small := Nat.mod_lt x positive
    rw [Paging.flat,overwrite,Paging.flat]
    by_cases same : x / P.size = a / P.size
    · obtain ⟨page,found⟩ : ∃ page, s.heap[b]? = some page := ⟨_,List.getElem?_eq_getElem (inv.inside _ _ owned)⟩
      have full := inv.full page (List.mem_of_getElem? found)
      rw [same,owned,Option.bind_some,Option.bind_some,List.getElem?_modify_eq,found,Option.map_eq_map,Option.map_some,
        Option.bind_some,Option.bind_some,changed page full _ small]
      rw [same] at split
      by_cases after : a ≤ x
      · rw [if_pos after,if_pos (by omega),show x - a = x % P.size - a % P.size by omega]
        cases items[x % P.size - a % P.size]? <;> rfl
      · rw [if_neg after,if_neg (by omega)]
        rfl
    · -- another page has another block
      have beyond : (if a ≤ x then items[x - a]? else none) = none := by
        split
        next after =>
          refine List.getElem?_eq_none ?_
          by_contra few
          have inside : a % P.size + (x - a) < P.size := by omega
          have here := (div_mod_add inside).1
          rw [Nat.add_sub_cancel' after] at here
          exact same here
        next => rfl
      rw [beyond,Option.getD_none]
      cases owned' : P.lookup s.table (x / P.size) with
      | none => rfl
      | some b' =>
        have other : b ≠ b' := by
          rintro rfl
          exact same (inv.apart _ _ _ owned' owned)
        simp only [Option.bind_some,List.getElem?_modify_ne _ _ other]
  · rw [List.length_modify]
  · intro b' old free
    have other : b ≠ b' := by
      rintro rfl
      exact free _ owned
    exact List.getElem?_modify_ne _ _ other

theorem getElem?_splice_index {offset : Nat} {items page : List α} (full : page.length = P.size) (room : offset + items.length ≤ P.size) {k : Nat}
    (inside : k < P.size) :
    (splice (if back then P.size - items.length - offset else offset) (if back then items.reverse else items) page)[P.index back k]? =
      (if offset ≤ k then items[k - offset]? else none).or page[P.index back k]? := by
  cases back with
  | false =>
    simp only [Bool.false_eq_true,if_false,Paging.index]
    exact getElem?_splice (by omega) k
  | true =>
    simp only [if_true,Paging.index]
    rw [getElem?_splice (by rw [List.length_reverse]; omega)]
    congr 1
    by_cases after : offset ≤ k
    · by_cases few : k - offset < items.length
      · rw [if_pos (by omega),if_pos after,List.getElem?_reverse (by omega)]
        congr 1
        omega
      · rw [if_neg (by omega),if_pos after,List.getElem?_eq_none (l := items) (by omega)]
    · rw [if_pos (by omega),if_neg after,List.getElem?_eq_none (by rw [List.length_reverse]; omega)]

theorem Paging.store_spec (back : Bool) (inv : P.Inv s) (a : Nat) (items : List α) (room : a % P.size + items.length ≤ P.size) :
    ∃ s', P.store back s a items = some s' ∧ P.Inv s' ∧ P.flat back s' = overwrite (P.flat back s) a items ∧ P.Extends s s' := by
  obtain ⟨b,s1,eq,inv1,owned,same,extends1⟩ := P.getPage_spec back inv a
  have length (page : List α) (full : page.length = P.size) :
      (splice (if back then P.size - items.length - a % P.size else a % P.size) (if back then items.reverse else items) page).length = P.size := by
    rw [length_splice,full]
    cases back with
    | false =>
      simp only [Bool.false_eq_true,if_false]
      omega
    | true =>
      simp only [if_true,List.length_reverse]
      omega
  obtain ⟨inv',written,extends'⟩ := P.replace_spec back items _ inv1 owned room length fun page full k inside =>
    getElem?_splice_index full room inside
  refine ⟨_,?_,inv',by rw [written,same],extends1.trans extends'⟩
  simp only [Paging.store,eq,if_pos room]

theorem Paging.store_eq_none {a : Nat} {items : List α} (beyond : P.size < a % P.size + items.length) : P.store back s a items = none := by
  obtain ⟨b,s1,eq⟩ : ∃ b s1, P.getPage s a = (b,s1) := ⟨_,_,rfl⟩
  simp only [Paging.store,eq,if_neg (by omega : ¬a % P.size + items.length ≤ P.size)]

theorem Paging.load_spec (back : Bool) (inv : P.Inv s) (a n : Nat) (room : a % P.size + n ≤ P.size) :
    ∃ s', P.load back s a n = some (slice (P.flat back s) a n,s') ∧ P.Inv s' ∧ P.flat back s' = P.flat back s ∧ P.Extends s s' := by
  obtain ⟨b,s1,eq,inv1,owned,same,extends1⟩ := P.getPage_spec back inv a
  obtain ⟨page,found⟩ : ∃ page, s1.heap[b]? = some page := ⟨_,List.getElem?_eq_getElem (inv1.inside _ _ owned)⟩
  have full := inv1.full page (List.mem_of_getElem? found)
  refine ⟨s1,?_,inv1,same,extends1⟩
  simp only [Paging.load,eq,if_pos room,found,Option.map_some,Option.some.injEq,Prod.mk.injEq,and_true]
  refine List.ext_getElem? fun k => ?_
  by_cases inside : k < n
  · have below : a % P.size + k < P.size := by omega
    obtain ⟨here,offset⟩ := div_mod_add below
    rw [getElem?_slice _ _ inside,← same,Paging.flat,here,owned,Option.bind_some,found,Option.bind_some,offset,Paging.index]
    cases back with
    | false =>
      simp only [Bool.false_eq_true,if_false]
      rw [List.getElem?_take_of_lt inside,List.getElem?_drop,List.getElem?_eq_getElem (by omega)]
      rfl
    | true =>
      simp only [if_true]
      have length : ((page.drop (P.size - n - a % P.size)).take n).length = n := by
        rw [List.length_take,List.length_drop]
        omega
      rw [List.getElem?_reverse (by omega),length,List.getElem?_take_of_lt (by omega),List.getElem?_drop,
        show P.size - n - a % P.size + (n - 1 - k) = P.size - 1 - (a % P.size + k) by omega,List.getElem?_eq_getElem (by omega)]
      rfl
  · rw [List.getElem?_eq_none (l := slice _ _ _) (by rw [length_slice]; omega)]
    refine List.getElem?_eq_none ?_
    split
    · rw [List.length_reverse]
      exact (List.length_take_le _ _).trans (by omega)
    · exact (List.length_take_le _ _).trans (by omega)

theorem Paging.load_eq_none {a n : Nat} (beyond : P.size < a % P.size + n) : P.load back s a n = none := by
  obtain ⟨b,s1,eq⟩ : ∃ b s1, P.getPage s a = (b,s1) := ⟨_,_,rfl⟩
  simp only [Paging.load,eq,if_neg (by omega : ¬a % P.size + n ≤ P.size)]

/-! ### Accesses by whole pages -/

section
variable (P) (back) (space : Nat)

/-- Items written from the start of a page on, by whole pages and then the rest. -/
def Paging.writePages (s : State α M) (a : Nat) (items : List α) : Option (State α M) :=
  if P.size ≤ items.length then
    (P.store back s a (items.take P.size)).bind fun s => Paging.writePages s ((a + P.size) % space) (items.drop P.size)
  else if 0 < items.length then
    P.store back s a items
  else
    some s
termination_by items.length
decreasing_by
  have := P.size_pos
  rw [List.length_drop]
  omega

def Paging.write (s : State α M) (a : Nat) (items : List α) : Option (State α M) :=
  let rest := P.size - a % P.size
  if rest < items.length then
    (P.store back s a (items.take rest)).bind fun s => P.writePages back space s ((a + rest) % space) (items.drop rest)
  else
    P.store back s a items

def Paging.readPages (s : State α M) (a n : Nat) : Option (List α × State α M) :=
  if P.size ≤ n then
    (P.load back s a P.size).bind fun (items,s) =>
      (Paging.readPages s ((a + P.size) % space) (n - P.size)).map fun (more,s) => (items ++ more,s)
  else if 0 < n then
    P.load back s a n
  else
    some ([],s)
termination_by n
decreasing_by
  have := P.size_pos
  omega

def Paging.read (s : State α M) (a n : Nat) : Option (List α × State α M) :=
  let rest := P.size - a % P.size
  if rest < n then
    (P.load back s a rest).bind fun (items,s) =>
      (P.readPages back space s ((a + rest) % space) (n - rest)).map fun (more,s) => (items ++ more,s)
  else
    P.load back s a n

end

section
variable {space : Nat}

theorem next_page {a rest n : Nat} (inside : a + n ≤ space) (less : rest < n) : (a + rest) % space = a + rest :=
  Nat.mod_eq_of_lt (by omega)

theorem Paging.page_end (a : Nat) : (a + (P.size - a % P.size)) % P.size = 0 := by
  have positive := P.size_pos
  have split := Nat.div_add_mod a P.size
  have small := Nat.mod_lt a positive
  rw [show a + (P.size - a % P.size) = P.size * (a / P.size + 1) by rw [Nat.mul_add_one]; omega]
  exact Nat.mul_mod_right _ _

theorem Paging.next_start {a : Nat} (divides : P.size ∣ space) (start : a % P.size = 0) : (a + P.size) % space % P.size = 0 := by
  rw [Nat.mod_mod_of_dvd _ divides,Nat.add_mod_right,start]

theorem Paging.writePages_spec (back : Bool) (divides : P.size ∣ space) (inv : P.Inv s) (a : Nat) (items : List α) (start : a % P.size = 0) :
    ∃ s', P.writePages back space s a items = some s' ∧ P.Inv s' ∧
      (a + items.length ≤ space → P.flat back s' = overwrite (P.flat back s) a items) ∧ P.Extends s s' := by
  induction measured : items.length using Nat.strongRecOn generalizing s a items with
  | ind length ih =>
    have positive := P.size_pos
    rw [Paging.writePages]
    split
    next whole =>
      have page : (items.take P.size).length = P.size := List.length_take_of_le whole
      obtain ⟨s1,stored,inv1,flat1,extends1⟩ := P.store_spec back inv a (items.take P.size) (by rw [start,page]; omega)
      have rest : (items.drop P.size).length = items.length - P.size := List.length_drop
      obtain ⟨s2,written,inv2,flat2,extends2⟩ := ih _ (by omega) inv1 _ _ (P.next_start divides start) rest
      refine ⟨s2,by rw [stored,Option.bind_some,written],inv2,fun inside => ?_,extends1.trans extends2⟩
      rw [← overwrite_take_drop _ _ whole,← flat1]
      by_cases more : P.size < items.length
      · have next := next_page (measured ▸ inside) more
        rw [next] at flat2
        exact flat2 (by omega)
      · have none : items.drop P.size = [] := List.drop_eq_nil_of_le (by omega)
        have := Nat.mod_lt (a + P.size) (show 0 < space by omega)
        rw [none,overwrite_nil] at flat2 ⊢
        exact flat2 (by omega)
    next part =>
      split
      next some =>
        obtain ⟨s1,stored,inv1,flat1,extends1⟩ := P.store_spec back inv a items (by omega)
        exact ⟨s1,stored,inv1,fun _ => flat1,extends1⟩
      next none =>
        obtain rfl : items = [] := List.length_eq_zero_iff.mp (by omega)
        exact ⟨s,rfl,inv,fun _ => (overwrite_nil _ _).symm,.refl⟩

theorem Paging.write_spec (back : Bool) (divides : P.size ∣ space) (inv : P.Inv s) (a : Nat) (items : List α) :
    ∃ s', P.write back space s a items = some s' ∧ P.Inv s' ∧
      (a + items.length ≤ space → P.flat back s' = overwrite (P.flat back s) a items) ∧ P.Extends s s' := by
  have small := Nat.mod_lt a P.size_pos
  rw [Paging.write]
  split
  next beyond =>
    have first : (items.take (P.size - a % P.size)).length = P.size - a % P.size := List.length_take_of_le (Nat.le_of_lt beyond)
    obtain ⟨s1,stored,inv1,flat1,extends1⟩ := P.store_spec back inv a (items.take (P.size - a % P.size)) (by omega)
    have rest : (items.drop (P.size - a % P.size)).length = items.length - (P.size - a % P.size) := List.length_drop
    have start : (a + (P.size - a % P.size)) % space % P.size = 0 := by rw [Nat.mod_mod_of_dvd _ divides,P.page_end]
    obtain ⟨s2,written,inv2,flat2,extends2⟩ := P.writePages_spec back divides inv1 _ (items.drop (P.size - a % P.size)) start
    refine ⟨s2,by rw [stored,Option.bind_some,written],inv2,fun inside => ?_,extends1.trans extends2⟩
    rw [next_page inside beyond] at flat2
    rw [flat2 (by omega),flat1,overwrite_take_drop _ _ (Nat.le_of_lt beyond)]
  next within =>
    obtain ⟨s1,stored,inv1,flat1,extends1⟩ := P.store_spec back inv a items (by omega)
    exact ⟨s1,stored,inv1,fun _ => flat1,extends1⟩

theorem Paging.readPages_spec (back : Bool) (divides : P.size ∣ space) (inv : P.Inv s) (a n : Nat) (start : a % P.size = 0) :
    ∃ items s', P.readPages back space s a n = some (items,s') ∧ P.Inv s' ∧ P.flat back s' = P.flat back s ∧
      (a + n ≤ space → items = slice (P.flat back s) a n) ∧ P.Extends s s' := by
  induction n using Nat.strongRecOn generalizing s a with
  | ind n ih =>
    have positive := P.size_pos
    rw [Paging.readPages]
    split
    next whole =>
      obtain ⟨s1,loaded,inv1,flat1,extends1⟩ := P.load_spec back inv a P.size (by rw [start]; omega)
      obtain ⟨items,s2,read,inv2,flat2,got,extends2⟩ := ih (n - P.size) (by omega) inv1 _ (P.next_start divides start)
      refine ⟨_,s2,by simp only [loaded,Option.bind_some,read,Option.map_some]; rfl,inv2,flat2.trans flat1,fun inside => ?_,extends1.trans extends2⟩
      rw [← Nat.add_sub_cancel' whole,slice_append,← flat1]
      by_cases more : P.size < n
      · rw [next_page inside more] at got
        rw [got (by omega)]
      · have none : n - P.size = 0 := by omega
        have := Nat.mod_lt (a + P.size) (show 0 < space by omega)
        rw [none,slice_zero] at got ⊢
        rw [got (by omega)]
    next part =>
      split
      next some =>
        obtain ⟨s1,loaded,inv1,flat1,extends1⟩ := P.load_spec back inv a n (by omega)
        exact ⟨_,s1,loaded,inv1,flat1,fun _ => rfl,extends1⟩
      next none =>
        obtain rfl : n = 0 := by omega
        exact ⟨[],s,rfl,inv,rfl,fun _ => rfl,.refl⟩

theorem Paging.read_spec (back : Bool) (divides : P.size ∣ space) (inv : P.Inv s) (a n : Nat) :
    ∃ items s', P.read back space s a n = some (items,s') ∧ P.Inv s' ∧ P.flat back s' = P.flat back s ∧
      (a + n ≤ space → items = slice (P.flat back s) a n) ∧ P.Extends s s' := by
  have small := Nat.mod_lt a P.size_pos
  rw [Paging.read]
  split
  next beyond =>
    obtain ⟨s1,loaded,inv1,flat1,extends1⟩ := P.load_spec back inv a (P.size - a % P.size) (by omega)
    have start : (a + (P.size - a % P.size)) % space % P.size = 0 := by rw [Nat.mod_mod_of_dvd _ divides,P.page_end]
    obtain ⟨items,s2,read,inv2,flat2,got,extends2⟩ := P.readPages_spec back divides inv1 _ (n - (P.size - a % P.size)) start
    refine ⟨_,s2,by simp only [loaded,Option.bind_some,read,Option.map_some]; rfl,inv2,flat2.trans flat1,fun inside => ?_,extends1.trans extends2⟩
    rw [next_page inside beyond] at got
    rw [got (by omega),flat1,← slice_append,Nat.add_sub_cancel' (Nat.le_of_lt beyond)]
  next within =>
    obtain ⟨s1,loaded,inv1,flat1,extends1⟩ := P.load_spec back inv a n (by omega)
    exact ⟨_,s1,loaded,inv1,flat1,fun _ => rfl,extends1⟩

end

theorem Paging.write_eq_store (space : Nat) (s : State α M) {a : Nat} {items : List α} (room : a % P.size + items.length ≤ P.size) :
    P.write back space s a items = P.store back s a items := by
  rw [Paging.write]
  exact if_neg (by omega)

def Paging.Separate (P : Paging α M) (m c : M) : Prop := ∀ p q b, P.lookup m p = some b → P.lookup c q ≠ some b

theorem Paging.Separate.symm {m c : M} (separate : P.Separate m c) : P.Separate c m := fun p q b first second => separate q p b second first

/-- What is done with a table leaves the array of another one as it is. -/
theorem Paging.Extends.other (back : Bool) {heap heap' : List (List α)} {m m' c : M} (extended : P.Extends ⟨heap,m⟩ ⟨heap',m'⟩) (inv : P.Inv ⟨heap',m'⟩)
    (other : P.Inv ⟨heap,c⟩) (separate : P.Separate m c) :
    P.Inv ⟨heap',c⟩ ∧ P.Separate m' c ∧ (∀ p b, P.lookup c p = some b → heap'[b]? = heap[b]?) ∧ P.flat back ⟨heap',c⟩ = P.flat back ⟨heap,c⟩ := by
  have grows : heap.length ≤ heap'.length := extended.grows
  have kept (p b : Nat) (owned : P.lookup c p = some b) : heap'[b]? = heap[b]? :=
    extended.frame b (other.inside p b owned) fun q both => separate q p b both owned
  refine ⟨⟨other.valid,fun p b owned => (other.inside p b owned).trans_le grows,inv.full,other.apart⟩,?_,kept,?_⟩
  · intro p q b owned both
    rcases extended.fresh p b owned with old | new
    · exact separate p q b old both
    · have below : b < heap.length := other.inside q b both
      exact absurd (show heap.length ≤ b from new) (Nat.not_le_of_lt below)
  · funext x
    rw [Paging.flat,Paging.flat]
    cases owned : P.lookup c (x / P.size) with
    | none => rfl
    | some b => rw [Option.bind_some,Option.bind_some,kept _ b owned]

section
variable (P) (space : Nat)

/-- Items written backwards one by one, from the place that has the given number of places before its end. -/
def Paging.writeBack : State α M → Nat → Nat → Nat → List α → State α M
  | s,_,_,_,[] => s
  | s,b,a,rest,item :: items =>
    let s : State α M := {s with heap := s.heap.modify b fun page => page.set (rest - 1) item}
    let a := (a + 1) % space
    if rest - 1 = 0 then
      let (b,s) := P.getPage s a
      Paging.writeBack s b a P.size items
    else
      Paging.writeBack s b a (rest - 1) items

def Paging.readBack : State α M → Nat → Nat → Nat → Nat → List α × State α M
  | s,_,_,_,0 => ([],s)
  | s,b,a,rest,n + 1 =>
    let item := ((s.heap[b]?).bind fun page => page[rest - 1]?).getD P.blank
    let a := (a + 1) % space
    let (items,s) :=
      if rest - 1 = 0 then
        let (b,s) := P.getPage s a
        Paging.readBack s b a P.size n
      else
        Paging.readBack s b a (rest - 1) n
    (item :: items,s)

end

section
variable {space : Nat}

theorem Paging.next_place {a b : Nat} (owned : P.lookup s.table (a / P.size) = some b) (last : P.size - a % P.size - 1 ≠ 0) :
    P.lookup s.table ((a + 1) / P.size) = some b ∧ P.size - a % P.size - 1 = P.size - (a + 1) % P.size := by
  have below : a % P.size + 1 < P.size := by omega
  obtain ⟨page,offset⟩ := div_mod_add below
  rw [page,offset]
  exact ⟨owned,by omega⟩

theorem Paging.first_place {a : Nat} (last : P.size - a % P.size - 1 = 0) : P.size = P.size - (a + 1) % P.size := by
  have small := Nat.mod_lt a P.size_pos
  have := P.page_end a
  rw [show P.size - a % P.size = 1 by omega] at this
  omega

theorem Paging.writeBack_spec {a b : Nat} {items : List α} (inv : P.Inv s) (owned : P.lookup s.table (a / P.size) = some b)
    (inside : a + items.length ≤ space) :
    P.Inv (P.writeBack space s b a (P.size - a % P.size) items) ∧
      P.flat true (P.writeBack space s b a (P.size - a % P.size) items) = overwrite (P.flat true s) a items ∧
      P.Extends s (P.writeBack space s b a (P.size - a % P.size) items) := by
  induction items generalizing s a b with
  | nil => exact ⟨inv,(overwrite_nil _ _).symm,.refl⟩
  | cons item items ih =>
    have small := Nat.mod_lt a P.size_pos
    rw [List.length_cons] at inside
    obtain ⟨inv1,flat1,extends1⟩ := P.replace_spec true [item] (fun page => page.set (P.size - a % P.size - 1) item) inv owned
      (by rw [List.length_singleton]; omega) (fun page full => by rw [List.length_set,full]) fun page full k below => by
        rw [List.getElem?_set,Paging.index,if_pos rfl]
        by_cases here : k = a % P.size
        · subst here
          rw [if_pos (by omega),if_pos (by omega),if_pos (Nat.le_refl _),Nat.sub_self]
          rfl
        · rw [if_neg (by omega)]
          split
          next after => rw [List.getElem?_eq_none (l := [item]) (by rw [List.length_singleton]; omega),Option.none_or]
          next before => rfl
    have together : overwrite (overwrite (P.flat true s) a [item]) (a + 1) items = overwrite (P.flat true s) a (item :: items) :=
      (overwrite_append (P.flat true s) a [item] items).symm
    have owned1 : P.lookup (⟨s.heap.modify b fun page => page.set (P.size - a % P.size - 1) item,s.table⟩ : State α M).table (a / P.size) = some b := owned
    simp only [Paging.writeBack]
    generalize (⟨s.heap.modify b fun page => page.set (P.size - a % P.size - 1) item,s.table⟩ : State α M) = s1 at inv1 flat1 extends1 owned1 ⊢
    by_cases last : P.size - a % P.size - 1 = 0
    · rw [if_pos last]
      obtain ⟨b2,s2,eq,inv2,owned2,flat2,extends2⟩ := P.getPage_spec true inv1 ((a + 1) % space)
      simp only [eq]
      by_cases more : items = []
      · subst more
        exact ⟨inv2,by rw [← together,overwrite_nil]; exact flat2.trans flat1,extends1.trans extends2⟩
      · have some : 0 < items.length := List.length_pos_iff.mpr more
        rw [next_page (n := items.length + 1) inside (by omega)] at owned2 ⊢
        rw [P.first_place last]
        obtain ⟨inv3,flat3,extends3⟩ := ih inv2 owned2 (by omega)
        exact ⟨inv3,by rw [flat3,flat2,flat1,together],(extends1.trans extends2).trans extends3⟩
    · rw [if_neg last]
      by_cases more : items = []
      · subst more
        exact ⟨inv1,by rw [← together,overwrite_nil]; exact flat1,extends1⟩
      · have some : 0 < items.length := List.length_pos_iff.mpr more
        rw [next_page (n := items.length + 1) inside (by omega)]
        obtain ⟨owned2,place⟩ := P.next_place owned1 last
        rw [place]
        obtain ⟨inv3,flat3,extends3⟩ := ih inv1 owned2 (by omega)
        exact ⟨inv3,by rw [flat3,flat1,together],extends1.trans extends3⟩

theorem Paging.readBack_spec {a b n : Nat} (inv : P.Inv s) (owned : P.lookup s.table (a / P.size) = some b) (inside : a + n ≤ space) :
    ∃ s', P.readBack space s b a (P.size - a % P.size) n = (slice (P.flat true s) a n,s') ∧ P.Inv s' ∧ P.flat true s' = P.flat true s ∧
      P.Extends s s' := by
  induction n generalizing s a b with
  | zero => exact ⟨s,rfl,inv,rfl,.refl⟩
  | succ n ih =>
    have small := Nat.mod_lt a P.size_pos
    have item : ((s.heap[b]?).bind fun page => page[P.size - a % P.size - 1]?).getD P.blank = P.flat true s a := by
      rw [Paging.flat,owned,Option.bind_some,Paging.index,if_pos rfl,Nat.sub_right_comm]
    have together : P.flat true s a :: slice (P.flat true s) (a + 1) n = slice (P.flat true s) a (n + 1) := by
      rw [Nat.add_comm n 1,slice_append]
      rfl
    rw [Paging.readBack]
    simp only [item]
    by_cases last : P.size - a % P.size - 1 = 0
    · rw [if_pos last]
      obtain ⟨b2,s2,eq,inv2,owned2,flat2,extends2⟩ := P.getPage_spec true inv ((a + 1) % space)
      simp only [eq]
      cases n with
      | zero => exact ⟨s2,rfl,inv2,flat2,extends2⟩
      | succ n =>
        rw [next_page (n := n + 1 + 1) inside (by omega)] at owned2 ⊢
        rw [P.first_place last]
        obtain ⟨s3,read,inv3,flat3,extends3⟩ := ih inv2 owned2 (by omega)
        exact ⟨s3,by rw [read,flat2,together],inv3,flat3.trans flat2,extends2.trans extends3⟩
    · rw [if_neg last]
      cases n with
      | zero => exact ⟨s,rfl,inv,rfl,.refl⟩
      | succ n =>
        rw [next_page (n := n + 1 + 1) inside (by omega)]
        obtain ⟨owned2,place⟩ := P.next_place owned last
        rw [place]
        obtain ⟨s3,read,inv3,flat3,extends3⟩ := ih inv owned2 (by omega)
        exact ⟨s3,by rw [read,together],inv3,flat3,extends3⟩

end

end

end Otawa.Paged
