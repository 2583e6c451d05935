import Otawa.BitVector
import Otawa.HashMaps

/-!
The abstract state of a line of the instruction cache (`ets::AbstractCacheState`): the l-blocks of
each age are the bits of a row, and a hash table gives the bit of an l-block. The join of two states
keeps the l-blocks of both at their greater age, but it marks each of them by the bit 1: the iterator
of the keys that it gives as a bit is converted to a boolean (`join_iff`).
-/
namespace Otawa.Ets
open Otawa.Hashing
open Otawa.BitVector (Holds)

structure Address where
  page : BitVec 32
  offset : BitVec 32
  deriving DecidableEq

/-- `HashKey<Address>`. -/
def addressHash : Hash Address := ⟨fun key => (key.page + key.offset).toNat,fun a b => decide (a = b)⟩

/-- The rows are the ages from the youngest one on, of `n` l-blocks. -/
structure AbstractCacheState (n : Nat) where
  cacheState : List (BitVector n)
  htable : HashTable Address Int
  hcat : HashTable Address Int

variable {n : Nat}

/-- `bit` for an int; none for an index out of the vector. -/
def bitOf (v : BitVector n) (index : Int) : Option Bool :=
  if inside : 0 ≤ index ∧ index < n then some (v.bit ⟨index.toNat,by omega⟩) else none

/-- `set(index, true)` for an int. -/
def setOf (v : BitVector n) (index : Int) : Option (BitVector n) :=
  if inside : 0 ≤ index ∧ index < n then some (v.set ⟨index.toNat,by omega⟩) else none

/-- `operator bool` of an iterator, where an int is wanted: in a loop it is not ended. -/
def iteratorAsInt : Int := 1

namespace AbstractCacheState

/-- The body of the loops on `hcat`: the categories of the state, and those of the first operand. -/
def addCategory (s : HashTable Address Int × HashTable Address Int) (key : Address) :
    Option (HashTable Address Int × HashTable Address Int) := do
  let (known,hcat) ← hasKey addressHash s.1 key
  if known then return (hcat,s.2)
  let (value,hcat1) ← get addressHash s.2 key (-1)
  let hcat ← put addressHash hcat key value
  return (hcat,hcat1)

/-- The ages of an l-block, and the tables of the operands. -/
structure Ages where
  a : Int
  b : Int
  htable1 : HashTable Address Int
  htable2 : HashTable Address Int

def ages (key : Address) (rows2 : List (BitVector n)) : Nat → List (BitVector n) → Ages → Option Ages
  | _, [], s => some s
  | i, row1 :: rows, s => do
    let (index1,htable1) ← get addressHash s.htable1 key (-1)
    let bit1 ← bitOf row1 index1
    let row2 ← rows2[i]?
    let (index2,htable2) ← get addressHash s.htable2 key (-1)
    let bit2 ← bitOf row2 index2
    ages key rows2 (i + 1) rows ⟨if bit1 then i else s.a,if bit2 then i else s.b,htable1,htable2⟩

/-- `cache_state[row]->set(k, true)`. -/
def setRow (rows : List (BitVector n)) (row : Int) : Option (List (BitVector n)) := do
  let old ← rows[row.toNat]?
  let new ← setOf old iteratorAsInt
  return rows.set row.toNat new

def joinBlock (rows1 rows2 : List (BitVector n)) (s : List (BitVector n) × HashTable Address Int × HashTable Address Int)
    (key : Address) : Option (List (BitVector n) × HashTable Address Int × HashTable Address Int) := do
  let found ← ages key rows2 0 rows1 ⟨-1,-1,s.2.1,s.2.2⟩
  let rows ← if found.a ≠ -1 ∧ found.b ≠ -1 then setRow s.1 (if found.a < found.b then found.b else found.a) else some s.1
  return (rows,found.htable1,found.htable2)

/-- `join`, with at most these turns of each of its loops; the look-ups change the operands too. -/
def join (turns : Nat) (s state1 state2 : AbstractCacheState n) :
    Option (AbstractCacheState n × AbstractCacheState n × AbstractCacheState n) := do
  let cleared := s.cacheState.map BitVector.clearAll
  let (hcat1,hcat) ← each (fun own hcat key => (addCategory (hcat,own) key).map Prod.swap) turns (start state1.hcat) s.hcat
  let (hcat2,hcat,hcat1) ← each (fun own s key => (addCategory s key).map fun s => (own,s)) turns (start state2.hcat) (hcat,hcat1)
  let (htable,rows,htable1,htable2) ← each
    (fun own s key => (joinBlock state1.cacheState state2.cacheState s key).map fun s => (own,s)) turns
    (start s.htable) (cleared,state1.htable,state2.htable)
  return (⟨rows,htable,hcat⟩,⟨state1.cacheState,htable1,hcat1⟩,⟨state2.cacheState,htable2,hcat2⟩)

theorem lawful : addressHash.Lawful := fun _ _ => decide_eq_true_iff

section
variable {h h1 : HashTable Address Int} {content content1 : Address → Option Int}

theorem addCategory_spec (maps : Maps addressHash h content) (maps1 : Maps addressHash h1 content1) (key : Address) :
    ∃ h' h1' content', addCategory (h,h1) key = some (h',h1') ∧ Maps addressHash h' content' ∧ Maps addressHash h1' content1 ∧
      (∀ k, (content k).isSome = true → (content' k).isSome = true) ∧
      (h1' = h1 ∨ (content key).isSome = false ∧ (content' key).isSome = true ∧
        ∃ found, find addressHash h1 key = some (found,h1')) := by
  obtain ⟨h₂,looked,maps₂⟩ := maps.hasKey lawful key
  cases known : (content key).isSome with
  | true => exact ⟨h₂,h1,content,by simp [addCategory,looked,known],maps₂,maps1,fun _ => id,.inl rfl⟩
  | false =>
    obtain ⟨found,h₃,looked₃,value,maps₃⟩ := maps1.find lawful key
    obtain ⟨h₄,stored,maps₄⟩ := maps₂.put lawful key (found.elim (-1) h₃.value)
    have added : addCategory (h,h1) key = some (h₄,h₃) := by
      simp [addCategory,looked,known,Hashing.get,looked₃,stored]
    refine ⟨h₄,h₃,_,added,maps₄,maps₃,fun k has => ?_,.inr ⟨rfl,by simp,found,looked₃⟩⟩
    by_cases same : k = key
    · rw [same,Function.update_self]
      rfl
    · rwa [Function.update_of_ne same]

def IsMap (h : HashTable Address Int) : Prop := ∃ content, Maps addressHash h content

def hasCategory (h : HashTable Address Int) (key : Address) : Bool := (hasKey addressHash h key).any (·.1)

theorem hasCategory_eq (maps : Maps addressHash h content) (key : Address) : hasCategory h key = (content key).isSome := by
  obtain ⟨_,looked,_⟩ := maps.hasKey lawful key
  simp [hasCategory,looked]

theorem settles_category : Settles addressHash content1 IsMap hasCategory
    (fun own hcat key => (addCategory (hcat,own) key).map Prod.swap) := by
  refine ⟨fun own hcat key maps1 ⟨content,maps⟩ => ?_⟩
  obtain ⟨hcat',own',content',added,maps',-,more,moved⟩ := addCategory_spec maps maps1 key
  refine ⟨own',hcat',by rw [added]; rfl,⟨content',maps'⟩,fun k has => ?_,?_⟩
  · rw [hasCategory_eq maps] at has
    rw [hasCategory_eq maps']
    exact more k has
  · rw [hasCategory_eq maps,hasCategory_eq maps']
    exact moved

theorem addCategories (keys : List Address) (s : HashTable Address Int × HashTable Address Int) (map : IsMap s.1) (map1 : IsMap s.2) :
    ∃ s', keys.foldlM addCategory s = some s' := by
  induction keys generalizing s with
  | nil => exact ⟨s,rfl⟩
  | cons key keys ih =>
    obtain ⟨content,maps⟩ := map
    obtain ⟨content1,maps1⟩ := map1
    obtain ⟨h',h1',content',added,maps',maps1',-,-⟩ := addCategory_spec maps maps1 key
    obtain ⟨s',rest⟩ := ih (h',h1') ⟨content',maps'⟩ ⟨content1,maps1'⟩
    exact ⟨s',by rw [List.foldlM_cons,show addCategory s key = _ from added]; exact rest⟩

/-- The greatest age with the l-block of this index. -/
def Age (rows : List (BitVector n)) (j : Fin n) (a : Nat) : Prop :=
  (∃ row, rows[a]? = some row ∧ row.bit j = true) ∧ ∀ later row, a < later → rows[later]? = some row → row.bit j = false

/-- What the loop keeps of the rows from age `i` on. -/
def lastAge (j : Fin n) : Nat → List (BitVector n) → Int → Int
  | _, [], a => a
  | i, row :: rows, a => lastAge j (i + 1) rows (if row.bit j then i else a)

theorem lastAge_spec (j : Fin n) (rows : List (BitVector n)) (i : Nat) (a : Int) :
    lastAge j i rows a = a ∧ (∀ row ∈ rows, row.bit j = false) ∨
      ∃ x, lastAge j i rows a = (i + x : Nat) ∧ Age rows j x := by
  induction rows generalizing i a with
  | nil => exact .inl ⟨rfl,by simp⟩
  | cons row rows ih =>
    rw [lastAge]
    rcases ih (i + 1) (if row.bit j then i else a) with ⟨kept,none⟩ | ⟨x,last,⟨found,isLast⟩⟩
    · cases here : row.bit j with
      | false =>
        rw [here] at kept
        exact .inl ⟨kept,by simpa [here] using none⟩
      | true =>
        rw [here] at kept
        refine .inr ⟨0,kept,⟨row,rfl,here⟩,fun later row' after found => ?_⟩
        obtain ⟨k,rfl⟩ := Nat.exists_eq_add_of_le' after
        rw [List.getElem?_cons_succ] at found
        exact none row' (List.mem_of_getElem? found)
    · refine .inr ⟨x + 1,by rw [last]; congr 1; omega,by simpa using found,fun later row' after found => ?_⟩
      obtain ⟨k,rfl⟩ := Nat.exists_eq_add_of_le' (show 1 ≤ later by omega)
      rw [List.getElem?_cons_succ] at found
      exact isLast k row' (by omega) found

variable {j : Fin n}

theorem Age.unique {rows : List (BitVector n)} {a b : Nat} (first : Age rows j a) (second : Age rows j b) : a = b := by
  obtain ⟨⟨row,here,has⟩,last⟩ := first
  obtain ⟨⟨row',here',has'⟩,last'⟩ := second
  rcases Nat.lt_trichotomy a b with less | same | more
  · have absent := last b row' less here'
    rw [has'] at absent
    cases absent
  · exact same
  · have absent := last' a row more here
    rw [has] at absent
    cases absent

theorem lastAge_eq {rows : List (BitVector n)} {a : Nat} : lastAge j 0 rows (-1) = a ↔ Age rows j a := by
  rcases lastAge_spec j rows 0 (-1) with ⟨kept,none⟩ | ⟨x,last,age⟩
  · rw [kept]
    refine ⟨fun impossible => absurd impossible (by omega),fun ⟨⟨row,here,has⟩,_⟩ => ?_⟩
    rw [none row (List.mem_of_getElem? here)] at has
    cases has
  · rw [last]
    constructor
    · intro same
      have here : x = a := by omega
      exact here ▸ age
    · intro other
      rw [age.unique other]
      omega

theorem lastAge_none {rows : List (BitVector n)} : lastAge j 0 rows (-1) ≠ -1 ↔ ∃ a, Age rows j a := by
  constructor
  · intro found
    rcases lastAge_spec j rows 0 (-1) with ⟨kept,-⟩ | ⟨x,-,age⟩
    · exact absurd kept found
    · exact ⟨x,age⟩
  · rintro ⟨a,age⟩
    rw [lastAge_eq.mpr age]
    omega

theorem ages_spec {key : Address} {index1 index2 : Address → Option Int} (here1 : index1 key = some (j : Int))
    (here2 : index2 key = some (j : Int)) (rows1 rows2 before : List (BitVector n)) (s : Ages)
    (same : rows1.length = rows2.length) (maps1 : Maps addressHash s.htable1 index1) (maps2 : Maps addressHash s.htable2 index2) :
    ∃ h1 h2, ages key (before ++ rows2) before.length rows1 s =
        some ⟨lastAge j before.length rows1 s.a,lastAge j before.length rows2 s.b,h1,h2⟩ ∧
      Maps addressHash h1 index1 ∧ Maps addressHash h2 index2 := by
  induction rows1 generalizing rows2 before s with
  | nil =>
    obtain rfl := List.eq_nil_of_length_eq_zero same.symm
    exact ⟨s.htable1,s.htable2,rfl,maps1,maps2⟩
  | cons row1 rows1 ih =>
    cases rows2 with
    | nil => cases same
    | cons row2 rows2 =>
      obtain ⟨h1,got1,maps1'⟩ := maps1.get lawful key (-1)
      obtain ⟨h2,got2,maps2'⟩ := maps2.get lawful key (-1)
      have bit (row : BitVector n) : bitOf row (j : Int) = some (row.bit j) := by
        have inside : (0 : Int) ≤ (j.val : Int) ∧ (j.val : Int) < n := by omega
        rw [bitOf,dif_pos inside]
        rfl
      let next : Ages := ⟨if row1.bit j then before.length else s.a,if row2.bit j then before.length else s.b,h1,h2⟩
      obtain ⟨h1',h2',rest,done1,done2⟩ := ih rows2 (before ++ [row2]) next (by simpa using same) maps1' maps2'
      refine ⟨h1',h2',?_,done1,done2⟩
      rw [List.length_append,List.length_singleton,List.append_assoc,List.singleton_append] at rest
      simp only [ages,got1,got2,here1,here2,Option.getD_some,bit,List.getElem?_append_right le_rfl,Nat.sub_self,
        List.getElem?_cons_zero,Option.bind_eq_bind,Option.bind_some]
      exact rest

/-- The l-block of this index is in both operands, with this greater age. -/
def Common (rows1 rows2 : List (BitVector n)) (j : Fin n) (x : Nat) : Prop :=
  ∃ a b, Age rows1 j a ∧ Age rows2 j b ∧ x = max a b

/-- Rows where only the bit 1 is used, for these ages. -/
structure Marked (ways : Nat) (rows : List (BitVector n)) (marked : Nat → Prop) : Prop where
  length : rows.length = ways
  holds : ∀ x row, rows[x]? = some row → ∃ elems, Holds row elems false ∧ ∀ i, elems i = true ↔ i.val = 1 ∧ marked x

variable {rows rows1 rows2 : List (BitVector n)} {ways : Nat} {marked : Nat → Prop}

theorem marked_clear (rows : List (BitVector n)) : Marked rows.length (rows.map BitVector.clearAll) fun _ => False := by
  refine ⟨List.length_map _,fun x row here => ⟨fun _ => false,fun k byte place j low => ?_,by simp⟩⟩
  obtain ⟨old,-,rfl⟩ := List.getElem?_map.symm.trans here |> Option.map_eq_some_iff.mp
  obtain ⟨_,-,rfl⟩ := List.getElem?_map.symm.trans place |> Option.map_eq_some_iff.mp
  simp

theorem Marked.congr {marked' : Nat → Prop} (ok : Marked ways rows marked) (same : ∀ x, marked x ↔ marked' x) :
    Marked ways rows marked' :=
  ⟨ok.length,fun x row here => by simpa only [same] using ok.holds x row here⟩

theorem Common.unique {x y : Nat} (first : Common rows1 rows2 j x) (second : Common rows1 rows2 j y) : x = y := by
  obtain ⟨a,b,age1,age2,rfl⟩ := first
  obtain ⟨c,d,age1',age2',rfl⟩ := second
  rw [age1.unique age1',age2.unique age2']

theorem setRow_spec (ok : Marked ways rows marked) {x : Nat} (inside : x < ways) :
    n ≤ 1 ∧ setRow rows (x : Int) = none ∨
      ∃ rows', setRow rows (x : Int) = some rows' ∧ Marked ways rows' fun y => y = x ∨ marked y := by
  obtain ⟨row,here⟩ : ∃ row, rows[x]? = some row := ⟨_,List.getElem?_eq_getElem (by rw [ok.length]; exact inside)⟩
  rcases Nat.lt_or_ge 1 n with wide | narrow
  · have index : (0 : Int) ≤ iteratorAsInt ∧ iteratorAsInt < (n : Int) := by rw [iteratorAsInt]; omega
    refine .inr ⟨rows.set x (row.set ⟨1,wide⟩),?_,by simp [ok.length],fun y other found => ?_⟩
    · rw [setRow,Int.toNat_natCast,here]
      simp only [Option.bind_eq_bind,Option.bind_some,setOf,dif_pos index]
      rfl
    · by_cases same : y = x
      · subst same
        rw [List.getElem?_set_self (by rw [ok.length]; exact inside)] at found
        obtain rfl := Option.some.inj found
        obtain ⟨elems,holds,bits⟩ := ok.holds y row here
        refine ⟨_,holds.set ⟨1,wide⟩,fun i => ?_⟩
        by_cases first : i.val = 1
        · have is : i = ⟨1,wide⟩ := Fin.ext first
          simp [is]
        · have other : i ≠ ⟨1,wide⟩ := fun is => first (congrArg Fin.val is)
          rw [Function.update_of_ne other,bits]
          simp [first]
      · rw [List.getElem?_set_ne (Ne.symm same)] at found
        obtain ⟨elems,holds,bits⟩ := ok.holds y other found
        exact ⟨elems,holds,fun i => by rw [bits]; simp [same]⟩
  · refine .inl ⟨narrow,?_⟩
    have index : ¬((0 : Int) ≤ iteratorAsInt ∧ iteratorAsInt < (n : Int)) := by rw [iteratorAsInt]; omega
    rw [setRow,Int.toNat_natCast,here]
    simp [setOf,index]

theorem Age.lt {a : Nat} (age : Age rows j a) : a < rows.length := by
  obtain ⟨row,here,-⟩ := age.1
  exact (List.getElem?_eq_some_iff.mp here).1

theorem joinBlock_spec {key : Address} {index : Address → Option Int} (here : index key = some (j : Int))
    (same : rows1.length = rows2.length) {h1 h2 : HashTable Address Int} (maps1 : Maps addressHash h1 index)
    (maps2 : Maps addressHash h2 index) (rows : List (BitVector n)) :
    ∃ h1' h2', Maps addressHash h1' index ∧ Maps addressHash h2' index ∧
      ((∃ x, Common rows1 rows2 j x ∧
          joinBlock rows1 rows2 (rows,h1,h2) key = (setRow rows (x : Int)).map fun rows => (rows,h1',h2')) ∨
        (∀ x, ¬Common rows1 rows2 j x) ∧ joinBlock rows1 rows2 (rows,h1,h2) key = some (rows,h1',h2')) := by
  obtain ⟨h1',h2',found,done1,done2⟩ := ages_spec here here rows1 rows2 [] ⟨-1,-1,h1,h2⟩ same maps1 maps2
  refine ⟨h1',h2',done1,done2,?_⟩
  simp only [List.nil_append,List.length_nil] at found
  rw [joinBlock,found]
  simp only [Option.bind_eq_bind,Option.bind_some]
  by_cases both : (∃ a, Age rows1 j a) ∧ ∃ b, Age rows2 j b
  · obtain ⟨⟨a,age1⟩,b,age2⟩ := both
    refine .inl ⟨max a b,⟨a,b,age1,age2,rfl⟩,?_⟩
    have greater : (if (a : Int) < b then (b : Int) else a) = (max a b : Nat) := by
      split <;> omega
    have some : (a : Int) ≠ -1 ∧ (b : Int) ≠ -1 := by omega
    rw [lastAge_eq.mpr age1,lastAge_eq.mpr age2,if_pos some,greater]
    cases setRow rows ((max a b : Nat) : Int) <;> rfl
  · refine .inr ⟨fun x ⟨a,b,age1,age2,_⟩ => both ⟨⟨a,age1⟩,b,age2⟩,?_⟩
    rw [← lastAge_none,← lastAge_none] at both
    rw [if_neg both]
    rfl

theorem foldlM_joinBlock {index : Address → Option Int} (same : rows1.length = rows2.length) (ways_eq : rows1.length = ways)
    (keys : List Address) (known : ∀ key ∈ keys, ∃ j : Fin n, index key = some (j : Int)) {h1 h2 : HashTable Address Int}
    (maps1 : Maps addressHash h1 index) (maps2 : Maps addressHash h2 index) (ok : Marked ways rows marked) :
    n ≤ 1 ∧ (∃ key ∈ keys, ∃ j : Fin n, index key = some (j : Int) ∧ ∃ x, Common rows1 rows2 j x) ∧
        keys.foldlM (joinBlock rows1 rows2) (rows,h1,h2) = none ∨
      ∃ rows' h1' h2', keys.foldlM (joinBlock rows1 rows2) (rows,h1,h2) = some (rows',h1',h2') ∧
        Marked ways rows' fun x =>
          marked x ∨ ∃ key ∈ keys, ∃ j : Fin n, index key = some (j : Int) ∧ Common rows1 rows2 j x := by
  induction keys generalizing rows h1 h2 marked with
  | nil => exact .inr ⟨rows,h1,h2,rfl,by simpa using ok⟩
  | cons key keys ih =>
    obtain ⟨j,here⟩ := known key (by simp)
    obtain ⟨h1',h2',maps1',maps2',⟨x,common,joined⟩ | ⟨apart,joined⟩⟩ := joinBlock_spec here same maps1 maps2 rows
    · have inside : x < ways := by
        obtain ⟨a,b,age1,age2,rfl⟩ := common
        exact max_lt (ways_eq ▸ age1.lt) (ways_eq ▸ same ▸ age2.lt)
      rw [List.foldlM_cons,joined]
      rcases setRow_spec ok inside with ⟨narrow,failed⟩ | ⟨rows',stored,ok'⟩
      · refine .inl ⟨narrow,⟨key,by simp,j,here,x,common⟩,?_⟩
        rw [failed]
        rfl
      · rw [stored]
        have only : ∀ y, Common rows1 rows2 j y ↔ y = x := fun y =>
          ⟨fun other => other.unique common,fun equal => equal ▸ common⟩
        rcases ih (fun key member => known key (by simp [member])) maps1' maps2' ok' with
          ⟨narrow,⟨later,member,rest⟩,failed⟩ | ⟨rows₂,h₁,h₂,ran,ok₂⟩
        · exact .inl ⟨narrow,⟨later,by simp [member],rest⟩,failed⟩
        · refine .inr ⟨rows₂,h₁,h₂,ran,ok₂.congr fun y => ?_⟩
          have first : (∃ j' : Fin n, index key = some (j' : Int) ∧ Common rows1 rows2 j' y) ↔ y = x := by
            rw [← only]
            constructor
            · rintro ⟨j',here',other⟩
              obtain rfl : j' = j := by
                have equal := Option.some.inj (here'.symm.trans here)
                omega
              exact other
            · exact fun other => ⟨j,here,other⟩
          simp only [List.exists_mem_cons_iff,first]
          tauto
    · rw [List.foldlM_cons,joined]
      rcases ih (fun key member => known key (by simp [member])) maps1' maps2' ok with
        ⟨narrow,⟨later,member,rest⟩,failed⟩ | ⟨rows₂,h₁,h₂,ran,ok₂⟩
      · exact .inl ⟨narrow,⟨later,by simp [member],rest⟩,failed⟩
      · refine .inr ⟨rows₂,h₁,h₂,ran,ok₂.congr fun y => ?_⟩
        have first : ¬∃ j' : Fin n, index key = some (j' : Int) ∧ Common rows1 rows2 j' y := by
          rintro ⟨j',here',other⟩
          obtain rfl : j' = j := by
            have equal := Option.some.inj (here'.symm.trans here)
            omega
          exact apart y other
        simp only [List.exists_mem_cons_iff,first,false_or]

end

/-- A state of the line with these indices of l-blocks and so many ways. -/
structure OfLine (s : AbstractCacheState n) (index : Address → Option Int) (ways : Nat) : Prop where
  ways : s.cacheState.length = ways
  index : Maps addressHash s.htable index
  categories : IsMap s.hcat

/-- The formula of `join`: an l-block is at an age in the result when this is the greater one of its
    ages in the operands, and the rows have no other bit. -/
def Joined (result : List (BitVector n)) (rows1 rows2 : List (BitVector n)) (index : Address → Option Int) : Prop :=
  ∀ x (j : Fin n), (∃ row, result[x]? = some row ∧ row.bit j = true) ↔
    ∃ key, index key = some (j : Int) ∧ Common rows1 rows2 j x

section
variable {s state1 state2 : AbstractCacheState n} {index : Address → Option Int} {ways : Nat}

theorem join_runs (line : OfLine s index ways) (line1 : OfLine state1 index ways) (line2 : OfLine state2 index ways) :
    ∃ k hcat hcat1 hcat2, ∀ turns, k ≤ turns → join turns s state1 state2 =
      ((keys s.htable).foldlM (joinBlock state1.cacheState state2.cacheState)
        (s.cacheState.map BitVector.clearAll,state1.htable,state2.htable)).map fun r =>
          (⟨r.1,s.htable,hcat⟩,⟨state1.cacheState,r.2.1,hcat1⟩,⟨state2.cacheState,r.2.2,hcat2⟩) := by
  obtain ⟨content1,maps1⟩ := line1.categories
  obtain ⟨chains2,placed2,-⟩ := line2.categories.choose_spec
  obtain ⟨chains,placed,-⟩ := line.index
  obtain ⟨k₁,hcat1,hcat,first,maps1',map⟩ := each_ends lawful settles_category maps1 line.categories
  obtain ⟨⟨hcat',hcat1'⟩,second⟩ := addCategories (keys state2.hcat) (hcat,hcat1) map ⟨content1,maps1'⟩
  let last := max ((keys state2.hcat).length + 1) ((keys s.htable).length + 1)
  refine ⟨max k₁ last,hcat',hcat1',state2.hcat,fun turns enough => ?_⟩
  have enoughMiddle : (keys state2.hcat).length < turns := by omega
  have enoughThird : (keys s.htable).length < turns := by omega
  have third : each (fun own s key => (joinBlock state1.cacheState state2.cacheState s key).map fun s => (own,s)) turns
      (start s.htable) (s.cacheState.map BitVector.clearAll,state1.htable,state2.htable) = _ :=
    each_static placed.toChains (fun _ _ => rfl) enoughThird _
  have middle : each (fun own s key => (addCategory s key).map fun s => (own,s)) turns (start state2.hcat) (hcat,hcat1) = _ :=
    each_static placed2.toChains (fun _ _ => rfl) enoughMiddle _
  rw [join,first turns (by omega)]
  simp only [Option.bind_eq_bind,Option.bind_some,middle,second,Option.map_some,third]
  cases (keys s.htable).foldlM (joinBlock state1.cacheState state2.cacheState)
    (s.cacheState.map BitVector.clearAll,state1.htable,state2.htable) <;> rfl

private theorem known_index (line : OfLine s index ways) (valid : ∀ key i, index key = some i → 0 ≤ i ∧ i < n) :
    ∀ key ∈ keys s.htable, ∃ j : Fin n, index key = some (j : Int) := by
  intro key member
  obtain ⟨i,here⟩ := (line.index.mem_keys lawful).mp member
  obtain ⟨low,high⟩ := valid key i here
  exact ⟨⟨i.toNat,by omega⟩,by rw [here]; simp [low]⟩

theorem index_of_joined (line : OfLine s index ways) (line1 : OfLine state1 index ways) (line2 : OfLine state2 index ways)
    (valid : ∀ key i, index key = some i → 0 ≤ i ∧ i < n) {result : AbstractCacheState n}
    {operands : AbstractCacheState n × AbstractCacheState n} {k : Nat}
    (returns : ∀ turns, k ≤ turns → join turns s state1 state2 = some (result,operands))
    (joined : Joined result.cacheState state1.cacheState state2.cacheState index) {key : Address} {j : Fin n}
    (here : index key = some (j : Int)) {x : Nat} (common : Common state1.cacheState state2.cacheState j x) : j.val = 1 := by
  have clear := marked_clear s.cacheState
  rw [line.ways] at clear
  obtain ⟨k',hcat,hcat1,hcat2,runs⟩ := join_runs line line1 line2
  have ran := (runs (max k' k) (le_max_left k' k)).symm.trans (returns _ (le_max_right k' k))
  rcases foldlM_joinBlock (line1.ways.trans line2.ways.symm) line1.ways (keys s.htable) (known_index line valid) line1.index
    line2.index clear with ⟨-,-,failed⟩ | ⟨rows,h1,h2,folded,marked⟩
  · rw [failed] at ran
    cases ran
  · rw [folded] at ran
    obtain ⟨rfl,-⟩ := Prod.mk.inj (Option.some.inj ran)
    obtain ⟨row,found,has⟩ := (joined x j).mpr ⟨key,here,common⟩
    obtain ⟨elems,holds,bits⟩ := marked.holds _ row found
    rw [holds.bit] at has
    exact ((bits j).mp has).1

/-- The join is right exactly when the l-blocks that both operands have are the one with index 1. -/
theorem join_iff (line : OfLine s index ways) (line1 : OfLine state1 index ways) (line2 : OfLine state2 index ways)
    (valid : ∀ key i, index key = some i → 0 ≤ i ∧ i < n) :
    (∃ result operands, (∃ k, ∀ turns, k ≤ turns → join turns s state1 state2 = some (result,operands)) ∧
      result.cacheState.length = ways ∧ Joined result.cacheState state1.cacheState state2.cacheState index) ↔
    ∀ key (j : Fin n), index key = some (j : Int) → (∃ a, Age state1.cacheState j a) →
      (∃ b, Age state2.cacheState j b) → j.val = 1 := by
  constructor
  · rintro ⟨result,operands,⟨k,returns⟩,-,joined⟩ key j here ⟨a,age1⟩ ⟨b,age2⟩
    exact index_of_joined line line1 line2 valid returns joined here ⟨a,b,age1,age2,rfl⟩
  intro single
  have clear := marked_clear s.cacheState
  rw [line.ways] at clear
  obtain ⟨k,hcat,hcat1,hcat2,runs⟩ := join_runs line line1 line2
  rcases foldlM_joinBlock (line1.ways.trans line2.ways.symm) line1.ways (keys s.htable) (known_index line valid) line1.index
    line2.index clear with ⟨narrow,⟨key,-,j,here,x,a,b,age1,age2,-⟩,-⟩ | ⟨rows,h1,h2,folded,marked⟩
  · have first := single key j here ⟨a,age1⟩ ⟨b,age2⟩
    have inside := j.isLt
    omega
  · refine ⟨_,_,⟨k,fun turns enough => by rw [runs turns enough,folded]; rfl⟩,marked.length,fun x j => ?_⟩
    constructor
    · rintro ⟨row,found,has⟩
      obtain ⟨elems,holds,bits⟩ := marked.holds x row found
      rw [holds.bit] at has
      obtain ⟨one,impossible | ⟨key,-,j',here,common⟩⟩ := (bits j).mp has
      · exact impossible.elim
      · obtain ⟨a,b,age1,age2,-⟩ := id common
        have first := single key j' here ⟨a,age1⟩ ⟨b,age2⟩
        obtain rfl : j = j' := Fin.ext (one.trans first.symm)
        exact ⟨key,here,common⟩
    · rintro ⟨key,here,common⟩
      obtain ⟨a,b,age1,age2,equal⟩ := id common
      have inside : x < rows.length := by
        rw [marked.length,equal]
        exact max_lt (line1.ways ▸ age1.lt) (line2.ways ▸ age2.lt)
      obtain ⟨elems,holds,bits⟩ := marked.holds x _ (List.getElem?_eq_getElem inside)
      refine ⟨_,List.getElem?_eq_getElem inside,?_⟩
      rw [holds.bit,bits]
      have member : key ∈ keys s.htable := (line.index.mem_keys lawful).mpr ⟨_,here⟩
      exact ⟨single key j here ⟨a,age1⟩ ⟨b,age2⟩,.inr ⟨key,member,j,here,common⟩⟩

end

def newTable : HashTable Address Int := create 211 (fun _ => ⟨0,0⟩) fun _ => 0

def firstBlock : Address := ⟨0,0x1000⟩
def secondBlock : Address := ⟨0,0x1040⟩

def twoBlocks : HashTable Address Int :=
  ((put addressHash newTable firstBlock 0).bind fun h => put addressHash h secondBlock 1).getD newTable

def twoIndices : Address → Option Int := Function.update (Function.update (fun _ => none) firstBlock (some 0)) secondBlock (some 1)

theorem maps_newTable : Maps addressHash newTable fun _ => none := maps_create addressHash (by decide) _ _

theorem maps_twoBlocks : Maps addressHash twoBlocks twoIndices := by
  obtain ⟨h,stored,maps⟩ := maps_newTable.put lawful firstBlock 0
  obtain ⟨h',stored',maps'⟩ := maps.put lawful secondBlock 1
  rw [twoBlocks,stored,Option.bind_some,stored']
  exact maps'

def twoWays (young old : BitVector 2) : AbstractCacheState 2 := ⟨[young,old],twoBlocks,newTable⟩

theorem ofLine_twoWays (young old : BitVector 2) : OfLine (twoWays young old) twoIndices 2 :=
  ⟨rfl,maps_twoBlocks,_,maps_newTable⟩

theorem twoIndices_valid (key : Address) (i : Int) (here : twoIndices key = some i) : 0 ≤ i ∧ i < (2 : Nat) := by
  simp only [twoIndices,Function.update_apply] at here
  split at here
  · obtain rfl := Option.some.inj here
    decide
  · split at here
    · obtain rfl := Option.some.inj here
      decide
    · cases here

def noBlock : BitVector 2 := BitVector.make 2 false

theorem join_iff_second :
    (∃ result operands, (∃ k, ∀ turns, k ≤ turns → join turns (twoWays noBlock noBlock) (twoWays (noBlock.set 1) noBlock)
        (twoWays noBlock (noBlock.set 1)) = some (result,operands)) ∧
      result.cacheState.length = 2 ∧ Joined result.cacheState [noBlock.set 1,noBlock] [noBlock,noBlock.set 1] twoIndices) ↔
    ∀ key (j : Fin 2), twoIndices key = some (j : Int) → (∃ a, Age [noBlock.set 1,noBlock] j a) →
      (∃ b, Age [noBlock,noBlock.set 1] j b) → j.val = 1 :=
  join_iff (ofLine_twoWays _ _) (ofLine_twoWays _ _) (ofLine_twoWays _ _) twoIndices_valid

/-- The first l-block is lost, though both operands have it at age 0. -/
theorem join_loses_first : ¬∀ (n : Nat) (s state1 state2 : AbstractCacheState n) (index : Address → Option Int) (ways : Nat),
    OfLine s index ways → OfLine state1 index ways → OfLine state2 index ways →
    (∀ key i, index key = some i → 0 ≤ i ∧ i < n) →
    ∃ result operands, (∃ k, ∀ turns, k ≤ turns → join turns s state1 state2 = some (result,operands)) ∧
      result.cacheState.length = ways ∧ Joined result.cacheState state1.cacheState state2.cacheState index := by
  intro all
  have line := ofLine_twoWays noBlock noBlock
  have operand := ofLine_twoWays (noBlock.set 0) noBlock
  obtain ⟨result,operands,⟨k,returns⟩,-,joined⟩ := all 2 _ _ _ _ 2 line operand operand twoIndices_valid
  have here : twoIndices firstBlock = some ((0 : Fin 2) : Int) := by decide
  have age : Age [noBlock.set 0,noBlock] (0 : Fin 2) 0 := by
    refine ⟨⟨noBlock.set 0,rfl,by decide⟩,fun later row after found => ?_⟩
    match later with
    | 1 =>
      obtain rfl := Option.some.inj found
      decide
    | later + 2 => cases found
  have first := index_of_joined line operand operand twoIndices_valid returns joined here ⟨0,0,age,age,rfl⟩
  exact absurd first (by decide)

end AbstractCacheState

end Otawa.Ets
