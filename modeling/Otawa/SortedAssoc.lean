import Mathlib.Order.Lattice
import Mathlib.Data.List.Pairwise
import Mathlib.Data.Option.Basic

/-!
Sparse maps kept as association lists in strictly ascending key order, scanned
from the left as far as the sought key. `store` records or removes one entry and
`intersect` walks two maps together, combining the entries recorded in both.
-/
namespace Otawa.SortedAssoc

/-- Words as keys, compared without sign. -/
instance bitVecLinearOrder {w : Nat} : LinearOrder (BitVec w) where
  le_refl := fun a => BitVec.le_refl a
  le_trans := fun _ _ _ => BitVec.le_trans
  le_antisymm := fun _ _ => BitVec.le_antisymm
  le_total := fun a b => BitVec.le_total a b
  lt_iff_le_not_ge := fun a b => by simp only [BitVec.lt_def,BitVec.le_def]; omega
  toDecidableLE := inferInstance

variable {K V : Type*} [LinearOrder K]

def Sorted (l : List (K × V)) : Prop := l.Pairwise fun a b => a.1 < b.1

/-- The value of a key, searched up to the first key that is not smaller. -/
def find : List (K × V) → K → Option V
  | [],_ => none
  | (b,v) :: rest,a => if b < a then find rest a else if b = a then some v else none

/-- Record a value for a key (`some`) or forget the key (`none`). -/
def store : List (K × V) → K → Option V → List (K × V)
  | [],a,entry => entry.toList.map (a,·)
  | (b,v) :: rest,a,entry =>
    if b < a then (b,v) :: store rest a entry
    else if b = a then entry.toList.map (a,·) ++ rest
    else entry.toList.map (a,·) ++ (b,v) :: rest

/-- Combine the entries of the keys present on both sides. The operation may fail,
    or drop the entry, in which case the second list is rescanned from the same place. -/
def intersect (op : V → V → Option (Option V)) : List (K × V) → List (K × V) → Option (List (K × V))
  | [],_ => some []
  | _ :: _,[] => some []
  | (a,v) :: s,(b,w) :: t =>
    if a < b then intersect op s ((b,w) :: t)
    else if a = b then
      match op v w with
      | none => none
      | some none => intersect op s ((b,w) :: t)
      | some (some u) => (intersect op s t).map ((a,u) :: ·)
    else intersect op ((a,v) :: s) t
termination_by s t => s.length + t.length

theorem sorted_nil : Sorted ([] : List (K × V)) := List.Pairwise.nil

variable {l : List (K × V)}

theorem sorted_cons {a : K} {v : V} :
    Sorted ((a,v) :: l) ↔ (∀ c ∈ l, a < c.1) ∧ Sorted l := List.pairwise_cons

theorem find_eq_none_of_above {a : K} (above : ∀ c ∈ l, a < c.1) : find l a = none := by
  cases l with
  | nil => rfl
  | cons c rest =>
    have greater : a < c.1 := above c List.mem_cons_self
    rw [find,if_neg greater.asymm,if_neg greater.ne']

theorem find_eq_some_iff (sorted : Sorted l) {a : K} {v : V} :
    find l a = some v ↔ (a,v) ∈ l := by
  induction l with
  | nil => simp [find]
  | cons c rest ih =>
    obtain ⟨b,w⟩ := c
    obtain ⟨above,tail⟩ := sorted_cons.mp sorted
    rw [find,List.mem_cons,Prod.mk.injEq]
    by_cases less : b < a
    · rw [if_pos less,ih tail]
      simp [less.ne']
    · rw [if_neg less]
      have absent : b = a ∨ (a,v) ∉ rest := by
        by_cases same : b = a
        · exact .inl same
        · exact .inr fun member => less (above _ member)
      by_cases same : b = a
      · subst same
        have fresh : (b,v) ∉ rest := fun member => lt_irrefl b (above _ member)
        simp [fresh,eq_comm]
      · have fresh : (a,v) ∉ rest := absent.resolve_left same
        simp [same,Ne.symm same,fresh]

omit [LinearOrder K] in
private theorem mem_entry {a : K} {entry : Option V} {c : K × V} (member : c ∈ entry.toList.map (a,·)) :
    entry = some c.2 ∧ c.1 = a := by
  obtain ⟨u,recorded,rfl⟩ := List.mem_map.mp member
  exact ⟨Option.mem_toList.mp recorded,rfl⟩

theorem mem_store {a : K} {entry : Option V} {c : K × V} (member : c ∈ store l a entry) :
    entry = some c.2 ∧ c.1 = a ∨ c ∈ l := by
  induction l with
  | nil => exact .inl (mem_entry member)
  | cons d rest ih =>
    obtain ⟨b,v⟩ := d
    rw [store] at member
    split at member
    · rcases List.mem_cons.mp member with rfl | inside
      · simp
      · exact (ih inside).imp id (List.mem_cons_of_mem _)
    · split at member <;> rcases List.mem_append.mp member with inserted | inside
      · exact .inl (mem_entry inserted)
      · exact .inr (List.mem_cons_of_mem _ inside)
      · exact .inl (mem_entry inserted)
      · exact .inr inside

private theorem sorted_entry {a : K} (entry : Option V) (above : ∀ c ∈ l, a < c.1)
    (sorted : Sorted l) : Sorted (entry.toList.map (a,·) ++ l) := by
  cases entry with
  | none => exact sorted
  | some u => exact sorted_cons.mpr ⟨above,sorted⟩

private theorem before {a b : K} {v : V} {rest : List (K × V)} (less : a < b) (above : ∀ c ∈ rest, b < c.1) :
    ∀ c ∈ (b,v) :: rest, a < c.1 := by
  intro c member
  rcases List.mem_cons.mp member with rfl | inside
  · exact less
  · exact less.trans (above c inside)

theorem store_sorted (sorted : Sorted l) (a : K) (entry : Option V) :
    Sorted (store l a entry) := by
  induction l with
  | nil => cases entry <;> simp [store,Sorted]
  | cons d rest ih =>
    obtain ⟨b,v⟩ := d
    obtain ⟨above,tail⟩ := sorted_cons.mp sorted
    rw [store]
    split
    · rename_i less
      refine sorted_cons.mpr ⟨?_,ih tail⟩
      intro c member
      rcases mem_store member with ⟨_,rfl⟩ | inside
      · exact less
      · exact above c inside
    · rename_i notLess
      split <;> rename_i same
      · exact sorted_entry entry (same ▸ above) tail
      · have less : a < b := lt_of_le_of_ne (not_lt.mp notLess) (Ne.symm same)
        exact sorted_entry entry (before less above) sorted

private theorem find_entry_self {a : K} (entry : Option V) (above : ∀ c ∈ l, a < c.1) :
    find (entry.toList.map (a,·) ++ l) a = entry := by
  cases entry with
  | none => exact find_eq_none_of_above above
  | some u => simp [find]

theorem find_store_self (sorted : Sorted l) (a : K) (entry : Option V) :
    find (store l a entry) a = entry := by
  induction l with
  | nil => simpa [store] using find_entry_self (l := []) (a := a) entry (by simp)
  | cons d rest ih =>
    obtain ⟨b,v⟩ := d
    obtain ⟨above,tail⟩ := sorted_cons.mp sorted
    rw [store]
    split
    · rename_i less
      rw [find,if_pos less,ih tail]
    · rename_i notLess
      split <;> rename_i same
      · exact find_entry_self entry (same ▸ above)
      · have less : a < b := lt_of_le_of_ne (not_lt.mp notLess) (Ne.symm same)
        exact find_entry_self entry (before less above)

private theorem find_entry_other {a b : K} (entry : Option V) (other : b ≠ a)
    (above : ∀ c ∈ l, a < c.1) : find (entry.toList.map (a,·) ++ l) b = find l b := by
  cases entry with
  | none => rfl
  | some u =>
    show find ((a,u) :: l) b = find l b
    by_cases less : a < b
    · rw [find,if_pos less]
    · have greater : b < a := lt_of_le_of_ne (not_lt.mp less) other
      rw [find,if_neg less,if_neg other.symm,
        find_eq_none_of_above fun c member => greater.trans (above c member)]

theorem find_store_other {a b : K} (entry : Option V) (other : b ≠ a) (sorted : Sorted l) :
    find (store l a entry) b = find l b := by
  induction l with
  | nil => simpa [store] using find_entry_other (l := []) entry other (by simp)
  | cons d rest ih =>
    obtain ⟨k,v⟩ := d
    obtain ⟨above,tail⟩ := sorted_cons.mp sorted
    rw [store]
    split
    · rw [find,find,ih tail]
    · rename_i notLess
      split <;> rename_i same
      · subst same
        rw [find_entry_other entry other above,find]
        split
        · rfl
        · rename_i less
          have greater : b < k := lt_of_le_of_ne (not_lt.mp less) other
          rw [if_neg other.symm,find_eq_none_of_above fun c member => greater.trans (above c member)]
      · have less : a < k := lt_of_le_of_ne (not_lt.mp notLess) (Ne.symm same)
        rw [find_entry_other entry other (before less above)]

/-- The result of an intersection: a failure of the operation at a common key, or
    the sorted list of the combined entries that were not dropped. -/
def Intersects (op : V → V → Option (Option V)) (s t : List (K × V)) : Option (List (K × V)) → Prop
  | none => ∃ a v w, (a,v) ∈ s ∧ (a,w) ∈ t ∧ op v w = none
  | some u => Sorted u ∧ (∀ a r, (a,r) ∈ u ↔ ∃ v w, (a,v) ∈ s ∧ (a,w) ∈ t ∧ op v w = some (some r)) ∧
      ∀ a v w, (a,v) ∈ s → (a,w) ∈ t → op v w ≠ none

private theorem Intersects.grow {op : V → V → Option (Option V)} {s s' t t' : List (K × V)}
    {result : Option (List (K × V))} (spec : Intersects op s t result) (left : s ⊆ s') (right : t ⊆ t')
    (dropped : ∀ a v w, (a,v) ∈ s' → (a,w) ∈ t' → (a,v) ∈ s ∧ (a,w) ∈ t ∨ op v w = some none) :
    Intersects op s' t' result := by
  cases result with
  | none =>
    obtain ⟨a,v,w,vMem,wMem,failed⟩ := spec
    exact ⟨a,v,w,left vMem,right wMem,failed⟩
  | some u =>
    obtain ⟨sorted,entries,total⟩ := spec
    refine ⟨sorted,?_,?_⟩
    · intro a r
      rw [entries]
      constructor
      · rintro ⟨v,w,vMem,wMem,kept⟩
        exact ⟨v,w,left vMem,right wMem,kept⟩
      · rintro ⟨v,w,vMem,wMem,kept⟩
        rcases dropped a v w vMem wMem with both | gone
        · exact ⟨v,w,both.1,both.2,kept⟩
        · simp [gone] at kept
    · intro a v w vMem wMem failed
      rcases dropped a v w vMem wMem with both | gone
      · exact total a v w both.1 both.2 failed
      · simp [gone] at failed

theorem intersect_spec (op : V → V → Option (Option V)) {s t : List (K × V)} (left : Sorted s) (right : Sorted t) :
    Intersects op s t (intersect op s t) := by
  induction s, t using @intersect.induct K V _ op with
  | case1 t => simp [intersect,Intersects,sorted_nil]
  | case2 d s => simp [intersect,Intersects,sorted_nil]
  | case3 a v s b w t less ih =>
    obtain ⟨_,tail⟩ := sorted_cons.mp left
    have above := before (v := w) less (sorted_cons.mp right).1
    rw [intersect,if_pos less]
    refine (ih tail right).grow (List.subset_cons_self _ _) (List.Subset.refl _) ?_
    intro k x y xMem yMem
    rcases List.mem_cons.mp xMem with same | inside
    · cases same
      exact absurd rfl (above _ yMem).ne
    · exact .inl ⟨inside,yMem⟩
  | case4 v s b w t failed notLess =>
    rw [intersect,if_neg notLess,if_pos rfl,failed]
    exact ⟨b,v,w,List.mem_cons_self,List.mem_cons_self,failed⟩
  | case5 v s b w t gone notLess ih =>
    obtain ⟨leftAbove,leftTail⟩ := sorted_cons.mp left
    obtain ⟨rightAbove,_⟩ := sorted_cons.mp right
    rw [intersect,if_neg notLess,if_pos rfl,gone]
    refine (ih leftTail right).grow (List.subset_cons_self _ _) (List.Subset.refl _) ?_
    intro k x y xMem yMem
    rcases List.mem_cons.mp xMem with same | inside
    · cases same
      rcases List.mem_cons.mp yMem with same | inside
      · cases same; exact .inr gone
      · exact absurd rfl (rightAbove _ inside).ne
    · exact .inl ⟨inside,yMem⟩
  | case6 v s b w t r kept notLess ih =>
    obtain ⟨leftAbove,leftTail⟩ := sorted_cons.mp left
    obtain ⟨rightAbove,rightTail⟩ := sorted_cons.mp right
    rw [intersect,if_neg notLess,if_pos rfl,kept]
    have rest := ih leftTail rightTail
    -- a key of both lists is `b` on both sides, or lies in both tails
    have common (k : K) (x y : V) (xMem : (k,x) ∈ (b,v) :: s) (yMem : (k,y) ∈ (b,w) :: t) :
        k = b ∧ x = v ∧ y = w ∨ (k,x) ∈ s ∧ (k,y) ∈ t := by
      rcases List.mem_cons.mp xMem with same | xInside
      · cases same
        rcases List.mem_cons.mp yMem with same | yInside
        · cases same; exact .inl ⟨rfl,rfl,rfl⟩
        · exact absurd rfl (rightAbove _ yInside).ne
      · rcases List.mem_cons.mp yMem with same | yInside
        · cases same; exact absurd rfl (leftAbove _ xInside).ne
        · exact .inr ⟨xInside,yInside⟩
    cases result : intersect op s t with
    | none =>
      rw [result] at rest
      obtain ⟨a,x,y,xMem,yMem,failed⟩ := rest
      exact ⟨a,x,y,List.mem_cons_of_mem _ xMem,List.mem_cons_of_mem _ yMem,failed⟩
    | some u =>
      rw [result] at rest
      obtain ⟨sorted,entries,total⟩ := rest
      refine ⟨sorted_cons.mpr ⟨?_,sorted⟩,?_,?_⟩
      · rintro ⟨k,x⟩ member
        obtain ⟨y,_,inside,_⟩ := (entries k x).mp member
        exact leftAbove (k,y) inside
      · intro k x
        rw [List.mem_cons,entries]
        constructor
        · rintro (same | ⟨y,z,yMem,zMem,combined⟩)
          · cases same
            exact ⟨v,w,List.mem_cons_self,List.mem_cons_self,kept⟩
          · exact ⟨y,z,List.mem_cons_of_mem _ yMem,List.mem_cons_of_mem _ zMem,combined⟩
        · rintro ⟨y,z,yMem,zMem,combined⟩
          rcases common k y z yMem zMem with ⟨rfl,rfl,rfl⟩ | ⟨yInside,zInside⟩
          · rw [kept] at combined
            cases combined; exact .inl rfl
          · exact .inr ⟨y,z,yInside,zInside,combined⟩
      · intro k y z yMem zMem
        rcases common k y z yMem zMem with ⟨rfl,rfl,rfl⟩ | ⟨yInside,zInside⟩
        · simp [kept]
        · exact total k y z yInside zInside
  | case7 a v s b w t notLess other ih =>
    have less : b < a := lt_of_le_of_ne (not_lt.mp notLess) (Ne.symm other)
    obtain ⟨_,tail⟩ := sorted_cons.mp right
    have above := before (v := v) less (sorted_cons.mp left).1
    rw [intersect,if_neg notLess,if_neg other]
    refine (ih left tail).grow (List.Subset.refl _) (List.subset_cons_self _ _) ?_
    intro k x y xMem yMem
    rcases List.mem_cons.mp yMem with same | inside
    · cases same
      exact absurd rfl (above _ xMem).ne
    · exact .inl ⟨xMem,inside⟩

end Otawa.SortedAssoc
