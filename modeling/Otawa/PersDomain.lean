import Otawa.CachePers
import Mathlib.Data.List.ReduceOption
import Mathlib.Logic.Function.Iterate

/-!
The domain of the persistence analysis (`PERSProblem::Domain`): one item for each loop
around the current point, the innermost last, and one for the whole program. The join is
meant to drop the outermost levels that the other stack does not have, but the overload of
`Vector::remove` it calls removes a value, so that they stay.
-/
namespace Otawa.Cache

variable {size A : Nat}

namespace Item

def lub (item dom : Item size A) : Item size A where
  age i := if item.age i = -1 ∨ item.age i < dom.age i ∧ dom.age i ≠ -1 then dom.age i else item.age i
  valid i := by
    split
    · exact dom.valid i
    · exact item.valid i
  ways := item.ways

def equals (item dom : Item size A) : Bool := (List.finRange size).all fun i => item.age i == dom.age i

theorem ext_age {item dom : Item size A} (same : item.age = dom.age) : item = dom := by
  cases item
  cases dom
  cases same
  rfl

theorem equals_iff {item dom : Item size A} : item.equals dom = true ↔ item = dom := by
  simp only [equals,List.all_eq_true,List.mem_finRange,beq_iff_eq,true_implies]
  exact ⟨fun same => ext_age (funext same),fun same i => by rw [same]⟩

theorem lub_age (item dom : Item size A) (i : Fin size) : (item.lub dom).age i = max (item.age i) (dom.age i) := by
  have known := item.valid i
  have known' := dom.valid i
  show (if _ then _ else _) = _
  split <;> omega

theorem lub_comm (item dom : Item size A) : item.lub dom = dom.lub item :=
  ext_age (funext fun i => by rw [lub_age,lub_age,Int.max_comm])

end Item

namespace PERSProblem

structure Domain (size A : Nat) where
  isBottom : Bool
  whole : Item size A
  data : List (Item size A)

/-- The call `data.remove(0)`: `Vector::remove` takes the value to remove, here the null
pointer, and removes its first occurrence. -/
def removeNull (data : List (Item size A)) : List (Item size A) :=
  ((data.map some).eraseP Option.isNone).reduceOption

/-- The first loop of `lub`, after k turns. -/
def lubLoop (data dom : List (Item size A)) : Nat → List (Item size A)
  | 0 => data
  | k + 1 => (lubLoop data dom k).modify (data.length - 1 - k) fun item =>
      match dom[dom.length - 1 - k]? with
      | some other => item.lub other
      | none => item

/-- The loop of `equals`, with the assertion on the index of the vector. -/
def equalsLoop : List (Item size A) → List (Item size A) → Option Bool
  | _, [] => some true
  | [], _ :: _ => none
  | item :: data, other :: dom => if item.equals other then equalsLoop data dom else some false

namespace Domain

variable (d dom : Domain size A)

def setToBottom : Domain size A := ⟨true,Item.empty d.whole.ways,[]⟩

/-- `operator=`. -/
def assign (src : Domain size A) : Domain size A :=
  if src.isBottom then d.setToBottom
  else
    let minl := min src.data.length d.data.length
    { isBottom := false
      whole := src.whole
      data := ((d.data.take minl).zipWith (fun _ item => item) src.data) ++ src.data.drop d.data.length }

def lub : Domain size A :=
  if dom.isBottom then d
  else if d.isBottom then ⟨false,dom.whole,d.data ++ dom.data⟩
  else
    let length := min d.data.length dom.data.length
    { isBottom := false
      whole := d.whole.lub dom.whole
      data := removeNull^[d.data.length - length] (lubLoop d.data dom.data length) }

/-- `equals`, without an answer when an assertion fails. -/
def equals : Option Bool :=
  if d.isBottom || dom.isBottom then none
  else (equalsLoop d.data dom.data).map fun same => same && (d.whole.equals dom.whole && d.isBottom == dom.isBottom)

end Domain

/-- The innermost levels that both stacks have, joined by depth from the innermost one. -/
def innermostLub (data dom : List (Item size A)) : List (Item size A) :=
  (List.zipWith Item.lub data.reverse dom.reverse).reverse

variable {data dom : List (Item size A)} {d1 d2 : Domain size A}

theorem innermostLub_comm : innermostLub data dom = innermostLub dom data := by
  rw [innermostLub,List.zipWith_comm_of_comm Item.lub_comm,innermostLub]

theorem length_innermostLub : (innermostLub data dom).length = min data.length dom.length := by
  simp [innermostLub]

theorem removeNull_eq (data : List (Item size A)) : removeNull data = data := by
  rw [removeNull,List.eraseP_of_forall_not (by simp)]
  simp [List.reduceOption]

theorem getElem?_lubLoop {k : Nat} (inside : k ≤ data.length) (inside' : k ≤ dom.length) (i : Nat) :
    (lubLoop data dom k)[i]? =
      if data.length - k ≤ i then
        match data[i]?, dom[i + dom.length - data.length]? with
        | some item, some other => some (item.lub other)
        | _, _ => none
      else data[i]? := by
  induction k with
  | zero =>
    rw [lubLoop]
    split
    · rw [List.getElem?_eq_none (by omega)]
    · rfl
  | succ k ih =>
    rw [lubLoop,List.getElem?_modify,ih (by omega) (by omega)]
    by_cases here : data.length - 1 - k = i
    · have place : i + dom.length - data.length = dom.length - 1 - k := by omega
      rw [if_neg (by omega),if_pos (by omega),place,List.getElem?_eq_getElem (by omega : i < data.length),
        List.getElem?_eq_getElem (by omega : dom.length - 1 - k < dom.length)]
      simp [here]
    · by_cases before : data.length - k ≤ i
      · rw [if_pos before,if_pos (by omega)]
        simp [here]
      · rw [if_neg before,if_neg (by omega)]
        simp [here]

theorem lubLoop_eq : lubLoop data dom (min data.length dom.length) =
    data.take (data.length - dom.length) ++ innermostLub data dom := by
  have taken : (data.take (data.length - dom.length)).length = data.length - dom.length :=
    List.length_take_of_le (Nat.sub_le _ _)
  refine List.ext_getElem? fun i => ?_
  rw [getElem?_lubLoop (Nat.min_le_left _ _) (Nat.min_le_right _ _)]
  by_cases outer : i < data.length - dom.length
  · rw [if_neg (by omega),List.getElem?_append_left (by omega),List.getElem?_take_of_lt outer]
  · rw [if_pos (by omega),List.getElem?_append_right (by omega),taken]
    by_cases inside : i < data.length
    · have place : min data.length dom.length - 1 - (i - (data.length - dom.length)) = data.length - 1 - i := by omega
      have depth : data.length - 1 - (data.length - 1 - i) = i := by omega
      have depth' : dom.length - 1 - (data.length - 1 - i) = i + dom.length - data.length := by omega
      rw [innermostLub,List.getElem?_reverse (by simp; omega),List.length_zipWith,List.length_reverse,List.length_reverse,
        place,List.getElem?_zipWith,List.getElem?_reverse (by omega),List.getElem?_reverse (by omega),depth,depth']
      cases data[i]? <;> cases dom[i + dom.length - data.length]? <;> rfl
    · rw [List.getElem?_eq_none (by omega : data.length ≤ i),
        List.getElem?_eq_none (l := innermostLub data dom) (by rw [length_innermostLub]; omega)]

theorem lub_eq (some1 : d1.isBottom = false) (some2 : d2.isBottom = false) : d1.lub d2 =
    ⟨false,d1.whole.lub d2.whole,d1.data.take (d1.data.length - d2.data.length) ++ innermostLub d1.data d2.data⟩ := by
  have kept (turns : Nat) (data : List (Item size A)) : removeNull^[turns] data = data :=
    Function.iterate_fixed (removeNull_eq data) turns
  rw [Domain.lub,some1,some2,if_neg Bool.false_ne_true,if_neg Bool.false_ne_true]
  simp only [kept,lubLoop_eq]

/-- The join has the levels it should have when its left stack is not the higher one. -/
theorem lub_levels_iff (some1 : d1.isBottom = false) (some2 : d2.isBottom = false) :
    (d1.lub d2).data = innermostLub d1.data d2.data ↔ d1.data.length ≤ d2.data.length := by
  rw [lub_eq some1 some2]
  dsimp only
  rw [List.append_left_eq_self,List.take_eq_nil_iff]
  constructor
  · rintro (none | none)
    · omega
    · rw [none]
      exact Nat.zero_le _
  · exact fun less => .inl (Nat.sub_eq_zero_of_le less)

theorem assign_eq (d1 : Domain size A) (some2 : d2.isBottom = false) : d1.assign d2 = d2 := by
  have copied : List.zipWith (fun _ item => item) (d1.data.take (min d2.data.length d1.data.length)) d2.data =
      d2.data.take d1.data.length := by
    refine List.ext_getElem (by simp; omega) fun i inside inside' => ?_
    simp
  rw [Domain.assign,some2,if_neg Bool.false_ne_true]
  simp only [copied,List.take_append_drop]
  rw [← some2]

/-- What `equals` compares: the levels that its right stack has. -/
theorem equalsLoop_iff : equalsLoop data dom = some true ↔ ∃ more, data = dom ++ more := by
  induction dom generalizing data with
  | nil => simp [equalsLoop]
  | cons other dom ih =>
    cases data with
    | nil => simp [equalsLoop]
    | cons item data =>
      rw [equalsLoop]
      by_cases same : item = other
      · rw [if_pos (Item.equals_iff.mpr same),ih]
        simp [same]
      · rw [if_neg fun equal => same (Item.equals_iff.mp equal)]
        simp [same]

theorem equals_iff (some1 : d1.isBottom = false) (some2 : d2.isBottom = false) :
    d1.equals d2 = some true ↔ (∃ more, d1.data = d2.data ++ more) ∧ d1.whole = d2.whole := by
  simp [Domain.equals,some1,some2,equalsLoop_iff,Item.equals_iff]

/-- What the operations have to do with two stacks. -/
structure Laws (d1 d2 : Domain size A) : Prop where
  both : d1.lub d2 = d2.lub d1
  levels : (d1.lub d2).data = innermostLub d1.data d2.data
  whole : (d1.lub d2).whole = d1.whole.lub d2.whole
  assign : d1.assign d2 = d2
  equals : d1.equals d2 = some true → d1.data = d2.data ∧ d1.whole = d2.whole

/-- The laws hold for stacks of one height, and for no others. -/
theorem laws_iff (some1 : d1.isBottom = false) (some2 : d2.isBottom = false) :
    Laws d1 d2 ↔ d1.data.length = d2.data.length := by
  constructor
  · intro laws
    have left := (lub_levels_iff some1 some2).mp laws.levels
    have levels := laws.levels
    rw [laws.both,innermostLub_comm] at levels
    exact Nat.le_antisymm left ((lub_levels_iff some2 some1).mp levels)
  · intro height
    refine ⟨?_,(lub_levels_iff some1 some2).mpr (Nat.le_of_eq height),by rw [lub_eq some1 some2],assign_eq d1 some2,?_⟩
    · rw [lub_eq some1 some2,lub_eq some2 some1,height,Nat.sub_self,List.take_zero,List.take_zero,innermostLub_comm,
        Item.lub_comm]
    · intro equal
      obtain ⟨⟨more,extends_⟩,whole⟩ := (equals_iff some1 some2).mp equal
      have none : more = [] := by
        have length := congrArg List.length extends_
        rw [List.length_append] at length
        exact List.length_eq_zero_iff.mp (by omega)
      exact ⟨by rw [extends_,none,List.append_nil],whole⟩

/-- Two stacks of two levels, of two blocks used in different orders. -/
theorem laws_iff_orders :
    let first : Item 2 2 := (Item.empty Nat.two_pos).inject (ACS.empty Nat.two_pos) 0
    let both := first.inject (ACS.empty Nat.two_pos) 1
    let other : Item 2 2 := ((Item.empty Nat.two_pos).inject (ACS.empty Nat.two_pos) 1).inject (ACS.empty Nat.two_pos) 0
    let d1 : Domain 2 2 := ⟨false,both,[both,first]⟩
    let d2 : Domain 2 2 := ⟨false,other,[first,other]⟩
    Laws d1 d2 ∧ (d1.lub d2).data.map (fun item => (item.age 0,item.age 1)) = [(1,0),(0,1)] ∧ d1.equals d2 = some false := by
  intro first both other d1 d2
  exact ⟨(laws_iff rfl rfl).mpr rfl,by decide,by decide⟩

def inLoops (loops : Nat) : Domain 1 1 := ⟨false,Item.empty Nat.one_pos,List.replicate loops (Item.empty Nat.one_pos)⟩

/-- The join of a stack of one level with one of none keeps the level. -/
theorem lub_keeps_level :
    ¬ ∀ (size A : Nat) (d1 d2 : Domain size A), d1.isBottom = false → d2.isBottom = false → Laws d1 d2 :=
  fun all => absurd (congrArg List.length (all 1 1 (inLoops 1) (inLoops 0) rfl rfl).levels) (by decide)

/-- A stack is equal to the one of its outer loops. -/
example : (inLoops 1).equals (inLoops 0) = some true ∧ (inLoops 0).equals (inLoops 1) = none := by decide

end PERSProblem

end Otawa.Cache
