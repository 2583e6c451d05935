import Otawa.PushPop
import Mathlib.Tactic.Common

/-!
The canonical form of a path (`system_Path.cpp`): its components are filtered
and joined again. The loop takes a component of one dot for a name, since the
test on it has an empty statement, and the last component is added without any
test; what the result names is compared with what the path names.
-/
namespace Otawa.Sys

open PushPop

/-! ### The code -/

abbrev Component := List Char

def separator : Char := '/'

def isSeparator (c : Char) : Bool := c == separator

def dot : Component := ['.']

def dotDot : Component := ['.','.']

def nextSeparator (buf : List Char) (start : Nat) : Option Nat :=
  ((buf.drop start).findIdx? isSeparator).map (start + ·)

theorem nextSeparator_spec {buf : List Char} {start stop : Nat} (next : nextSeparator buf start = some stop) :
    start ≤ stop ∧ stop < buf.length ∧ separator ∉ (buf.drop start).take (stop - start) ∧
      buf.drop start = (buf.drop start).take (stop - start) ++ separator :: buf.drop (stop + 1) := by
  obtain ⟨i,found,rfl⟩ := Option.map_eq_some_iff.mp next
  obtain ⟨inside,here,before⟩ := List.findIdx?_eq_some_iff_getElem.mp found
  rw [List.length_drop] at inside
  refine ⟨Nat.le_add_right _ _,by omega,?_,?_⟩
  · rw [Nat.add_sub_cancel_left]
    intro member
    obtain ⟨j,less,eq⟩ := List.mem_take_iff_getElem.mp member
    refine before j (by omega) ?_
    rw [eq]
    decide
  · have sep : buf[start + i] = separator := by simpa [isSeparator] using here
    have rest : buf.drop (start + i) = separator :: buf.drop (start + i + 1) := by
      rw [List.drop_eq_getElem_cons (by omega),sep]
    rw [Nat.add_sub_cancel_left,← rest,← List.drop_drop,List.take_append_drop]

/-- The loop on the separators; the first test of its body has no effect, and the last component is added after it. -/
def select (buf : List Char) (start : Nat) (comps : List Component) : List Component :=
  match next : nextSeparator buf start with
  | some stop =>
    let comp := (buf.drop start).take (stop - start)
    let comps :=
      if comp = dotDot then
        if 0 < comps.length then comps.take (comps.length - 1) else comps
      else if comp ≠ [] then comps ++ [comp]
      else comps
    select buf (stop + 1) comps
  | none => comps ++ [buf.drop start]
termination_by buf.length - start
decreasing_by
  have := nextSeparator_spec next
  omega

def isAbsolute (buf : List Char) : Bool := buf.head? == some separator

def isHomeRelative (buf : List Char) : Bool := buf.head? == some '~'

def append (buf path : List Char) : List Char :=
  if buf = [] then path else if path = [] then buf else buf ++ separator :: path

/-- With the current directory and the home directory. -/
def absolute (current home buf : List Char) : List Char :=
  if isAbsolute buf then buf
  else if isHomeRelative buf then append home (buf.drop 1)
  else append current buf

def canonical (current home buf : List Char) : List Char :=
  let path := if isAbsolute buf then buf else absolute current home buf
  (select path 0 []).flatMap (separator :: ·)

/-- The components of an absolute path, of which the root has none. -/
def components (path : List Char) : List Component := if path = [separator] then [] else (path.splitOn separator).tail

def isName (comp : Component) : Bool := comp != [] && comp != dot && comp != dotDot

def place (path : List Char) : List Component := (path.splitOn separator).foldl (step (· == dotDot) isName) []

structure Canonical (path result : List Char) (again : List Char → List Char) : Prop where
  named : ∀ comp ∈ components result, isName comp = true
  fixed : again result = result
  same : place result = place path

def isKept (comp : Component) : Bool := comp != [] && comp != dotDot

def before (path : List Char) : List Component := (path.splitOn separator).dropLast

def last (path : List Char) : Component := (path.splitOn separator).getLast (List.splitOn_ne_nil separator path)

/-- The place that the components before the last one lead to. -/
def names (path : List Char) : List Component := (before path).foldl (step (· == dotDot) isName) []

/-- Before the last component the loop keeps the same components as if it skipped the ones of one dot, and the last
    component is a name, or it is empty and the others lead to the root. -/
def Regular (path : List Char) : Prop :=
  Matched (· == dotDot) isName isKept (before path) ∧
    (isName (last path) = true ∨ last path = [] ∧ names path = [])

/-! ### What the loop computes -/

theorem step_isKept (comps : List Component) (comp : Component) :
    (if comp = dotDot then if 0 < comps.length then comps.take (comps.length - 1) else comps
      else if comp ≠ [] then comps ++ [comp] else comps) = step (· == dotDot) isKept comps comp := by
  rw [step]
  by_cases up : comp = dotDot
  · subst up
    cases comps with
    | nil => rfl
    | cons c cs => simp [List.dropLast_eq_take]
  · by_cases empty : comp = []
    · subst empty
      rfl
    · simp [up,empty,isKept]

theorem select_eq (buf : List Char) (start : Nat) (comps : List Component) :
    select buf start comps = (before (buf.drop start)).foldl (step (· == dotDot) isKept) comps ++ [last (buf.drop start)] := by
  induction remaining : buf.length - start using Nat.strongRecOn generalizing start comps with
  | ind remaining' ih =>
    rw [select]
    split
    next stop next =>
      obtain ⟨later,inside,none,eq⟩ := nextSeparator_spec next
      have split : (buf.drop start).splitOn separator = (buf.drop start).take (stop - start) :: (buf.drop (stop + 1)).splitOn separator := by
        conv_lhs => rw [eq]
        exact List.splitOn_append_cons_self_of_not_mem none _
      have rest := List.splitOn_ne_nil separator (buf.drop (stop + 1))
      simp only [step_isKept]
      rw [ih _ (by omega) _ _ rfl]
      simp only [before,last,split,List.dropLast_cons_of_ne_nil rest,List.foldl_cons,List.getLast_cons rest]
    next next =>
      have none : separator ∉ buf.drop start := by
        intro member
        rw [nextSeparator,Option.map_eq_none_iff,List.findIdx?_eq_none_iff] at next
        have := next separator member
        simp [isSeparator] at this
      simp [before,last,List.splitOn_eq_singleton none]

theorem not_mem_components (path : List Char) {comp : Component} (member : comp ∈ path.splitOn separator) : separator ∉ comp := by
  induction path generalizing comp with
  | nil =>
    obtain rfl : comp = [] := by simpa using member
    exact List.not_mem_nil
  | cons c path ih =>
    rw [List.splitOn_cons_eq_if_modifyHead] at member
    split at member
    next =>
      rcases List.mem_cons.mp member with rfl | later
      · exact List.not_mem_nil
      · exact ih later
    next other =>
      obtain ⟨first,rest,eq⟩ := List.exists_cons_of_ne_nil (List.splitOn_ne_nil separator path)
      rw [eq,List.modifyHead_cons] at member
      rcases List.mem_cons.mp member with rfl | later
      · have tail := ih (eq ▸ List.mem_cons_self)
        simp only [beq_iff_eq] at other
        intro inside
        rcases List.mem_cons.mp inside with same | inside
        · exact other same.symm
        · exact tail inside
      · exact ih (eq ▸ List.mem_cons_of_mem _ later)

theorem splitOn_eq (path : List Char) : path.splitOn separator = before path ++ [last path] :=
  (List.dropLast_append_getLast _).symm

theorem splitOn_join {comps : List Component} (apart : ∀ comp ∈ comps, separator ∉ comp) :
    (comps.flatMap (separator :: ·)).splitOn separator = [] :: comps := by
  have join : comps.flatMap (separator :: ·) = List.intercalate [separator] ([] :: comps) := by
    induction comps with
    | nil => rfl
    | cons c cs ih =>
      rw [List.flatMap_cons,ih fun comp member => apart comp (List.mem_cons_of_mem _ member)]
      cases cs <;> simp [List.intercalate,List.intersperse]
  rw [join,List.splitOn_intercalate separator ?_ (List.cons_ne_nil _ _)]
  intro comp member
  rcases List.mem_cons.mp member with rfl | member
  · exact List.not_mem_nil
  · exact apart comp member

section
variable (current home : List Char) {path : List Char}

def kept (path : List Char) : List Component := (before path).foldl (step (· == dotDot) isKept) []

variable {comp : Component}

theorem isKept_of_isName (name : isName comp = true) : isKept comp = true := by
  simp only [isName,isKept,Bool.and_eq_true] at name ⊢
  exact ⟨name.1.1,name.2⟩

theorem not_dotDot (name : isKept comp = true) : (comp == dotDot) = false := by
  simp only [isKept,Bool.and_eq_true,bne_iff_ne] at name
  exact beq_false_of_ne name.2

theorem mem_kept (member : comp ∈ kept path) : comp ∈ path.splitOn separator ∧ isKept comp = true := by
  rw [kept,foldl_step] at member
  obtain ⟨inside,-,name⟩ := mem_survivors (by simpa using member)
  exact ⟨List.dropLast_subset _ inside,name⟩

theorem mem_names (member : comp ∈ names path) : isName comp = true := by
  rw [names,foldl_step] at member
  exact (mem_survivors (by simpa using member)).2.2

theorem kept_eq_names_iff : kept path = names path ↔ Matched (· == dotDot) isName isKept (before path) := by
  rw [kept,names,foldl_step,foldl_step]
  simpa using survivors_eq_iff (· == dotDot) (fun _ => isKept_of_isName) (before path)

theorem foldl_names {comps : List Component} (all : ∀ comp ∈ comps, isName comp = true) :
    comps.foldl (step (· == dotDot) isName) [] = comps :=
  foldl_pushed (fun comp member => ⟨not_dotDot (isKept_of_isName (all comp member)),all comp member⟩) []

theorem step_name {comps : List Component} (name : isName comp = true) :
    step (· == dotDot) isName comps comp = comps ++ [comp] := by
  simp [step,not_dotDot (isKept_of_isName name),name]

theorem step_nil (comps : List Component) : step (· == dotDot) isName comps [] = comps := rfl

theorem canonical_eq (absolute : isAbsolute path = true) : canonical current home path = (kept path ++ [last path]).flatMap (separator :: ·) := by
  rw [canonical,if_pos absolute,select_eq]
  rfl

theorem splitOn_canonical (absolute : isAbsolute path = true) :
    (canonical current home path).splitOn separator = [] :: (kept path ++ [last path]) := by
  rw [canonical_eq current home absolute]
  refine splitOn_join fun comp member => not_mem_components path ?_
  rcases List.mem_append.mp member with member | member
  · exact (mem_kept member).1
  · rw [List.mem_singleton.mp member]
    exact List.getLast_mem _

theorem canonical_eq_root_iff (absolute : isAbsolute path = true) : canonical current home path = [separator] ↔ kept path = [] ∧ last path = [] := by
  constructor
  · intro root
    have split := splitOn_canonical current home absolute
    rw [root] at split
    have same : [] ++ [[]] = kept path ++ [last path] := List.cons_inj_right _ |>.mp split
    obtain ⟨none,empty⟩ := List.append_inj' same rfl
    exact ⟨none.symm,(List.singleton_inj.mp empty).symm⟩
  · rintro ⟨none,empty⟩
    rw [canonical_eq current home absolute,none,empty]
    rfl

theorem canonical_canonical (absolute : isAbsolute path = true) :
    canonical current home (canonical current home path) = canonical current home path := by
  have split := splitOn_canonical current home absolute
  have absolute' : isAbsolute (canonical current home path) = true := by
    rw [canonical_eq current home absolute]
    cases kept path <;> rfl
  have same : kept (canonical current home path) = kept path := by
    rw [kept,before,split,List.dropLast_cons_of_ne_nil (by simp),List.dropLast_concat,List.foldl_cons]
    exact foldl_pushed (fun comp member => ⟨not_dotDot (mem_kept member).2,(mem_kept member).2⟩) []
  have same' : last (canonical current home path) = last path := by
    simp only [last,split]
    simp
  rw [canonical_eq current home absolute',same,same',canonical_eq current home absolute]

theorem place_canonical (absolute : isAbsolute path = true) :
    place (canonical current home path) = step (· == dotDot) isName ((kept path).foldl (step (· == dotDot) isName) []) (last path) := by
  rw [place,splitOn_canonical current home absolute,List.foldl_cons,List.foldl_append]
  rfl

theorem place_eq : place path = step (· == dotDot) isName (names path) (last path) := by
  rw [place,splitOn_eq,List.foldl_append]
  rfl

/-- The canonical form of an absolute path has only names for components and names the same place exactly when the
    path is regular; it is its own canonical form in any case. -/
theorem canonical_right_iff (absolute : isAbsolute path = true) :
    Canonical path (canonical current home path) (canonical current home) ↔ Regular path := by
  rw [Regular,← kept_eq_names_iff]
  have root := canonical_eq_root_iff current home absolute
  have split := splitOn_canonical current home absolute
  constructor
  · rintro ⟨named,-,same⟩
    rw [place_canonical current home absolute,place_eq] at same
    by_cases empty : kept path = [] ∧ last path = []
    · rw [empty.1,empty.2,List.foldl_nil,step_nil,step_nil] at same
      exact ⟨empty.1.trans same,.inr ⟨empty.2,same.symm⟩⟩
    · rw [components,if_neg (mt root.mp empty),split] at named
      have name := named (last path) (by simp)
      rw [foldl_names fun comp member => named comp (by simp [member]),step_name name,step_name name,List.append_left_inj] at same
      exact ⟨same,.inl name⟩
  · rintro ⟨same,final⟩
    have all (comp : Component) (member : comp ∈ kept path) : isName comp = true := mem_names (same ▸ member)
    refine ⟨?_,canonical_canonical current home absolute,?_⟩
    · intro comp member
      rw [components] at member
      split at member
      next top => exact absurd member List.not_mem_nil
      next below =>
        rw [split,List.tail_cons] at member
        rcases List.mem_append.mp member with member | member
        · exact all comp member
        · rw [List.mem_singleton.mp member]
          rcases final with name | ⟨empty,none⟩
          · exact name
          · exact absurd (root.mpr ⟨same.trans none,empty⟩) below
    · rw [place_canonical current home absolute,place_eq,foldl_names all,same]

/-- A path that goes up. -/
theorem canonical_right_iff_up : Canonical "/a/../b".toList (canonical [] [] "/a/../b".toList) (canonical [] []) := by
  refine (canonical_right_iff [] [] (by decide)).mpr ⟨?_,.inl (by decide)⟩
  exact ⟨by decide,by decide,by decide,trivial⟩

/-- A component of one dot is kept, a last one is not looked at, and going up takes a dot for a directory. -/
theorem canonical_wrong :
    ¬Canonical "/a/./b".toList (canonical [] [] "/a/./b".toList) (canonical [] []) ∧
      ¬Canonical "/a/..".toList (canonical [] [] "/a/..".toList) (canonical [] []) ∧
      ¬Canonical "/a/".toList (canonical [] [] "/a/".toList) (canonical [] []) ∧
      place (canonical [] [] "/a/./../b".toList) ≠ place "/a/./../b".toList := by
  have middle : canonical [] [] "/a/./b".toList = "/a/./b".toList := (canonical_eq [] [] (by decide)).trans (by decide)
  have up : canonical [] [] "/a/..".toList = "/a/..".toList := (canonical_eq [] [] (by decide)).trans (by decide)
  have empty : canonical [] [] "/a/".toList = "/a/".toList := (canonical_eq [] [] (by decide)).trans (by decide)
  have other : canonical [] [] "/a/./../b".toList = "/a/b".toList := (canonical_eq [] [] (by decide)).trans (by decide)
  refine ⟨?_,?_,?_,?_⟩
  · rintro ⟨named,-,-⟩
    rw [middle] at named
    exact absurd (named dot (by decide)) (by decide)
  · rintro ⟨named,-,-⟩
    rw [up] at named
    exact absurd (named dotDot (by decide)) (by decide)
  · rintro ⟨named,-,-⟩
    rw [empty] at named
    exact absurd (named [] (by decide)) (by decide)
  · rw [other]
    decide

end

end Otawa.Sys
