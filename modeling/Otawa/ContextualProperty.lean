import Otawa.KeyTree

/-!
Contextual properties: property lists found by a contextual path. The lists are the nodes
of a tree gone down from the innermost step. To find a list takes each step of the path by
which the tree goes on, and passes over the others, so that a child taken early can hide a
path stored along another one.
-/
namespace Otawa.Contextual

/-- `ContextualStep::kind_t`. -/
inductive Kind where
  | none
  | function
  | call
  | firstIter
  | otherIter
  deriving DecidableEq

structure Address where
  page : BitVec 32
  offset : BitVec 32
  deriving DecidableEq

def Address.null : Address := ⟨BitVec.allOnes 32,0⟩

structure ContextualStep where
  kind : Kind
  addr : Address
  deriving DecidableEq

/-- `ContextualPath`, the closest step last. -/
abbrev ContextualPath := List ContextualStep

/-- `Node`: its step and the identifiers of its property list. -/
abbrev Node (I : Type) := KeyTree ContextualStep (List I)

/-- A property list: the identifiers it has, and the root of its contextual property. -/
structure PropList (I : Type) where
  own : List I
  contextual : Option (Node I)

variable {I : Type}

def newRoot : Node I := KeyTree.leaf ⟨.none,Address.null⟩ []

/-- `makeProps`, and what the caller does with the list. -/
def makeProps (root : Node I) (path : ContextualPath) (set : List I → List I) : Node I := root.alter [] set path.reverse

/-- `make`, and what the caller does with the list. -/
def make (props : PropList I) (path : ContextualPath) (set : List I → List I) : PropList I :=
  if path.isEmpty then { props with own := set props.own }
  else { props with contextual := some (makeProps (props.contextual.getD newRoot) path set) }

/-- The nodes that `findProps` pushes, with their paths. -/
def descend (node : Node I) (path : ContextualPath) : List ContextualStep → List (ContextualPath × List I)
  | [] => []
  | step :: rest =>
    match node.child step with
    | some cur => (step :: path,cur.data) :: descend cur (step :: path) rest
    | none => descend node path rest

variable [DecidableEq I]

/-- `findProps`: the path of the list found, which is empty for the context-free list. -/
def findProps (root : Node I) (props : PropList I) (path : ContextualPath) (id : I) : ContextualPath :=
  let stack := ([],props.own) :: descend root [] path.reverse
  match stack.reverse.find? fun list => id ∈ list.2 with
  | some list => list.1
  | none => []

def find (props : PropList I) (path : ContextualPath) (id : I) : ContextualPath :=
  match props.contextual with
  | some root => findProps root props path id
  | none => []

def setAll (own : List I) (sets : List (ContextualPath × I)) : PropList I :=
  sets.foldl (fun props set => make props set.1 fun list => set.2 :: list) ⟨own,none⟩

variable {sets : List (ContextualPath × I)} {id : I}

def Made (sets : List (ContextualPath × I)) (path : ContextualPath) : Prop := ∃ set ∈ sets, path <:+ set.1

def Matches (path query : ContextualPath) : Prop := path ≠ [] ∧ path.Sublist query ∧ path.getLast? = query.getLast?

/-- The answer is right: a matching stored path if there is one, else the context-free list. -/
def Right (own : List I) (sets : List (ContextualPath × I)) (id : I) (query : ContextualPath) : Prop :=
  ((∃ path, (path,id) ∈ sets ∧ Matches path query) →
    ∃ path, (path,id) ∈ sets ∧ Matches path query ∧ find (setAll own sets) query id = path) ∧
  ((¬ ∃ path, (path,id) ∈ sets ∧ Matches path query) → find (setAll own sets) query id = [])

/-- The steps, from the innermost one, are met in the query by passing only over steps by
which no path set goes on from the part already met. -/
def Straight (made : ContextualPath → Prop) (met : ContextualPath) : List ContextualStep → List ContextualStep → Prop
  | [], _ => True
  | step :: steps, query => ∃ skipped rest, query = skipped ++ step :: rest ∧
      (∀ other ∈ skipped, ¬ made (other :: met)) ∧ Straight made (step :: met) steps rest

def Met (sets : List (ContextualPath × I)) (id : I) (query : ContextualPath) : Prop :=
  ∃ path, (path,id) ∈ sets ∧ path ≠ [] ∧ Straight (Made sets) [] path.reverse query.reverse

omit [DecidableEq I] in
theorem Straight.sublist {made : ContextualPath → Prop} {met : ContextualPath} {steps query : List ContextualStep}
    (straight : Straight made met steps query) : steps.Sublist query := by
  induction steps generalizing met query with
  | nil => exact List.nil_sublist query
  | cons step steps ih =>
    obtain ⟨skipped,rest,rfl,_,straight⟩ := straight
    exact ((ih straight).cons_cons step).trans (List.sublist_append_right skipped _)

omit [DecidableEq I] in
theorem mem_descend {made : ContextualPath → Prop} {node : Node I} {met : ContextualPath}
    (nodes : ∀ steps, steps ≠ [] → ((node.sub steps).isSome ↔ made (steps.reverse ++ met))) (query : List ContextualStep)
    (path : ContextualPath) (list : List I) : (path,list) ∈ descend node met query ↔
      ∃ steps, steps ≠ [] ∧ path = steps.reverse ++ met ∧ node.dataAt steps = some list ∧ Straight made met steps query := by
  induction query generalizing node met with
  | nil =>
    refine ⟨fun member => (List.not_mem_nil member).elim,?_⟩
    rintro ⟨steps,some,_,_,straight⟩
    exact absurd (List.sublist_nil.mp straight.sublist) some
  | cons step rest ih =>
    have first := nodes [step] (by simp)
    rw [descend]
    cases down : node.child step with
    | none =>
      have unmade : ¬ made (step :: met) := by simpa [KeyTree.sub_cons,down] using first.symm.not
      dsimp only
      rw [ih nodes]
      refine exists_congr fun steps => and_congr_right fun some => and_congr_right fun _ => and_congr_right fun found => ?_
      cases steps with
      | nil => exact absurd rfl some
      | cons s steps =>
        constructor
        · rintro ⟨skipped,more,rfl,passed,straight⟩
          exact ⟨step :: skipped,more,rfl,List.forall_mem_cons.mpr ⟨unmade,passed⟩,straight⟩
        · rintro ⟨skipped,more,split,passed,straight⟩
          cases skipped with
          | nil =>
            obtain ⟨rfl,rfl⟩ := List.cons.inj split
            simp [KeyTree.dataAt_cons,down] at found
          | cons o skipped =>
            obtain ⟨rfl,rfl⟩ := List.cons.inj split
            exact ⟨skipped,more,rfl,fun other member => passed other (List.mem_cons_of_mem _ member),straight⟩
    | some cur =>
      have isMade : made (step :: met) := by simpa [KeyTree.sub_cons,down] using first
      have below (steps : List ContextualStep) (some : steps ≠ []) :
          (cur.sub steps).isSome ↔ made (steps.reverse ++ step :: met) := by
        have whole := nodes (step :: steps) (by simp)
        rwa [KeyTree.sub_cons,down,Option.bind_some,List.reverse_cons,List.append_assoc] at whole
      dsimp only
      rw [List.mem_cons,ih below]
      constructor
      · rintro (same | ⟨steps,_,rfl,found,straight⟩)
        · obtain ⟨rfl,rfl⟩ := Prod.mk.inj same
          exact ⟨[step],by simp,rfl,by rw [KeyTree.dataAt_cons,down]; rfl,[],rest,rfl,by simp,trivial⟩
        · exact ⟨step :: steps,by simp,by simp,by rw [KeyTree.dataAt_cons,down]; exact found,[],rest,rfl,by simp,straight⟩
      · rintro ⟨steps,some,rfl,found,straight⟩
        cases steps with
        | nil => exact absurd rfl some
        | cons s steps =>
          obtain ⟨skipped,more,split,passed,straight⟩ := straight
          cases skipped with
          | nil =>
            obtain ⟨rfl,rfl⟩ := List.cons.inj split
            rw [KeyTree.dataAt_cons,down,Option.bind_some] at found
            cases steps with
            | nil =>
              obtain rfl := Option.some.inj found
              exact .inl rfl
            | cons s' steps => exact .inr ⟨s' :: steps,by simp,by simp,found,straight⟩
          | cons o skipped =>
            obtain ⟨rfl,rfl⟩ := List.cons.inj split
            exact absurd isMade (passed _ (List.mem_cons_self ..))

def alterations (sets : List (ContextualPath × I)) : List (List ContextualStep × (List I → List I)) :=
  (sets.filter fun set => !set.1.isEmpty).map fun set => (set.1.reverse,fun list => set.2 :: list)

omit [DecidableEq I] in
theorem root_setAll (own : List I) (sets : List (ContextualPath × I)) :
    (setAll own sets).contextual.getD newRoot = KeyTree.alters [] newRoot (alterations sets) := by
  have run (props : PropList I) : (sets.foldl (fun props set => make props set.1 fun list => set.2 :: list) props).contextual.getD
      newRoot = KeyTree.alters [] (props.contextual.getD newRoot) (alterations sets) := by
    induction sets generalizing props with
    | nil => rfl
    | cons set sets ih =>
      rw [List.foldl_cons,ih]
      cases set with
      | mk path id => cases path <;> rfl
  exact run ⟨own,none⟩

omit [DecidableEq I] in
theorem made_iff {steps : List ContextualStep} (some : steps ≠ []) :
    (∃ op ∈ alterations sets, steps <+: op.1) ↔ Made sets steps.reverse := by
  constructor
  · rintro ⟨_,member,start⟩
    obtain ⟨set,inside,rfl⟩ := List.mem_map.mp member
    exact ⟨set,List.mem_of_mem_filter inside,by rwa [← List.reverse_prefix,List.reverse_reverse]⟩
  · rintro ⟨set,member,ends⟩
    have start : steps <+: set.1.reverse := by rwa [← List.reverse_prefix,List.reverse_reverse] at ends
    refine ⟨_,List.mem_map_of_mem (List.mem_filter.mpr ⟨member,?_⟩),start⟩
    cases whole : set.1 with
    | nil => exact absurd (by simpa [whole] using start) some
    | cons _ _ => rfl

omit [DecidableEq I] in
theorem mem_altered (steps : List ContextualStep) (list : List I) (sets : List (ContextualPath × I)) :
    id ∈ KeyTree.altered steps list (alterations sets) ↔ id ∈ list ∨ steps ≠ [] ∧ (steps.reverse,id) ∈ sets := by
  induction sets generalizing list with
  | nil => simp [alterations]
  | cons set sets ih =>
    obtain ⟨path,id'⟩ := set
    cases path with
    | nil =>
      show id ∈ KeyTree.altered steps list (alterations sets) ↔ _
      rw [ih,List.mem_cons,Prod.mk.injEq,List.reverse_eq_nil_iff]
      grind
    | cons step path =>
      show id ∈ KeyTree.altered steps list (((step :: path).reverse,fun list => id' :: list) :: alterations sets) ↔ _
      rw [KeyTree.altered_cons,ih,List.mem_cons,Prod.mk.injEq]
      by_cases own : (step :: path).reverse = steps
      · rw [if_pos own,← own,List.reverse_reverse,List.mem_cons]
        simp [or_assoc,or_left_comm]
      · have other : steps.reverse ≠ step :: path := fun same => own (by rw [← same,List.reverse_reverse])
        rw [if_neg own]
        simp [other]

omit [DecidableEq I] in
theorem sub_setAll (own : List I) {steps : List ContextualStep} (nonempty : steps ≠ []) :
    (((setAll own sets).contextual.getD newRoot).sub steps).isSome ↔ Made sets (steps.reverse ++ []) := by
  rw [root_setAll,← KeyTree.isSome_dataAt,newRoot,KeyTree.dataAt_alters_leaf,List.append_nil,← made_iff nonempty]
  split
  next cond => simpa [nonempty] using cond
  next cond => simpa [nonempty] using cond

omit [DecidableEq I] in
theorem mem_descend_setAll (own : List I) (query path : ContextualPath) :
    (∃ list, (path,list) ∈ descend ((setAll own sets).contextual.getD newRoot) [] query.reverse ∧ id ∈ list) ↔
      (path,id) ∈ sets ∧ path ≠ [] ∧ Straight (Made sets) [] path.reverse query.reverse := by
  have nodes := fun steps (nonempty : steps ≠ []) => @sub_setAll I sets own steps nonempty
  have data {steps : List ContextualStep} (nonempty : steps ≠ []) {list : List I}
      (found : ((setAll own sets).contextual.getD newRoot).dataAt steps = some list) : id ∈ list ↔ (steps.reverse,id) ∈ sets := by
    rw [root_setAll,newRoot,KeyTree.dataAt_alters_leaf] at found
    split at found
    · rw [← Option.some.inj found,mem_altered]
      simp [nonempty]
    · cases found
  constructor
  · rintro ⟨list,member,has⟩
    obtain ⟨steps,nonempty,rfl,found,straight⟩ := (mem_descend nodes _ _ _).mp member
    rw [List.append_nil,List.reverse_reverse]
    exact ⟨(data nonempty found).mp has,by simpa using nonempty,straight⟩
  · rintro ⟨stored,nonempty,straight⟩
    have nonempty' : path.reverse ≠ [] := by simpa using nonempty
    have isNode := (nodes path.reverse nonempty').mpr ⟨(path,id),stored,by simp⟩
    rw [← KeyTree.isSome_dataAt] at isNode
    obtain ⟨list,found⟩ := Option.isSome_iff_exists.mp isNode
    exact ⟨list,(mem_descend nodes _ _ _).mpr ⟨path.reverse,nonempty',by simp,found,straight⟩,
      (data nonempty' found).mpr (by simpa using stored)⟩

private theorem find?_base (own : List I) (id : I) :
    (match [(([] : ContextualPath),own)].find? (fun list => decide (id ∈ list.2)) with
      | some list => list.1
      | none => []) = [] := by
  by_cases has : id ∈ own <;> simp [has]

theorem find_eq (props : PropList I) (query : ContextualPath) (id : I) :
    find props query id = findProps (props.contextual.getD newRoot) props query id := by
  have alone (steps : List ContextualStep) (path : ContextualPath) : descend (newRoot : Node I) path steps = [] := by
    induction steps with
    | nil => rfl
    | cons step rest ih => exact ih
  unfold find
  cases props.contextual with
  | some root => rfl
  | none =>
    simp only [Option.getD_none,findProps,alone,List.reverse_singleton]
    exact (find?_base props.own id).symm

theorem findProps_cases (root : Node I) (props : PropList I) (query : ContextualPath) (id : I) :
    (∃ list, (findProps root props query id,list) ∈ descend root [] query.reverse ∧ id ∈ list) ∨
      (¬ ∃ path list, (path,list) ∈ descend root [] query.reverse ∧ id ∈ list) ∧ findProps root props query id = [] := by
  rw [findProps,List.reverse_cons,List.find?_append]
  cases found : (descend root [] query.reverse).reverse.find? fun list => id ∈ list.2 with
  | some list =>
    have member := List.mem_of_find?_eq_some found
    have has := List.find?_some found
    exact .inl ⟨list.2,by simpa using member,by simpa using has⟩
  | none =>
    refine .inr ⟨?_,?_⟩
    · rintro ⟨path,list,member,has⟩
      have absent := List.find?_eq_none.mp found (path,list) (by simpa using member)
      exact absurd has (by simpa using absent)
    · rw [Option.none_or]
      exact find?_base props.own id

/-- The condition for a right answer. When the last step of the query ends a path set, a
stored path is met if one matches; when it ends none, no stored path is met. -/
structure Clear (sets : List (ContextualPath × I)) (id : I) (query : ContextualPath) (last : ContextualStep) : Prop where
  hidden : Made sets [last] → (∃ path, (path,id) ∈ sets ∧ Matches path query) → Met sets id query
  outer : ¬ Made sets [last] → ¬ Met sets id query

omit [DecidableEq I] in
theorem made_of_matches {path outer : ContextualPath} {last : ContextualStep} (stored : (path,id) ∈ sets)
    (matches_ : Matches path (outer ++ [last])) : Made sets [last] := by
  obtain ⟨_,_,same⟩ := matches_
  rw [List.getLast?_concat] at same
  obtain ⟨front,rfl⟩ := List.getLast?_eq_some_iff.mp same
  exact ⟨_,stored,List.suffix_append front [last]⟩

omit [DecidableEq I] in
theorem matches_of_straight {path outer : ContextualPath} {last : ContextualStep} (taken : Made sets [last])
    (some : path ≠ []) (straight : Straight (Made sets) [] path.reverse (outer ++ [last]).reverse) :
    Matches path (outer ++ [last]) := by
  refine ⟨some,List.reverse_sublist.mp straight.sublist,?_⟩
  rw [List.getLast?_concat,List.getLast?_eq_head?_reverse]
  cases steps : path.reverse with
  | nil => exact absurd (List.reverse_eq_nil_iff.mp steps) some
  | cons step rest =>
    rw [steps,List.reverse_append] at straight
    obtain ⟨skipped,more,split,passed,_⟩ := straight
    cases skipped with
    | nil =>
      obtain ⟨same,_⟩ := List.cons.inj split
      rw [List.head?_cons,same]
    | cons o skipped =>
      obtain ⟨same,_⟩ := List.cons.inj split
      exact absurd taken (same ▸ passed o (List.mem_cons_self ..))

/-- For every run and every query that is not empty, the answer is right exactly under the
condition. -/
theorem find_right_iff (own : List I) (sets : List (ContextualPath × I)) (id : I) (outer : ContextualPath)
    (last : ContextualStep) : Right own sets id (outer ++ [last]) ↔ Clear sets id (outer ++ [last]) last := by
  have met := fun path => @mem_descend_setAll I sets id own (outer ++ [last]) path
  have cases_ := findProps_cases ((setAll own sets).contextual.getD newRoot) (setAll own sets) (outer ++ [last]) id
  rw [← find_eq] at cases_
  have answer : (Met sets id (outer ++ [last]) → ∃ path, (path,id) ∈ sets ∧ path ≠ [] ∧
        Straight (Made sets) [] path.reverse (outer ++ [last]).reverse ∧ find (setAll own sets) (outer ++ [last]) id = path) ∧
      (¬ Met sets id (outer ++ [last]) → find (setAll own sets) (outer ++ [last]) id = []) := by
    rcases cases_ with found | ⟨none,empty⟩
    · obtain ⟨stored,some,straight⟩ := (met _).mp found
      exact ⟨fun _ => ⟨_,stored,some,straight,rfl⟩,fun unmet => absurd ⟨_,stored,some,straight⟩ unmet⟩
    · refine ⟨?_,fun _ => empty⟩
      rintro ⟨path,member⟩
      obtain ⟨list,found⟩ := (met path).mpr member
      exact absurd ⟨path,list,found⟩ none
  constructor
  · rintro ⟨finds,free⟩
    refine ⟨fun taken some => ?_,fun untaken isMet => ?_⟩
    · obtain ⟨path,stored,⟨nonempty,_⟩,found⟩ := finds some
      by_contra unmet
      exact nonempty (found.symm.trans (answer.2 unmet))
    · have none : ¬ ∃ path, (path,id) ∈ sets ∧ Matches path (outer ++ [last]) :=
        fun ⟨_,stored,matches_⟩ => untaken (made_of_matches stored matches_)
      obtain ⟨path,_,nonempty,_,found⟩ := answer.1 isMet
      exact nonempty (found.symm.trans (free none))
  · rintro ⟨hidden,outer_⟩
    refine ⟨fun some => ?_,fun none => answer.2 fun isMet => ?_⟩
    · obtain ⟨_,stored,matches_⟩ := some
      have taken := made_of_matches stored matches_
      obtain ⟨path,stored,nonempty,straight,found⟩ := answer.1 (hidden taken ⟨_,stored,matches_⟩)
      exact ⟨path,stored,matches_of_straight taken nonempty straight,found⟩
    · by_cases taken : Made sets [last]
      · obtain ⟨path,stored,nonempty,straight⟩ := isMet
        exact none ⟨path,stored,matches_of_straight taken nonempty straight⟩
      · exact outer_ taken isMet

def call (offset : BitVec 32) : ContextualStep := ⟨.call,⟨0,offset⟩⟩

/-- The step 2, by which another stored path goes on, hides the path that leaves it out. -/
theorem find_hides : ¬ ∀ (own : List Unit) (sets : List (ContextualPath × Unit)) (id : Unit) (query : ContextualPath),
    query ≠ [] → Right own sets id query := by
  intro all
  obtain ⟨path,_,⟨nonempty,_⟩,found⟩ := (all [] [([call 1,call 3],()),([call 4,call 2,call 3],())] ()
    [call 1,call 2,call 3] (by decide)).1 ⟨[call 1,call 3],by decide,by decide,by decide,by decide⟩
  exact nonempty (found.symm.trans (by decide))

/-- Without the other path it is found. -/
example : find (setAll [] [([call 1,call 3],())]) [call 1,call 2,call 3] () = [call 1,call 3] := by decide

end Otawa.Contextual
