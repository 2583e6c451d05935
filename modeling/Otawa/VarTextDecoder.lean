import Mathlib.Data.Fintype.Card
import Mathlib.Logic.Relation
import Otawa.Folds

/-!
The exploration of the code by `VarTextDecoder`. Only the first instruction of a run is
marked, and a run stops at any marked instruction: what lies behind it was explored from
there. A static target comes from the branch itself, not from `getInst`.
-/
namespace Otawa.Decode
open Otawa.Folds

variable {I : Type*}

structure Program (I : Type*) where
  address : I → Nat
  size : I → Nat
  /-- An instruction takes at least one byte. -/
  size_pos : ∀ i, 0 < size i
  findInstAt : Nat → Option I
  found : ∀ a i, findInstAt a = some i → address i = a
  isUnknown : I → Bool
  isControl : I → Bool
  isConditional : I → Bool
  isCall : I → Bool
  isReturn : I → Bool
  target : I → Option I
  IS_RETURN : I → Bool
  NO_CALL : I → Bool
  NO_RETURN : I → Bool
  CALL_TARGET : I → List Nat
  BRANCH_TARGET : I → List Nat

/-- The markers, the queue with its null pointers, and the instructions obtained from
    `getInst` and as targets of branches. -/
structure State (I : Type*) where
  marker : I → Bool
  todo : List (Option I)
  fetched : List I
  targets : List I

namespace Program
variable (p : Program I)

def topAddress (i : I) : Nat := p.address i + p.size i

/-- `getInst`: an unknown instruction is refused. -/
def getInst (a : Nat) : Option I := (p.findInstAt a).filter fun i => !p.isUnknown i

def next (i : I) : Option I := p.getInst (p.topAddress i)

theorem address_getInst {a : Nat} {i : I} (got : p.getInst a = some i) : p.address i = a :=
  p.found a i (Option.filter_eq_some_iff.mp got).1

theorem next_above {i j : I} (got : p.next i = some j) : p.address i < p.address j := by
  rw [p.address_getInst got,topAddress]
  exact Nat.lt_add_of_pos_right (p.size_pos i)

/-! ### The code -/

/-- The instructions behind another one in the address space. -/
def behind [Fintype I] (i : I) : Nat := (Finset.univ.filter fun j => p.address i < p.address j).card

theorem behind_next [Fintype I] {i j : I} (got : p.next i = some j) : p.behind j < p.behind i := by
  have above := p.next_above got
  refine Finset.card_lt_card (Finset.ssubset_iff_of_subset ?_ |>.mpr ⟨j,?_,?_⟩)
  · intro k member
    have further := (Finset.mem_filter.mp member).2
    exact Finset.mem_filter.mpr ⟨Finset.mem_univ k,above.trans further⟩
  · exact Finset.mem_filter.mpr ⟨Finset.mem_univ j,above⟩
  · exact fun member => lt_irrefl _ (Finset.mem_filter.mp member).2

/-- The run from an instruction: the instructions fetched and the one at its end, which is
    marked or a branch; none when the run leaves the code. -/
def walk [Fintype I] (marker : I → Bool) (i : I) : List I × Option I :=
  if marker i then ([],some i)
  else if p.isControl i then ([],some i)
  else
    match _ : p.next i with
    | none => ([],none)
    | some j => (j :: (walk marker j).1,(walk marker j).2)
termination_by p.behind i
decreasing_by all_goals exact p.behind_next ‹_›

def follows (i : I) : Bool := !p.isReturn i && !p.IS_RETURN i

/-- The sequence after a conditional branch is put twice. -/
def conditionalPuts (i : I) : List (Option I) :=
  if p.isConditional i then p.next i :: (p.next i).toList.map some else []

def targetPuts (i : I) : List I :=
  if p.follows i then (p.target i).toList.filter fun t => !p.NO_CALL t else []

def annotatedPuts (i : I) : List I :=
  if p.follows i ∧ (p.target i).isNone then
    (if p.isCall i then p.CALL_TARGET i else p.BRANCH_TARGET i).filterMap p.getInst
  else []

def returnPuts (i : I) : List I :=
  if p.follows i ∧ p.isCall i ∧ (p.target i).all fun t => !p.NO_RETURN t then (p.next i).toList else []

def record (s : State I) (i : I) : State I where
  marker := s.marker
  todo := s.todo ++ p.conditionalPuts i ++ (p.targetPuts i ++ p.annotatedPuts i ++ p.returnPuts i).map some
  fetched := s.fetched ++ (p.conditionalPuts i).filterMap id ++ p.annotatedPuts i ++ p.returnPuts i
  targets := s.targets ++ p.targetPuts i

/-- When the sequence after a call cannot be decoded, the log prints the target, which is null
    without a static one. -/
def printsNull (i : I) : Bool := p.follows i && p.isCall i && (p.target i).isNone && (p.next i).isNone

section Code
variable [Fintype I] [DecidableEq I]

/-- A turn of the loop of `processEntry`. -/
def step (s : State I) : Option (State I) :=
  match s.todo with
  | [] => some s
  | none :: rest => some { s with todo := rest }
  | some first :: rest =>
    let run := p.walk s.marker first
    let s' := { s with todo := rest, fetched := s.fetched ++ run.1 }
    match run.2 with
    | none => some s'
    | some inst =>
      let marked := { s' with marker := Function.update s.marker first true }
      if s.marker inst then some marked
      else if p.printsNull inst then none
      else some (p.record marked inst)

def explore : Nat → State I → Option (State I)
  | 0,s => if s.todo.isEmpty then some s else none
  | turns + 1,s => if s.todo.isEmpty then some s else (p.step s).bind (explore turns)

/-- `processEntry`; the offset 0 is refused as no address, and without an instruction at the
    entry, `getInst` reads the null source. -/
def processEntry (turns : Nat) (s : State I) (entry : Nat) : Option (State I) :=
  if entry = 0 then none
  else
    match p.findInstAt entry with
    | none => none
    | some _ =>
      match p.getInst entry with
      | none => some s
      | some inst => p.explore turns { s with todo := [some inst], fetched := s.fetched ++ [inst] }

end Code
end Program

def State.init : State I := ⟨fun _ => false,[],[],[]⟩

/-- A step of the program to an instruction that is decoded or a static target. -/
inductive Step (p : Program I) (i : I) : I → Prop
  | sequence {j : I} : p.isControl i = false → p.next i = some j → Step p i j
  | conditional {j : I} : p.isConditional i = true → p.next i = some j → Step p i j
  | afterCall {j : I} : p.isControl i = true → p.follows i = true → p.isCall i = true →
      (∀ t, p.target i = some t → p.NO_RETURN t = false) → p.next i = some j → Step p i j
  | target {j : I} : p.isControl i = true → p.follows i = true → p.target i = some j → p.NO_CALL j = false → Step p i j
  | annotated {a : Nat} {j : I} : p.isControl i = true → p.follows i = true → p.target i = none →
      a ∈ (if p.isCall i then p.CALL_TARGET i else p.BRANCH_TARGET i) → p.getInst a = some j → Step p i j

def OnRun (p : Program I) : I → I → Prop :=
  Relation.ReflTransGen fun i j => p.isControl i = false ∧ p.next i = some j

theorem OnRun.path {p : Program I} {i j : I} (on : OnRun p i j) : Relation.ReflTransGen (Step p) i j :=
  Relation.ReflTransGen.mono (fun _ _ ⟨plain,got⟩ => .sequence plain got) _ _ on

def State.Seen (s : State I) (i : I) : Prop := i ∈ s.fetched ∨ i ∈ s.targets

def State.Closed (p : Program I) (s : State I) (i : I) : Prop := ∀ j, Step p i j → s.Seen j

/-- What an instruction was seen for is done or waits in the queue; marked runs are done. -/
structure Inv (p : Program I) (s : State I) : Prop where
  settled : ∀ i, s.Seen i → s.Closed p i ∨ ∃ f, some f ∈ s.todo ∧ OnRun p f i
  marked : ∀ m, s.marker m = true → ∀ i, OnRun p m i → s.Seen i ∧ s.Closed p i
  waiting : ∀ f, some f ∈ s.todo → s.Seen f

section Walk
variable [Fintype I] {p : Program I} {marker : I → Bool} {i j : I}

theorem walk_marked (marked : marker i = true) : p.walk marker i = ([],some i) := by
  rw [Program.walk,if_pos marked]

theorem walk_control (unmarked : marker i = false) (control : p.isControl i = true) : p.walk marker i = ([],some i) := by
  rw [Program.walk,if_neg (by simp [unmarked]),if_pos control]

theorem walk_end (unmarked : marker i = false) (plain : p.isControl i = false) (last : p.next i = none) :
    p.walk marker i = ([],none) := by
  rw [Program.walk,if_neg (by simp [unmarked]),if_neg (by simp [plain])]
  split
  next => rfl
  next got => rw [last] at got; cases got

theorem walk_next (unmarked : marker i = false) (plain : p.isControl i = false) (got : p.next i = some j) :
    p.walk marker i = (j :: (p.walk marker j).1,(p.walk marker j).2) := by
  rw [Program.walk,if_neg (by simp [unmarked]),if_neg (by simp [plain])]
  split
  next last => rw [got] at last; cases last
  next k got' => cases got.symm.trans got'; rfl

theorem run_induction (p : Program I) (marker : I → Bool) {motive : I → Prop}
    (stop : ∀ i, p.walk marker i = ([],some i) → (marker i = true ∨ p.isControl i = true) → motive i)
    (last : ∀ i, p.isControl i = false → p.next i = none → p.walk marker i = ([],none) → motive i)
    (next : ∀ i j, p.isControl i = false → p.next i = some j →
      p.walk marker i = (j :: (p.walk marker j).1,(p.walk marker j).2) → motive j → motive i) (i : I) : motive i := by
  induction size : p.behind i using Nat.strong_induction_on generalizing i with
  | _ n ih =>
    cases mark : marker i with
    | true => exact stop i (walk_marked mark) (.inl mark)
    | false =>
      cases control : p.isControl i with
      | true => exact stop i (walk_control mark control) (.inr control)
      | false =>
        cases got : p.next i with
        | none => exact last i control got (walk_end mark control got)
        | some j => exact next i j control got (walk_next mark control got) (ih _ (size ▸ p.behind_next got) j rfl)

theorem walk_stop {c : I} (stop : (p.walk marker i).2 = some c) :
    (marker c = true ∨ p.isControl c = true) ∧ (c = i ∨ c ∈ (p.walk marker i).1) := by
  induction i using run_induction p marker with
  | stop i run why =>
    rw [run] at stop
    cases stop
    exact ⟨why,.inl rfl⟩
  | last i _ _ run =>
    rw [run] at stop
    cases stop
  | next i j _ _ run ih =>
    rw [run] at stop ⊢
    obtain ⟨why,place⟩ := ih stop
    refine ⟨why,.inr (List.mem_cons.mpr ?_)⟩
    exact place

theorem walk_inside {k : I} (member : k = i ∨ k ∈ (p.walk marker i).1) (inside : (p.walk marker i).2 ≠ some k) :
    p.isControl k = false ∧ ∀ j, p.next k = some j → j ∈ (p.walk marker i).1 := by
  induction i using run_induction p marker with
  | stop i run why =>
    rw [run] at member inside
    rcases member with rfl | member
    · exact absurd rfl inside
    · cases member
  | last i plain none_ run =>
    rw [run] at member ⊢
    rcases member with rfl | member
    · exact ⟨plain,fun j got => by rw [none_] at got; cases got⟩
    · cases member
  | next i j plain got run ih =>
    rw [run] at member inside ⊢
    rcases member with rfl | member
    · exact ⟨plain,fun j' got' => by cases got.symm.trans got'; exact List.mem_cons_self⟩
    · obtain ⟨plain',inside'⟩ := ih (List.mem_cons.mp member) inside
      exact ⟨plain',fun j' got' => List.mem_cons_of_mem _ (inside' j' got')⟩

variable (marker) in
/-- What lies on the run was walked, or lies behind the marked instruction at its end. -/
theorem onRun_cases {k : I} (on : OnRun p i k) :
    (k = i ∨ k ∈ (p.walk marker i).1) ∨ ∃ m, (p.walk marker i).2 = some m ∧ marker m = true ∧ OnRun p m k := by
  induction i using run_induction p marker with
  | stop i run why =>
    rcases why with marked | control
    · exact .inr ⟨i,by rw [run],marked,on⟩
    · rcases on.cases_head with rfl | ⟨j,⟨plain,_⟩,_⟩
      · exact .inl (.inl rfl)
      · rw [control] at plain
        cases plain
  | last i _ none_ run =>
    rcases on.cases_head with rfl | ⟨j,⟨_,got⟩,_⟩
    · exact .inl (.inl rfl)
    · rw [none_] at got
      cases got
  | next i j _ got run ih =>
    rcases on.cases_head with rfl | ⟨j',⟨_,got'⟩,rest⟩
    · exact .inl (.inl rfl)
    · cases got.symm.trans got'
      rw [run]
      rcases ih rest with walked | beyond
      · exact .inl (.inr (List.mem_cons.mpr walked))
      · exact .inr beyond

theorem onRun_of_walk {k : I} (walked : k ∈ (p.walk marker i).1) : OnRun p i k := by
  induction i using run_induction p marker with
  | stop i run why => rw [run] at walked; cases walked
  | last i _ _ run => rw [run] at walked; cases walked
  | next i j plain got run ih =>
    rw [run] at walked
    rcases List.mem_cons.mp walked with rfl | walked
    · exact .single ⟨plain,got⟩
    · exact .head ⟨plain,got⟩ (ih walked)

end Walk

/-! ### A turn of the loop -/

section Steps
variable {p : Program I} {s s' : State I} {i j : I}

theorem State.Closed.mono (closed : s.Closed p i) (grows : ∀ j, s.Seen j → s'.Seen j) : s'.Closed p i :=
  fun j step => grows j (closed j step)

theorem Step.of_plain (step : Step p i j) (plain : p.isControl i = false) : p.next i = some j := by
  cases step with
  | sequence _ got => exact got
  | conditional _ got => exact got
  | afterCall control _ _ _ _ => rw [control] at plain; cases plain
  | target control _ _ _ => rw [control] at plain; cases plain
  | annotated control _ _ _ _ => rw [control] at plain; cases plain

theorem seen_record (s : State I) (c j : I) : (p.record s c).Seen j ↔ s.Seen j ∨
    some j ∈ p.conditionalPuts c ++ (p.targetPuts c ++ p.annotatedPuts c ++ p.returnPuts c).map some := by
  simp only [State.Seen,Program.record,List.mem_append,List.mem_filterMap,List.mem_map,id_eq,exists_eq_right,
    Option.some.injEq]
  tauto

theorem record_closed (s : State I) {c : I} (control : p.isControl c = true) : (p.record s c).Closed p c := by
  intro j step
  rw [seen_record]
  right
  rw [List.mem_append]
  cases step with
  | sequence plain _ => rw [control] at plain; cases plain
  | conditional cond got => exact .inl (by rw [Program.conditionalPuts,if_pos cond,got]; exact List.mem_cons_self)
  | afterCall _ follows call returns got =>
    refine .inr (List.mem_map_of_mem (List.mem_append_right _ ?_))
    have may : ((p.target c).all fun t => !p.NO_RETURN t) = true := by
      cases target : p.target c with
      | none => rfl
      | some t => simp [returns t target]
    rw [Program.returnPuts,if_pos ⟨follows,call,may⟩,got]
    exact List.mem_cons_self
  | target _ follows target called =>
    refine .inr (List.mem_map_of_mem (List.mem_append_left _ (List.mem_append_left _ ?_)))
    rw [Program.targetPuts,if_pos follows,target]
    simp [called]
  | annotated _ follows target member got =>
    refine .inr (List.mem_map_of_mem (List.mem_append_left _ (List.mem_append_right _ ?_)))
    rw [Program.annotatedPuts,if_pos ⟨follows,by rw [target]; rfl⟩]
    exact List.mem_filterMap.mpr ⟨_,member,got⟩

theorem step_of_put {c : I} (control : p.isControl c = true)
    (put : some j ∈ p.conditionalPuts c ++ (p.targetPuts c ++ p.annotatedPuts c ++ p.returnPuts c).map some) :
    Step p c j := by
  simp only [List.mem_append,List.mem_map,Option.some.injEq,exists_eq_right] at put
  rcases put with conditional | (target | annotated) | returns
  · unfold Program.conditionalPuts at conditional
    split at conditional
    case isFalse => cases conditional
    case isTrue cond => exact .conditional cond (by simpa [eq_comm] using conditional)
  · unfold Program.targetPuts at target
    split at target
    case isFalse => cases target
    case isTrue follows =>
      obtain ⟨known,called⟩ := List.mem_filter.mp target
      exact .target control follows (by simpa using known) (by simpa using called)
  · unfold Program.annotatedPuts at annotated
    split at annotated
    case isFalse => cases annotated
    case isTrue indirect =>
      obtain ⟨a,member,got⟩ := List.mem_filterMap.mp annotated
      exact .annotated control indirect.1 (Option.isNone_iff_eq_none.mp indirect.2) member got
  · unfold Program.returnPuts at returns
    split at returns
    case isFalse => cases returns
    case isTrue may =>
      obtain ⟨follows,call,back⟩ := may
      refine .afterCall control follows call (fun t known => ?_) (by simpa using returns)
      simpa [known] using back

end Steps

section Turn
variable [Fintype I] {p : Program I} {s s' : State I} {first i : I} {rest : List (Option I)}

theorem run_closed (inv : Inv p s) (seen : s.Seen first)
    (grows : ∀ j, s.Seen j ∨ j ∈ (p.walk s.marker first).1 → s'.Seen j)
    (done : ∀ c, (p.walk s.marker first).2 = some c → s.marker c = false → s'.Closed p c) (on : OnRun p first i) :
    s'.Seen i ∧ s'.Closed p i := by
  rcases onRun_cases s.marker on with walked | ⟨m,_,marked,beyond⟩
  · refine ⟨grows i ?_,?_⟩
    · rcases walked with rfl | walked
      · exact .inl seen
      · exact .inr walked
    · by_cases stop : (p.walk s.marker first).2 = some i
      · cases mark : s.marker i with
        | false => exact done i stop mark
        | true => exact (inv.marked i mark i .refl).2.mono fun j seen => grows j (.inl seen)
      · obtain ⟨plain,inside⟩ := walk_inside walked stop
        exact fun j step => grows j (.inr (inside j (step.of_plain plain)))
  · obtain ⟨seen',closed⟩ := inv.marked m marked i beyond
    exact ⟨grows i (.inl seen'),closed.mono fun j seen => grows j (.inl seen)⟩

theorem Inv.turn (inv : Inv p s) (head : s.todo = some first :: rest)
    (grows : ∀ j, s.Seen j ∨ j ∈ (p.walk s.marker first).1 → s'.Seen j)
    (only : ∀ j, s'.Seen j → s.Seen j ∨ j ∈ (p.walk s.marker first).1 ∨ some j ∈ s'.todo)
    (keeps : ∀ f, some f ∈ rest → some f ∈ s'.todo)
    (waiting : ∀ f, some f ∈ s'.todo → some f ∈ rest ∨ s'.Seen f)
    (marker : ∀ m, s'.marker m = true → s.marker m = true ∨ m = first)
    (done : ∀ c, (p.walk s.marker first).2 = some c → s.marker c = false → s'.Closed p c) : Inv p s' := by
  have grows' (j : I) (seen : s.Seen j) : s'.Seen j := grows j (.inl seen)
  have seen : s.Seen first := inv.waiting first (head ▸ List.mem_cons_self)
  refine ⟨fun i seen' => ?_,fun m marked i on => ?_,fun f member => ?_⟩
  · rcases only i seen' with before | walked | put
    · rcases inv.settled i before with closed | ⟨f,member,on⟩
      · exact .inl (closed.mono grows')
      · rw [head] at member
        rcases List.mem_cons.mp member with same | behind
        · cases same
          exact .inl (run_closed inv seen grows done on).2
        · exact .inr ⟨f,keeps f behind,on⟩
    · exact .inl (run_closed inv seen grows done (onRun_of_walk walked)).2
    · exact .inr ⟨i,put,.refl⟩
  · rcases marker m marked with before | rfl
    · obtain ⟨seen',closed⟩ := inv.marked m before i on
      exact ⟨grows' i seen',closed.mono grows'⟩
    · exact run_closed inv seen grows done on
  · rcases waiting f member with behind | seen'
    · exact grows' f (inv.waiting f (head ▸ List.mem_cons_of_mem _ behind))
    · exact seen'

variable [DecidableEq I]

def unmarked (s : State I) : Nat := (Finset.univ.filter fun i => s.marker i = false).card

omit [Fintype I] in
theorem marker_update {m : I} (marked : Function.update s.marker first true m = true) : s.marker m = true ∨ m = first := by
  by_cases same : m = first
  · exact .inr same
  · rw [Function.update_of_ne same] at marked
    exact .inl marked

omit [DecidableEq I] in
theorem unmarked_mono (kept : ∀ i, s.marker i = true → s'.marker i = true) : unmarked s' ≤ unmarked s := by
  refine Finset.card_le_card fun i member => ?_
  rw [Finset.mem_filter] at member ⊢
  refine ⟨member.1,?_⟩
  cases mark : s.marker i with
  | false => rfl
  | true => rw [kept i mark] at member; cases member.2

omit [DecidableEq I] in
theorem unmarked_lt (before : s.marker i = false) (after : s'.marker i = true)
    (kept : ∀ i, s.marker i = true → s'.marker i = true) : unmarked s' < unmarked s := by
  refine Finset.card_lt_card ((Finset.ssubset_iff_of_subset fun j member => ?_).mpr ⟨i,?_,?_⟩)
  · rw [Finset.mem_filter] at member ⊢
    refine ⟨member.1,?_⟩
    cases mark : s.marker j with
    | false => rfl
    | true => rw [kept j mark] at member; cases member.2
  · exact Finset.mem_filter.mpr ⟨Finset.mem_univ i,before⟩
  · exact fun member => absurd (after.symm.trans (Finset.mem_filter.mp member).2) (by decide)

/-- What a turn does: a null pointer is dropped, a run that leaves the code is fetched, a run that
    meets a marker is fetched and marked, and the branch at the end of another one is recorded. -/
theorem step_cases (waits : s.todo ≠ []) :
    (∃ rest, s.todo = none :: rest ∧ p.step s = some { s with todo := rest }) ∨
    ∃ first rest, s.todo = some first :: rest ∧
      ((p.walk s.marker first).2 = none ∧
          p.step s = some { s with todo := rest, fetched := s.fetched ++ (p.walk s.marker first).1 } ∨
        ∃ c s', (p.walk s.marker first).2 = some c ∧
          s' = { s with
            todo := rest
            fetched := s.fetched ++ (p.walk s.marker first).1
            marker := Function.update s.marker first true } ∧
          (s.marker c = true ∧ p.step s = some s' ∨
            s.marker c = false ∧ p.step s = if p.printsNull c then none else some (p.record s' c))) := by
  unfold Program.step
  match shape : s.todo with
  | [] => exact absurd shape waits
  | none :: rest => exact .inl ⟨rest,rfl,rfl⟩
  | some first :: rest =>
    refine .inr ⟨first,rest,rfl,?_⟩
    cases stop : (p.walk s.marker first).2 with
    | none => exact .inl ⟨rfl,by simp only [stop]⟩
    | some c =>
      refine .inr ⟨c,_,rfl,rfl,?_⟩
      cases mark : s.marker c with
      | true => exact .inl ⟨rfl,by simp only [stop,mark,if_true]⟩
      | false => exact .inr ⟨rfl,by simp only [stop,mark,Bool.false_eq_true,if_false]⟩

/-- A turn in code that is closed under the steps of the program and prints no null target. -/
theorem step_spec {good : I → Prop} (closed : ∀ i j, good i → Relation.ReflTransGen (Step p) i j → good j)
    (silent : ∀ i, good i → p.isControl i = true → p.printsNull i = false) (inv : Inv p s)
    (inside : ∀ i, s.Seen i → good i) (waits : s.todo ≠ []) : ∃ next, p.step s = some next ∧
    Inv p next ∧ (∀ i, next.Seen i → good i) ∧ (∀ i, s.Seen i → next.Seen i) ∧
      (unmarked next < unmarked s ∨ unmarked next ≤ unmarked s ∧ next.todo.length < s.todo.length) := by
  rcases step_cases (p := p) waits with ⟨rest,head,next⟩ | ⟨first,rest,head,cases⟩
  · refine ⟨_,next,⟨fun i seen => (inv.settled i seen).imp_right ?_,inv.marked,fun f member => ?_⟩,inside,
      fun _ seen => seen,.inr ⟨le_rfl,by simp [head]⟩⟩
    · rintro ⟨f,member,on⟩
      rw [head] at member
      exact ⟨f,(List.mem_cons.mp member).resolve_left (by simp),on⟩
    · exact inv.waiting f (head ▸ List.mem_cons_of_mem _ member)
  have started : good first := inside first (inv.waiting first (head ▸ List.mem_cons_self))
  have walked (j : I) (member : j ∈ (p.walk s.marker first).1) : good j :=
    closed first j started (onRun_of_walk member).path
  rcases cases with ⟨stop,next⟩ | ⟨c,s',stop,made,turn⟩
  · refine ⟨_,next,inv.turn head ?_ ?_ ?_ ?_ ?_ ?_,?_,?_,.inr ⟨le_rfl,by simp [head]⟩⟩
    · rintro j ((member | member) | member)
      · exact .inl (List.mem_append_left _ member)
      · exact .inr member
      · exact .inl (List.mem_append_right _ member)
    · rintro j (member | member)
      · exact (List.mem_append.mp member).imp .inl .inl
      · exact .inl (.inr member)
    · exact fun f member => member
    · exact fun f member => .inl member
    · exact fun m marked => .inl marked
    · exact fun c stop' => by rw [stop] at stop'; cases stop'
    · rintro i (member | member)
      · exact (List.mem_append.mp member).elim (fun before => inside i (.inl before)) (walked i)
      · exact inside i (.inr member)
    · exact fun i seen => seen.imp_left (List.mem_append_left _)
  · have seen' (j : I) : s'.Seen j ↔ s.Seen j ∨ j ∈ (p.walk s.marker first).1 := by
      rw [made,State.Seen,State.Seen,List.mem_append]
      tauto
    have marker (m : I) (marked : s'.marker m = true) : s.marker m = true ∨ m = first := by
      rw [made] at marked
      exact marker_update marked
    have kept (m : I) (marked : s.marker m = true) : s'.marker m = true := by
      rw [made]
      by_cases same : m = first
      · rw [same]
        exact Function.update_self ..
      · exact (Function.update_of_ne same ..).trans marked
    have inside' (j : I) (seen : s'.Seen j) : good j := ((seen' j).mp seen).elim (inside j) (walked j)
    rcases turn with ⟨marked,next⟩ | ⟨unmarked_,next⟩
    · refine ⟨_,next,inv.turn head (fun j => (seen' j).mpr) (fun j seen => ((seen' j).mp seen).imp_right .inl) ?_ ?_ marker ?_,
        inside',fun i seen => (seen' i).mpr (.inl seen),.inr ⟨unmarked_mono kept,by simp [made,head]⟩⟩
      · exact fun f member => by rwa [made]
      · exact fun f member => .inl (by rwa [made] at member)
      · exact fun c' stop' mark => by
          cases stop.symm.trans stop'
          rw [marked] at mark
          cases mark
    · have control : p.isControl c = true := (walk_stop stop).1.resolve_left (by simp [unmarked_])
      have ended : good c := by
        rcases (walk_stop stop).2 with rfl | member
        · exact started
        · exact walked c member
      rw [silent c ended control,if_neg Bool.false_ne_true] at next
      have rest' : s'.todo = rest := by rw [made]
      have todo : (p.record s' c).todo =
          rest ++ (p.conditionalPuts c ++ (p.targetPuts c ++ p.annotatedPuts c ++ p.returnPuts c).map some) := by
        rw [← rest',Program.record,List.append_assoc]
      refine ⟨_,next,inv.turn head ?_ ?_ ?_ ?_ marker ?_,?_,?_,.inl ?_⟩
      · exact fun j seen => (seen_record s' c j).mpr (.inl ((seen' j).mpr seen))
      · intro j seen
        rcases (seen_record s' c j).mp seen with before | put
        · exact ((seen' j).mp before).imp_right .inl
        · exact .inr (.inr (by rw [todo]; exact List.mem_append_right _ put))
      · exact fun f member => by rw [todo]; exact List.mem_append_left _ member
      · intro f member
        rw [todo,List.mem_append] at member
        exact member.imp_right fun put => (seen_record s' c f).mpr (.inr put)
      · intro c' stop' _
        cases stop.symm.trans stop'
        exact record_closed s' control
      · intro j seen
        rcases (seen_record s' c j).mp seen with before | put
        · exact inside' j before
        · exact closed c j ended (.single (step_of_put control put))
      · exact fun i seen => (seen_record s' c i).mpr (.inl ((seen' i).mpr (.inl seen)))
      · -- the run started at an unmarked instruction
        have fresh : s.marker first = false := by
          cases mark : s.marker first with
          | false => rfl
          | true =>
            rw [walk_marked mark] at stop
            cases stop
            rw [mark] at unmarked_
            cases unmarked_
        have marked : (p.record s' c).marker first = true := by
          rw [Program.record,made]
          exact Function.update_self ..
        exact unmarked_lt fresh marked kept

theorem explore_stop (turns : Nat) (empty : s.todo = []) : p.explore turns s = some s := by
  cases turns <;> simp [Program.explore,empty]

theorem explore_turn {turns : Nat} (waits : s.todo ≠ []) :
    p.explore (turns + 1) s = (p.step s).bind (p.explore turns) := by
  simp [Program.explore,waits]

theorem explore_mono {turns more : Nat} (done : p.explore turns s = some s') (le : turns ≤ more) :
    p.explore more s = some s' := by
  induction more generalizing turns s with
  | zero => rwa [Nat.le_zero.mp le] at done
  | succ more ih =>
    by_cases empty : s.todo = []
    · rwa [explore_stop _ empty,← explore_stop turns empty]
    · cases turns with
      | zero => simp [Program.explore,empty] at done
      | succ turns =>
        rw [explore_turn empty] at done ⊢
        obtain ⟨next,turn,rest⟩ := Option.bind_eq_some_iff.mp done
        rw [turn,Option.bind_some]
        exact ih rest (Nat.le_of_succ_le_succ le)

/-- The loop ends, with everything seen done. -/
theorem explore_spec {good : I → Prop} (closed : ∀ i j, good i → Relation.ReflTransGen (Step p) i j → good j)
    (silent : ∀ i, good i → p.isControl i = true → p.printsNull i = false) (s : State I) (inv : Inv p s)
    (inside : ∀ i, s.Seen i → good i) : ∃ turns s', p.explore turns s = some s' ∧ Inv p s' ∧ s'.todo = [] ∧
      (∀ i, s'.Seen i → good i) ∧ ∀ i, s.Seen i → s'.Seen i := by
  by_cases empty : s.todo = []
  · exact ⟨0,s,explore_stop 0 empty,inv,empty,inside,fun _ seen => seen⟩
  · obtain ⟨next,turn,inv',inside',grows,less⟩ := step_spec closed silent inv inside empty
    obtain ⟨turns,s',done,inv'',empty',inside'',grows'⟩ := explore_spec closed silent next inv' inside'
    refine ⟨turns + 1,s',?_,inv'',empty',inside'',fun i seen => grows' i (grows i seen)⟩
    rw [explore_turn empty,turn,Option.bind_some,done]
termination_by (unmarked s,s.todo.length)
decreasing_by
  rcases less with less | ⟨le,shorter⟩
  · exact Prod.Lex.left _ _ less
  · rcases le.lt_or_eq with less | same
    · exact Prod.Lex.left _ _ less
    · exact same ▸ Prod.Lex.right _ shorter

end Turn

/-- Between two entries: the queue is empty. -/
structure Idle (p : Program I) (good : I → Prop) (s : State I) : Prop where
  inv : Inv p s
  empty : s.todo = []
  inside : ∀ i, s.Seen i → good i

theorem init_idle (p : Program I) (good : I → Prop) : Idle p good State.init where
  inv := {
    settled := fun _ seen => by rcases seen with member | member <;> cases member
    marked := fun _ marked => by cases marked
    waiting := fun _ member => by cases member }
  empty := rfl
  inside := fun _ seen => by rcases seen with member | member <;> cases member

theorem Idle.reach {p : Program I} {good : I → Prop} {s : State I} (idle : Idle p good s) {i j : I} (seen : s.Seen i)
    (path : Relation.ReflTransGen (Step p) i j) : s.Seen j := by
  induction path with
  | refl => exact seen
  | @tail k j _ step ih =>
    rcases idle.inv.settled k ih with closed | ⟨f,member,_⟩
    · exact closed j step
    · rw [idle.empty] at member
      cases member

section Entries
variable [Fintype I] [DecidableEq I] {p : Program I} {s s' : State I} {entry : Nat}

theorem processEntry_mono {turns more : Nat} (done : p.processEntry turns s entry = some s') (le : turns ≤ more) :
    p.processEntry more s entry = some s' := by
  unfold Program.processEntry at done ⊢
  split at done
  next => cases done
  next address =>
    rw [if_neg address]
    split at done
    next => cases done
    next =>
      split at done
      next => exact done
      next => exact explore_mono done le

theorem processEntry_spec {good : I → Prop} (closed : ∀ i j, good i → Relation.ReflTransGen (Step p) i j → good j)
    (silent : ∀ i, good i → p.isControl i = true → p.printsNull i = false) (idle : Idle p good s) (address : entry ≠ 0)
    (code : (p.findInstAt entry).isSome) (enters : ∀ e, p.getInst entry = some e → good e) :
    ∃ turns s', p.processEntry turns s entry = some s' ∧ Idle p good s' ∧ (∀ i, s.Seen i → s'.Seen i) ∧
      ∀ e, p.getInst entry = some e → s'.Seen e := by
  obtain ⟨i,found⟩ := Option.isSome_iff_exists.mp code
  unfold Program.processEntry
  simp only [address,if_false,found]
  cases got : p.getInst entry with
  | none => exact ⟨0,s,rfl,idle,fun _ seen => seen,fun e none_ => by cases none_⟩
  | some inst =>
    have grows (j : I) (seen : s.Seen j) :
        State.Seen { s with todo := [some inst], fetched := s.fetched ++ [inst] } j :=
      seen.imp_left (List.mem_append_left _)
    have start : Inv p { s with todo := [some inst], fetched := s.fetched ++ [inst] } := by
      refine ⟨fun j seen => ?_,fun m marked j on => ?_,fun f member => ?_⟩
      · rcases seen with member | member
        · rcases List.mem_append.mp member with before | first
          · exact .inl ((idle.inv.settled j (.inl before)).resolve_right (by simp [idle.empty]) |>.mono grows)
          · rw [List.mem_singleton.mp first]
            exact .inr ⟨inst,List.mem_cons_self,.refl⟩
        · exact .inl ((idle.inv.settled j (.inr member)).resolve_right (by simp [idle.empty]) |>.mono grows)
      · obtain ⟨seen,closed⟩ := idle.inv.marked m marked j on
        exact ⟨grows j seen,closed.mono grows⟩
      · cases List.mem_singleton.mp member
        exact .inl (List.mem_append_right _ (List.mem_singleton_self _))
    have inside (j : I) (seen : State.Seen { s with todo := [some inst], fetched := s.fetched ++ [inst] } j) : good j := by
      rcases seen with member | member
      · rcases List.mem_append.mp member with before | first
        · exact idle.inside j (.inl before)
        · exact List.mem_singleton.mp first ▸ enters inst got
      · exact idle.inside j (.inr member)
    obtain ⟨turns,s',done,inv,empty,inside',grows'⟩ := explore_spec closed silent _ start inside
    refine ⟨turns,s',done,⟨inv,empty,inside'⟩,fun j seen => grows' j (grows j seen),fun e same => ?_⟩
    cases same
    exact grows' _ (.inl (List.mem_append_right _ (List.mem_singleton_self _)))

theorem entries_mono {turns more : Nat} (le : turns ≤ more) {entries : List Nat}
    (done : entries.foldlM (p.processEntry turns) s = some s') : entries.foldlM (p.processEntry more) s = some s' :=
  foldlM_mono (fun _ _ _ _ one => processEntry_mono one le) done

end Entries

/-- What the entries lead to. -/
def Program.Reaches (p : Program I) (entries : List Nat) (i : I) : Prop :=
  ∃ a ∈ entries, ∃ e, p.getInst a = some e ∧ Relation.ReflTransGen (Step p) e i

/-- An instruction, a call whose target is annotated, and the returns after it and of the
    called function. -/
def annotatedCall : Program (Fin 4) where
  address i := 4 * i + 4
  size _ := 4
  size_pos _ := Nat.succ_pos 3
  findInstAt a := (List.finRange 4).find? fun i => 4 * i.val + 4 = a
  found a i at_ := by simpa using List.find?_some at_
  isUnknown _ := false
  isControl i := decide (1 ≤ i.val)
  isConditional _ := false
  isCall i := decide (i.val = 1)
  isReturn i := decide (2 ≤ i.val)
  target _ := none
  IS_RETURN _ := false
  NO_CALL _ := false
  NO_RETURN _ := false
  CALL_TARGET i := if i.val = 1 then [16] else []
  BRANCH_TARGET _ := []

def branchAndReturn : Program Bool where
  address i := if i then 8 else 4
  size _ := 4
  size_pos _ := Nat.succ_pos 3
  findInstAt a := if a = 4 then some false else if a = 8 then some true else none
  found a i at_ := by
    split at at_
    next => cases at_; simp_all
    next =>
      split at at_
      next => cases at_; simp_all
      next => cases at_
  isUnknown _ := false
  isControl _ := true
  isConditional _ := false
  isCall _ := false
  isReturn i := i
  target i := if i then none else some true
  IS_RETURN _ := false
  NO_CALL _ := false
  NO_RETURN _ := false
  CALL_TARGET _ := []
  BRANCH_TARGET _ := []

end Otawa.Decode
