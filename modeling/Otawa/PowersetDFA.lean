import Otawa.Cfg
import Otawa.IterativeDFA
import Otawa.VectorQueue
import Mathlib.Data.Finset.Card

/-!
The iterative data flow engine on its ring buffer, for the problems over sets whose merge
is a union or an intersection: it stops, and its inputs and outputs are the least solution
of the equations for a union and the greatest one for an intersection.
-/
namespace Otawa.Dfa
open Otawa.Cfg (CFG)
open Otawa.Queue (VectorQueue Holds)

variable {n m : Nat} {S : Type}

section Inputs
variable {dfa : IterativeDFA n S}

/-- The inputs of the blocks that do not wait are those of the current outputs. -/
def InsAgree (dfa : IterativeDFA n S) (s : State n S) : Prop := ∀ b, b ∉ s.todo → s.ins b = dfa.input s.outs b

theorem step_insAgree (lawful : Lawful dfa) {s : State n S} (nodup : s.todo.Nodup) (agrees : Present s.todo s.present)
    (holds : InsAgree dfa s) : InsAgree dfa (dfa.step s) := by
  cases waiting : s.todo with
  | nil => rwa [IterativeDFA.step,waiting]
  | cons bb todo =>
    have absent : bb ∉ todo := (List.nodup_cons.mp (waiting ▸ nodup)).1
    have rest : Present todo (Function.update s.present bb false) := Present.rest absent (waiting ▸ agrees)
    -- without a change of the outputs, the inputs computed now are right
    have computed {b : Fin n} (out : b ∉ todo) :
        Function.update s.ins bb (dfa.input s.outs bb) b = dfa.input s.outs b := by
      by_cases same : b = bb
      · rw [same,Function.update_self]
      · rw [Function.update_of_ne same]
        exact holds b (by simp [waiting,same,out])
    rw [IterativeDFA.step,waiting]
    dsimp only
    split
    · exact fun b out => computed out
    · intro b out
      dsimp only at out ⊢
      rw [(put_enqueue rest _).1,Worklist.mem_enqueue,not_or] at out
      have keeps : dfa.input (Function.update s.outs bb (dfa.output s.outs bb)) b = dfa.input s.outs b := by
        refine input_congr fun p member => Function.update_of_ne ?_ _ _
        rintro rfl
        exact out.2 ((lawful.converse _ _).mp member)
      rw [keeps]
      exact computed out.1

variable [DecidableEq S]

theorem loop_ins (lawful : Lawful dfa) {le : S → S → Prop} {rank : S → Nat}
    (descent : Worklist.Descent (equations lawful) le rank) {s s' : State n S}
    (sound : Worklist.Sound (equations lawful) le (abstract s)) (agrees : Present s.todo s.present)
    (holds : InsAgree dfa s) {k : Nat} (ran : dfa.loop k s = some s') : ∀ b, s'.ins b = dfa.input s'.outs b := by
  induction k generalizing s with
  | zero =>
    rw [IterativeDFA.loop] at ran
    obtain ⟨done,same⟩ := Option.ite_none_right_eq_some.mp ran
    obtain rfl := Option.some.inj same
    exact fun b => holds b (by simp [done])
  | succ k ih =>
    rw [IterativeDFA.loop] at ran
    by_cases done : s.todo = []
    · rw [if_pos done] at ran
      obtain rfl := Option.some.inj ran
      exact fun b => holds b (by simp [done])
    · rw [if_neg done] at ran
      obtain ⟨same,agrees'⟩ := step_abstract lawful sound.nodup agrees
      exact ih (same ▸ Worklist.step_sound descent sound) agrees' (step_insAgree lawful sound.nodup agrees holds) ran

end Inputs

/-- The state of `compute` with its `VectorQueue`. -/
structure RingState (n : Nat) (S : Type) where
  ins : Fin n → S
  outs : Fin n → S
  todo : VectorQueue (Fin n)
  present : Fin n → Bool

namespace IterativeDFA

variable (dfa : IterativeDFA n S)

def ringInit : RingState n S where
  ins _ := dfa.empty
  outs _ := dfa.empty
  todo := (List.finRange n).foldl VectorQueue.put (VectorQueue.create 4)
  present _ := true

def ringPut (todo : VectorQueue (Fin n)) (present : Fin n → Bool) : List (Fin n) → VectorQueue (Fin n) × (Fin n → Bool)
  | [] => (todo,present)
  | next :: rest =>
    if present next then ringPut todo present rest
    else ringPut (todo.put next) (Function.update present next true) rest

/-- One turn of the loop of `compute`; without a result on an empty queue. -/
def ringStep (s : RingState n S) : Option (RingState n S) :=
  s.todo.get.map fun (bb,todo) =>
    let present := Function.update s.present bb false
    let ins := Function.update s.ins bb (dfa.input s.outs bb)
    let comp := dfa.output s.outs bb
    if dfa.equals comp (s.outs bb) then ⟨ins,s.outs,todo,present⟩
    else
      let queued := ringPut todo present (dfa.forward bb)
      ⟨ins,Function.update s.outs bb comp,queued.1,queued.2⟩

/-- The loop of `compute`, for at most k turns. -/
def ringLoop : Nat → RingState n S → Option (RingState n S)
  | 0, s => if s.todo.isEmpty then some s else none
  | k + 1, s => if s.todo.isEmpty then some s else (dfa.ringStep s).bind (ringLoop k)

def ringCompute (k : Nat) : Option (RingState n S) := dfa.ringLoop k dfa.ringInit

end IterativeDFA

structure RingState.Agrees (r : RingState n S) (s : State n S) : Prop where
  ins : r.ins = s.ins
  outs : r.outs = s.outs
  present : r.present = s.present
  todo : Holds r.todo s.todo

variable {dfa : IterativeDFA n S}

theorem ringPut_agrees {q : VectorQueue (Fin n)} {todo : List (Fin n)} (holds : Holds q todo) (present : Fin n → Bool)
    (added : List (Fin n)) :
    Holds (IterativeDFA.ringPut q present added).1 (IterativeDFA.put todo present added).1 ∧
      (IterativeDFA.ringPut q present added).2 = (IterativeDFA.put todo present added).2 := by
  induction added generalizing q todo present with
  | nil => exact ⟨holds,rfl⟩
  | cons next rest ih =>
    rw [IterativeDFA.ringPut,IterativeDFA.put]
    split
    · exact ih holds present
    · exact ih (holds.put next) _

theorem ringInit_agrees : (dfa.ringInit).Agrees dfa.init := by
  refine ⟨rfl,rfl,rfl,?_⟩
  have puts (added items : List (Fin n)) {q : VectorQueue (Fin n)} (holds : Holds q items) :
      Holds (added.foldl VectorQueue.put q) (items ++ added) := by
    induction added generalizing q items with
    | nil => rwa [List.append_nil]
    | cons next rest ih =>
      rw [List.foldl_cons,List.append_cons]
      exact ih _ (holds.put next)
  exact puts (List.finRange n) [] (Queue.holds_create 4)

theorem ringStep_agrees {r : RingState n S} {s : State n S} (agrees : r.Agrees s) (more : s.todo ≠ []) :
    ∃ r', dfa.ringStep r = some r' ∧ r'.Agrees (dfa.step s) := by
  obtain ⟨bb,todo,waiting⟩ := List.exists_cons_of_ne_nil more
  obtain ⟨q,got,holds⟩ := Holds.get (waiting ▸ agrees.todo)
  rw [IterativeDFA.ringStep,got,Option.map_some,IterativeDFA.step,waiting,agrees.ins,agrees.outs,agrees.present]
  refine ⟨_,rfl,?_⟩
  dsimp only
  split
  · exact ⟨rfl,rfl,rfl,holds⟩
  · have queued := ringPut_agrees holds (Function.update s.present bb false) (dfa.forward bb)
    exact ⟨rfl,rfl,queued.2,queued.1⟩

theorem ringLoop_agrees {r : RingState n S} {s s' : State n S} (agrees : r.Agrees s) {k : Nat}
    (ran : dfa.loop k s = some s') : ∃ r', dfa.ringLoop k r = some r' ∧ r'.Agrees s' := by
  induction k generalizing r s with
  | zero =>
    rw [IterativeDFA.loop] at ran
    obtain ⟨done,same⟩ := Option.ite_none_right_eq_some.mp ran
    obtain rfl := Option.some.inj same
    exact ⟨r,if_pos (by rw [agrees.todo.isEmpty,done]; rfl),agrees⟩
  | succ k ih =>
    rw [IterativeDFA.loop] at ran
    rw [IterativeDFA.ringLoop,agrees.todo.isEmpty]
    by_cases done : s.todo = []
    · rw [if_pos done] at ran
      obtain rfl := Option.some.inj ran
      exact ⟨r,if_pos (by rw [done]; rfl),agrees⟩
    · rw [if_neg done] at ran
      obtain ⟨r',stepped,agrees'⟩ := @ringStep_agrees n S dfa _ _ agrees done
      rw [if_neg (by simpa using done),stepped]
      exact ih agrees' ran

section Sets

/-- The merge of a problem over sets. -/
inductive Merge where
  | union
  | inter
  deriving DecidableEq

variable {α : Type} [Fintype α] [DecidableEq α]

def Merge.empty : Merge → Finset α
  | .union => ∅
  | .inter => Finset.univ

def Merge.apply : Merge → Finset α → Finset α → Finset α
  | .union, x, y => x ∪ y
  | .inter, x, y => x ∩ y

/-- Below for a union, above for an intersection. -/
def Merge.Before : Merge → Finset α → Finset α → Prop
  | .union, x, y => x ⊆ y
  | .inter, x, y => y ⊆ x

/-- A member of the merge of the sets given for some blocks. -/
def Merge.Of (outs : Fin n → Finset α) (reaches : Fin n → Prop) (a : α) : Merge → Prop
  | .union => ∃ p, reaches p ∧ a ∈ outs p
  | .inter => ∀ p, reaches p → a ∈ outs p

def powersetProblem (merge : Merge) (g : CFG n m) (gen kill : Fin n → Finset α) : IterativeDFA n (Finset α) where
  empty := merge.empty
  gen := gen
  kill := kill
  equals x y := decide (x = y)
  reset := merge.empty
  merge := merge.apply
  add x y := x ∪ y
  diff x y := x \ y
  iter := g.predecessors
  forward := g.successors

def Solves (merge : Merge) (g : CFG n m) (gen kill ins outs : Fin n → Finset α) : Prop :=
  ∀ b, outs b = gen b ∪ (ins b \ kill b) ∧ ∀ a, a ∈ ins b ↔ merge.Of outs (fun p => g.Flow p b) a

variable {merge : Merge} {g : CFG n m} {gen kill : Fin n → Finset α}

omit [Fintype α] in
private theorem mem_union_fold {outs : Fin n → Finset α} {a : α} {preds : List (Fin n)} {set : Finset α} :
    a ∈ preds.foldl (fun set p => set ∪ outs p) set ↔ a ∈ set ∨ ∃ p ∈ preds, a ∈ outs p := by
  induction preds generalizing set with
  | nil => simp
  | cons p rest ih => simp [ih,or_assoc]

omit [Fintype α] in
private theorem mem_inter_fold {outs : Fin n → Finset α} {a : α} {preds : List (Fin n)} {set : Finset α} :
    a ∈ preds.foldl (fun set p => set ∩ outs p) set ↔ a ∈ set ∧ ∀ p ∈ preds, a ∈ outs p := by
  induction preds generalizing set with
  | nil => simp
  | cons p rest ih => simp [ih,and_assoc]

theorem mem_powerset_input {outs : Fin n → Finset α} {a : α} {b : Fin n} :
    a ∈ (powersetProblem merge g gen kill).input outs b ↔ merge.Of outs (fun p => g.Flow p b) a := by
  unfold IterativeDFA.input
  cases merge with
  | union => simp [powersetProblem,Merge.apply,Merge.empty,Merge.Of,mem_union_fold,g.mem_predecessors]
  | inter => simp [powersetProblem,Merge.apply,Merge.empty,Merge.Of,mem_inter_fold,g.mem_predecessors]

theorem powerset_output (outs : Fin n → Finset α) (b : Fin n) : (powersetProblem merge g gen kill).output outs b =
    gen b ∪ ((powersetProblem merge g gen kill).input outs b \ kill b) := by
  show (_ \ _) ∪ _ = _
  exact Finset.union_comm _ _

theorem powerset_lawful : Lawful (powersetProblem merge g gen kill) where
  equals _ _ := decide_eq_true_iff
  converse _ _ := by simp only [powersetProblem,g.mem_predecessors,g.mem_successors]

/-- What can still change in a set. -/
def Merge.rank : Merge → Finset α → Nat
  | .union, x => Fintype.card α - x.card
  | .inter, x => x.card

theorem input_before {outs outs' : Fin n → Finset α} (before : ∀ p, merge.Before (outs p) (outs' p)) (b : Fin n) :
    merge.Before ((powersetProblem merge g gen kill).input outs b) ((powersetProblem merge g gen kill).input outs' b) := by
  cases merge with
  | union =>
    intro a member
    rw [mem_powerset_input] at member ⊢
    obtain ⟨p,flow,member⟩ := member
    exact ⟨p,flow,before p member⟩
  | inter =>
    intro a member
    rw [mem_powerset_input] at member ⊢
    exact fun p flow => before p (member p flow)

omit [Fintype α] in
theorem Merge.Before.transfer {x y gen kill : Finset α} (before : merge.Before x y) :
    merge.Before (gen ∪ (x \ kill)) (gen ∪ (y \ kill)) := by
  cases merge with
  | union | inter => exact Finset.union_subset_union_right (Finset.sdiff_subset_sdiff before (Finset.Subset.refl _))

theorem powerset_descent : Worklist.Descent (equations (powerset_lawful : Lawful (powersetProblem merge g gen kill)))
    (fun x y => merge.Before y x) merge.rank where
  refl x := by cases merge <;> exact Finset.Subset.refl x
  trans {x y z} first second := by
    cases merge with
    | union => exact Finset.Subset.trans second first
    | inter => exact Finset.Subset.trans first second
  mono b before := by
    show merge.Before ((powersetProblem merge g gen kill).output _ b) ((powersetProblem merge g gen kill).output _ b)
    rw [powerset_output,powerset_output]
    exact (input_before before b).transfer
  rank_lt {x y} before differ := by
    cases merge with
    | union =>
      have more := Finset.card_lt_card (Finset.ssubset_iff_subset_ne.mpr ⟨before,differ.symm⟩)
      have most := Finset.card_le_univ x
      exact (by omega : Fintype.card α - x.card < Fintype.card α - y.card)
    | inter => exact Finset.card_lt_card (Finset.ssubset_iff_subset_ne.mpr ⟨before,differ⟩)

/-- For every graph and all sets GEN and KILL, `compute` stops on its ring, what it returns
solves the equations, and any other solution is above it for a union and below it for an
intersection. -/
theorem compute_powerset (merge : Merge) (g : CFG n m) (gen kill : Fin n → Finset α) :
    ∃ s, (powersetProblem merge g gen kill).ringCompute (n + n * (n * Fintype.card α)) = some s ∧
      Solves merge g gen kill s.ins s.outs ∧
      ∀ ins outs, Solves merge g gen kill ins outs →
        ∀ b, merge.Before (s.ins b) (ins b) ∧ merge.Before (s.outs b) (outs b) := by
  have first (x : Finset α) : merge.Before merge.empty x := by
    cases merge with
    | union => exact Finset.empty_subset x
    | inter => exact Finset.subset_univ x
  have rank : merge.rank (merge.empty : Finset α) = Fintype.card α := by
    cases merge <;> simp [Merge.rank,Merge.empty]
  have sound : Worklist.Sound (equations (powerset_lawful : Lawful (powersetProblem merge g gen kill)))
      (fun x y => merge.Before y x) (abstract (powersetProblem merge g gen kill).init) :=
    ⟨List.nodup_finRange n,fun b absent => absurd (List.mem_finRange b) absent,fun _ => first _,fun _ _ _ => first _⟩
  obtain ⟨s,computed,fixed,extreme⟩ := compute_spec (powerset_lawful : Lawful (powersetProblem merge g gen kill))
    powerset_descent first (k := n + n * (n * Fintype.card α)) (by rw [← rank]; exact Nat.le_refl _)
  have inputs := loop_ins powerset_lawful powerset_descent sound (fun b => by simp [IterativeDFA.init])
    (fun b absent => absurd (List.mem_finRange b) absent) computed
  obtain ⟨r,ran,agrees⟩ := ringLoop_agrees ringInit_agrees computed
  rw [← agrees.ins,← agrees.outs] at inputs
  rw [← agrees.outs] at fixed extreme
  refine ⟨r,ran,fun b => ⟨?_,fun a => ?_⟩,fun ins outs solves b => ?_⟩
  · rw [inputs b,← powerset_output,fixed]
  · rw [inputs b,mem_powerset_input]
  · have same (c : Fin n) : (powersetProblem merge g gen kill).input outs c = ins c := by
      ext a
      rw [mem_powerset_input,(solves c).2 a]
    have above := extreme outs fun c => by rw [powerset_output,same,(solves c).1]
    exact ⟨by rw [inputs b,← same b]; exact input_before above b,above b⟩

end Sets

end Otawa.Dfa
