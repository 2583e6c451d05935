import Otawa.IterativeDFA
import Mathlib.Order.BoundedOrder.Basic
import Mathlib.Order.Lattice
import Mathlib.Data.Fintype.Card

/-!
The light abstract interpreter (`dfa::AbsIntLite`). Only the vertices reached from the entry
are ever computed: the others keep the bottom value. With this reservation it is a run of the
work list of `Worklist`, and its values are the least solution (`process_spec`).
-/
namespace Otawa.AbsIntLite
open Otawa.Worklist (Equations enqueue)
open Otawa.Dfa (Present put_enqueue)

/-- A graph adapter. -/
structure Graph (n : Nat) where
  entry : Fin n
  successors : Fin n → List (Fin n)
  predecessors : Fin n → List (Fin n)

/-- The domain of an interpreter; its `equals` is the equality. -/
structure Domain (n : Nat) (S : Type) where
  initial : S
  bottom : S
  join : S → S → S
  update : Fin n → S → S

structure State (n : Nat) (S : Type) where
  vals : Fin n → S
  todo : List (Fin n)
  set : Fin n → Bool

section Engine
variable {n : Nat} {S : Type} (g : Graph n) (d : Domain n S)

/-- `in`. -/
def input (vals : Fin n → S) (v : Fin n) : S :=
  (g.predecessors v).foldl (fun tmp pred => d.join tmp (vals pred)) d.bottom

/-- The state before the loop: `push` is the `put` of the iterative engine. -/
def init : State n S :=
  let queued := Dfa.IterativeDFA.put [] (fun _ => false) (g.successors g.entry)
  { vals := Function.update (fun _ => d.bottom) g.entry d.initial, todo := queued.1, set := queued.2 }

variable [DecidableEq S]

/-- One turn of the loop: `pop`, then `step`. -/
def step (s : State n S) : State n S :=
  match s.todo with
  | [] => s
  | v :: todo =>
    let set := Function.update s.set v false
    let tmp := d.update v (input g d s.vals v)
    if tmp = s.vals v then ⟨s.vals,todo,set⟩
    else
      let queued := Dfa.IterativeDFA.put todo set (g.successors v)
      ⟨Function.update s.vals v tmp,queued.1,queued.2⟩

/-- The loop of `process`, for at most k turns. -/
def loop : Nat → State n S → Option (State n S)
  | 0, s => if s.todo = [] then some s else none
  | k + 1, s => if s.todo = [] then some s else loop k (step g d s)

def process (k : Nat) : Option (State n S) := loop g d k (init g d)

end Engine

variable {n : Nat} {S : Type} [SemilatticeSup S] [OrderBot S]

/-- A flow graph whose entry has no predecessor, and a domain where what is not bottom stays so. -/
structure Lawful (g : Graph n) (d : Domain n S) : Prop where
  converse : ∀ a b, a ∈ g.predecessors b ↔ b ∈ g.successors a
  first : ∀ a, g.entry ∉ g.successors a
  bottom : d.bottom = ⊥
  join : ∀ x y, d.join x y = x ⊔ y
  initial : d.initial ≠ ⊥
  mono : ∀ v x y, x ≤ y → d.update v x ≤ d.update v y
  live : ∀ v x, x ≠ ⊥ → d.update v x ≠ ⊥

variable {g : Graph n} {d : Domain n S}

private theorem foldl_join_le (lawful : Lawful g d) (preds : List (Fin n)) (vals : Fin n → S) (start x : S) :
    preds.foldl (fun tmp pred => d.join tmp (vals pred)) start ≤ x ↔ start ≤ x ∧ ∀ p ∈ preds, vals p ≤ x := by
  induction preds generalizing start with
  | nil => simp
  | cons p preds ih => rw [List.foldl_cons,ih,lawful.join,sup_le_iff,List.forall_mem_cons,and_assoc]

theorem input_le_iff (lawful : Lawful g d) {vals : Fin n → S} {v : Fin n} {x : S} :
    input g d vals v ≤ x ↔ ∀ p ∈ g.predecessors v, vals p ≤ x := by
  rw [input,foldl_join_le lawful,lawful.bottom]
  exact and_iff_right bot_le

theorem le_input (lawful : Lawful g d) (vals : Fin n → S) {p v : Fin n} (pred : p ∈ g.predecessors v) :
    vals p ≤ input g d vals v := (input_le_iff lawful).mp le_rfl p pred

theorem input_mono (lawful : Lawful g d) {vals vals' : Fin n → S} (below : ∀ p, vals p ≤ vals' p) (v : Fin n) :
    input g d vals v ≤ input g d vals' v :=
  (input_le_iff lawful).mpr fun p pred => (below p).trans (le_input lawful vals' pred)

private theorem reached_grows (lawful : Lawful g d) {vals vals' : Fin n → S} (below : ∀ p, vals p ≤ vals' p)
    {v : Fin n} (reached : input g d vals v ≠ ⊥) : input g d vals' v ≠ ⊥ :=
  ((bot_lt_iff_ne_bot.mpr reached).trans_le (input_mono lawful below v)).ne'

variable [DecidableEq S]

/-- The value of a vertex from the others: nothing comes from bottom. -/
def transfer (g : Graph n) (d : Domain n S) (vals : Fin n → S) (v : Fin n) : S :=
  if v = g.entry then d.initial
  else if input g d vals v = ⊥ then ⊥
  else d.update v (input g d vals v)

theorem transfer_mono (lawful : Lawful g d) {vals vals' : Fin n → S} (below : ∀ p, vals p ≤ vals' p) (v : Fin n) :
    transfer g d vals v ≤ transfer g d vals' v := by
  have inputs := input_mono lawful below v
  unfold transfer
  split
  · exact le_rfl
  split
  · exact bot_le
  case isFalse some =>
    have alive : input g d vals' v ≠ ⊥ := by
      intro none
      rw [none,le_bot_iff] at inputs
      exact some inputs
    rw [if_neg alive]
    exact lawful.mono v _ _ inputs

/-- The equations that the interpreter solves. -/
def equations (lawful : Lawful g d) : Equations (Fin n) S where
  transfer := transfer g d
  dependents := g.successors
  local_ same := by
    have inputs : ∀ {value value' : Fin n → S} {b : Fin n}, (∀ p, b ∈ g.successors p → value p = value' p) →
        input g d value b = input g d value' b := by
      intro value value' b same
      exact List.foldl_ext _ _ _ fun tmp p member => by rw [same p ((lawful.converse p b).mp member)]
    unfold transfer
    rw [inputs same]

theorem descent (lawful : Lawful g d) {rank : S → Nat} (finite : ∀ x y, x < y → rank y < rank x) :
    Worklist.Descent (equations lawful) (fun x y => y ≤ x) rank where
  refl _ := le_rfl
  trans first second := second.trans first
  mono b above := transfer_mono lawful above b
  rank_lt above differ := finite _ _ (lt_of_le_of_ne above (Ne.symm differ))

def abstract (s : State n S) : Worklist.State (Fin n) S := ⟨s.todo,s.vals⟩

def Reached (g : Graph n) (d : Domain n S) (s : State n S) : Prop :=
  ∀ v ∈ s.todo, v ≠ g.entry ∧ input g d s.vals v ≠ ⊥

theorem step_abstract (lawful : Lawful g d) {s : State n S}
    (sound : Worklist.Sound (equations lawful) (fun x y => y ≤ x) (abstract s))
    (agrees : Present s.todo s.set) (reached : Reached g d s) :
    abstract (step g d s) = Worklist.step (equations lawful) (abstract s) ∧
      Present (step g d s).todo (step g d s).set ∧ Reached g d (step g d s) := by
  have nodup : s.todo.Nodup := sound.nodup
  cases waiting : s.todo with
  | nil =>
    have same : step g d s = s := by rw [step,waiting]
    rw [same,Worklist.step]
    simp only [abstract,waiting]
    exact ⟨trivial,waiting ▸ agrees,reached⟩
  | cons v todo =>
    obtain ⟨notEntry,some⟩ := reached v (waiting ▸ List.mem_cons_self)
    have absent : v ∉ todo := (List.nodup_cons.mp (waiting ▸ nodup)).1
    have rest : Present todo (Function.update s.set v false) := by
      intro b
      by_cases same : b = v
      · subst same; simp [absent]
      · rw [Function.update_of_ne same,agrees b,waiting]
        simp [same]
    have queued := put_enqueue rest (g.successors v)
    have value : transfer g d s.vals v = d.update v (input g d s.vals v) := by
      rw [transfer,if_neg notEntry,if_neg some]
    have others : ∀ w ∈ todo, w ≠ g.entry ∧ input g d s.vals w ≠ ⊥ :=
      fun w member => reached w (waiting ▸ List.mem_cons_of_mem v member)
    by_cases same : d.update v (input g d s.vals v) = s.vals v
    · have kept : step g d s = ⟨s.vals,todo,Function.update s.set v false⟩ := by
        rw [step,waiting]
        exact if_pos same
      have stepped : Worklist.step (equations lawful) (abstract s) = ⟨todo,s.vals⟩ := by
        rw [Worklist.step]
        simp only [abstract,waiting]
        exact if_pos (value.trans same)
      rw [kept,stepped]
      exact ⟨rfl,rest,others⟩
    · have changed : step g d s = ⟨Function.update s.vals v (d.update v (input g d s.vals v)),
          (Dfa.IterativeDFA.put todo (Function.update s.set v false) (g.successors v)).1,
          (Dfa.IterativeDFA.put todo (Function.update s.set v false) (g.successors v)).2⟩ := by
        rw [step,waiting]
        exact if_neg same
      have stepped : Worklist.step (equations lawful) (abstract s) =
          ⟨enqueue todo (g.successors v),Function.update s.vals v (transfer g d s.vals v)⟩ := by
        rw [Worklist.step]
        simp only [abstract,waiting]
        exact if_neg fun equal => same (value.symm.trans equal)
      have up : ∀ p, s.vals p ≤ Function.update s.vals v (d.update v (input g d s.vals v)) p := by
        intro p
        by_cases here : p = v
        · subst here
          rw [Function.update_self,← value]
          exact sound.descends.down p
        · rw [Function.update_of_ne here]
      rw [changed,stepped]
      refine ⟨by rw [abstract,queued.1,value],queued.2,fun w member => ?_⟩
      rw [queued.1,Worklist.mem_enqueue] at member
      rcases member with old | next
      · exact ⟨(others w old).1,reached_grows lawful up (others w old).2⟩
      · refine ⟨fun entry => lawful.first v (entry ▸ next),fun none => ?_⟩
        have bound := le_input lawful (Function.update s.vals v (d.update v (input g d s.vals v)))
          ((lawful.converse v w).mpr next)
        rw [none,Function.update_self,le_bot_iff] at bound
        exact lawful.live v _ some bound

theorem loop_abstract (lawful : Lawful g d) {rank : S → Nat} (finite : ∀ x y, x < y → rank y < rank x)
    {s : State n S} (sound : Worklist.Sound (equations lawful) (fun x y => y ≤ x) (abstract s))
    (agrees : Present s.todo s.set) (reached : Reached g d s) {k : Nat}
    (ends : (Worklist.run (equations lawful) k (abstract s)).todo = []) :
    ∃ s', loop g d k s = some s' ∧ abstract s' = Worklist.run (equations lawful) k (abstract s) := by
  induction k generalizing s with
  | zero => exact ⟨s,if_pos ends,rfl⟩
  | succ k ih =>
    rw [Worklist.run] at ends ⊢
    rw [loop]
    by_cases done : s.todo = []
    · rw [if_pos done,if_pos (show (abstract s).todo = [] from done)]
      exact ⟨s,rfl,rfl⟩
    · rw [if_neg (show (abstract s).todo ≠ [] from done)] at ends ⊢
      rw [if_neg done]
      obtain ⟨same,agrees',reached'⟩ := step_abstract lawful sound agrees reached
      rw [← same] at ends ⊢
      exact ih (same ▸ Worklist.step_sound (descent lawful finite) sound) agrees' reached' ends

theorem process_spec (lawful : Lawful g d) {rank : S → Nat} (finite : ∀ x y, x < y → rank y < rank x)
    {k : Nat} (enough : n + n * (n * rank ⊥) ≤ k) :
    ∃ s, process g d k = some s ∧ (∀ v, transfer g d s.vals v = s.vals v) ∧
      ∀ solution : Fin n → S, (∀ v, transfer g d solution v = solution v) → ∀ v, s.vals v ≤ solution v := by
  have none : Present ([] : List (Fin n)) (fun _ => false) := by simp [Present]
  have queued := put_enqueue none (g.successors g.entry)
  have todo : (init g d).todo = enqueue [] (g.successors g.entry) := queued.1
  have vals : (init g d).vals = Function.update (fun _ => ⊥) g.entry d.initial := by rw [← lawful.bottom]; rfl
  have other : ∀ v, v ≠ g.entry → (init g d).vals v = ⊥ := by
    intro v differ
    rw [vals,Function.update_of_ne differ]
  have atEntry : (init g d).vals g.entry = d.initial := by rw [vals,Function.update_self]
  have down : ∀ v, (init g d).vals v ≤ transfer g d (init g d).vals v := by
    intro v
    by_cases same : v = g.entry
    · rw [same,atEntry,transfer,if_pos rfl]
    · rw [other v same]
      exact bot_le
  have sound : Worklist.Sound (equations lawful) (fun x y => y ≤ x) (abstract (init g d)) := by
    refine ⟨?_,fun v absent => ?_,down,fun solution solves v => ?_⟩
    · show (init g d).todo.Nodup
      rw [todo]
      exact Worklist.nodup_enqueue List.nodup_nil _
    · show transfer g d (init g d).vals v = (init g d).vals v
      by_cases same : v = g.entry
      · rw [same,atEntry,transfer,if_pos rfl]
      · rw [other v same,transfer,if_neg same]
        refine if_pos (le_bot_iff.mp ((input_le_iff lawful).mpr fun p pred => ?_))
        by_cases entry : p = g.entry
        · subst entry
          refine absurd ?_ absent
          show v ∈ (init g d).todo
          rw [todo,Worklist.mem_enqueue]
          exact Or.inr ((lawful.converse _ v).mp pred)
        · rw [other p entry]
    · show (init g d).vals v ≤ solution v
      by_cases same : v = g.entry
      · have value := solves v
        rw [same] at value ⊢
        rw [atEntry,← value]
        show _ ≤ transfer g d solution g.entry
        rw [transfer,if_pos rfl]
      · rw [other v same]
        exact bot_le
  have reached : Reached g d (init g d) := by
    intro v member
    rw [todo,Worklist.mem_enqueue] at member
    have next : v ∈ g.successors g.entry := member.resolve_left List.not_mem_nil
    refine ⟨fun entry => lawful.first _ (entry ▸ next),fun none => ?_⟩
    have bound := le_input lawful (init g d).vals ((lawful.converse _ v).mpr next)
    rw [none,atEntry,le_bot_iff] at bound
    exact lawful.initial bound
  have bound : Worklist.measure rank (abstract (init g d)) ≤ k := by
    refine le_trans ?_ enough
    have short : (init g d).todo.length ≤ n := by
      have card := sound.nodup.length_le_card
      rwa [Fintype.card_fin] at card
    have ranks : ∑ v, rank ((init g d).vals v) ≤ n * rank ⊥ := by
      refine (Finset.sum_le_card_nsmul _ _ (rank ⊥) fun v _ => ?_).trans_eq (by simp)
      rcases eq_or_ne ((init g d).vals v) ⊥ with none | some
      · rw [none]
      · exact (finite _ _ (bot_lt_iff_ne_bot.mpr some)).le
    rw [Worklist.measure,Fintype.card_fin]
    exact Nat.add_le_add short (Nat.mul_le_mul_left n ranks)
  have ends := Worklist.run_ends (descent lawful finite) sound bound
  obtain ⟨s,computed,same⟩ := loop_abstract lawful finite sound queued.2 reached ends
  have final := Worklist.run_keeps (descent lawful finite) sound k
  rw [← same] at final ends
  exact ⟨s,computed,Worklist.solution_of_ended final ends⟩

end Otawa.AbsIntLite
