import Mathlib.Data.List.Induction

/-!
Runs of a system that takes labelled steps, over any states and labels. A step
lemma says under which condition a step keeps an invariant; `always_iff_meets`
lifts it to runs: the invariant holds in every state reached exactly when every
step meets its condition in the state before it.
-/
namespace Otawa.Runs

variable {S Op : Type*}

def Run (step : S → Op → S → Prop) : S → List Op → S → Prop
  | s,[],t => t = s
  | s,op :: rest,t => ∃ u, step s op u ∧ Run step u rest t

theorem run_snoc {step : S → Op → S → Prop} {s t : S} {ops : List Op} {op : Op} :
    Run step s (ops ++ [op]) t ↔ ∃ u, Run step s ops u ∧ step u op t := by
  induction ops generalizing s with
  | nil =>
    constructor
    · rintro ⟨u,taken,rfl⟩
      exact ⟨s,rfl,taken⟩
    · rintro ⟨u,rfl,taken⟩
      exact ⟨t,taken,rfl⟩
  | cons first rest ih =>
    constructor
    · rintro ⟨v,taken,later⟩
      obtain ⟨u,reached,last⟩ := ih.mp later
      exact ⟨u,⟨v,taken,reached⟩,last⟩
    · rintro ⟨u,⟨v,taken,reached⟩,last⟩
      exact ⟨v,taken,ih.mpr ⟨u,reached,last⟩⟩

def Always (step : S → Op → S → Prop) (holds : S → Prop) (s : S) (ops : List Op) : Prop :=
  ∀ before, before <+: ops → ∀ t, Run step s before t → holds t

/-- Every step meets a condition in every state it can be taken from. -/
def Meets (step : S → Op → S → Prop) (fits : S → Op → Prop) (s : S) (ops : List Op) : Prop :=
  ∀ before op, before ++ [op] <+: ops → ∀ t, Run step s before t → fits t op

theorem always_iff_meets {step : S → Op → S → Prop} {holds : S → Prop} {fits : S → Op → Prop}
    (exact : ∀ s op, holds s → ((∀ t, step s op t → holds t) ↔ fits s op)) {s : S} (start : holds s) (ops : List Op) :
    Always step holds s ops ↔ Meets step fits s ops := by
  constructor
  · intro always before op inside t reached
    have here : holds t := always before ((List.prefix_append _ _).trans inside) t reached
    refine (exact t op here).mp fun u taken => ?_
    exact always _ inside u (run_snoc.mpr ⟨t,reached,taken⟩)
  · intro meets before inside
    induction before using List.reverseRecOn with
    | nil =>
      rintro t rfl
      exact start
    | append_singleton earlier op ih =>
      intro u reached
      obtain ⟨t,before,taken⟩ := run_snoc.mp reached
      have here : holds t := ih ((List.prefix_append _ _).trans inside) t before
      exact (exact t op here).mpr (meets earlier op inside t before) u taken

theorem meets_cons {step : S → Op → S → Prop} {fits : S → Op → Prop} {s : S} {op : Op} {ops : List Op} :
    Meets step fits s (op :: ops) ↔ fits s op ∧ ∀ u, step s op u → Meets step fits u ops := by
  constructor
  · intro meets
    refine ⟨meets [] op (by simp) s rfl,fun u taken before next inside t reached => ?_⟩
    exact meets (op :: before) next ((List.prefix_cons_inj op).mpr inside) t ⟨u,taken,reached⟩
  · rintro ⟨here,later⟩ before next inside t reached
    cases before with
    | nil =>
      obtain rfl : t = s := reached
      obtain ⟨rfl,-⟩ := List.cons_prefix_cons.mp inside
      exact here
    | cons first before =>
      obtain ⟨rfl,inside'⟩ := List.cons_prefix_cons.mp inside
      obtain ⟨u,taken,reached'⟩ := reached
      exact later u taken before next inside' t reached'

theorem run_iff_meets {step : S → Op → S → Prop} {inv : S → Prop} {fits : S → Op → Prop}
    (single : ∀ s op t u, step s op t → step s op u → t = u) (exact : ∀ s op, inv s → ((∃ t, step s op t) ↔ fits s op))
    (keeps : ∀ s op t, inv s → step s op t → inv t) {s : S} (start : inv s) (ops : List Op) :
    (∃ t, Run step s ops t) ↔ Meets step fits s ops := by
  induction ops generalizing s with
  | nil =>
    refine ⟨fun _ before op inside => ?_,fun _ => ⟨s,rfl⟩⟩
    simp at inside
  | cons op ops ih =>
    rw [meets_cons,← exact s op start]
    constructor
    · rintro ⟨t,u,taken,rest⟩
      refine ⟨⟨u,taken⟩,fun u' taken' => ?_⟩
      obtain rfl := single s op u u' taken taken'
      exact (ih (keeps s op u start taken)).mp ⟨t,rest⟩
    · rintro ⟨⟨u,taken⟩,later⟩
      obtain ⟨t,rest⟩ := (ih (keeps s op u start taken)).mpr (later u taken)
      exact ⟨t,u,taken,rest⟩

section
variable {T O : Type*}

def answers (step : T → Op → O × T) : T → List Op → List O
  | _,[] => []
  | t,op :: ops => (step t op).1 :: answers step (step t op).2 ops

def attempts (step : S → Op → Option (O × S)) : S → List Op → Option (List O)
  | _,[] => some []
  | s,op :: ops => (step s op).bind fun result => (attempts step result.2 ops).map (result.1 :: ·)

variable {step : S → Op → Option (O × S)} {model : T → Op → O × T} {valid fits : Op → Prop}

theorem attempts_eq (rel : S → T → Prop) (refines : ∀ s t op, rel s t → valid op → fits op → ∃ s', step s op = some ((model t op).1,s') ∧ rel s' (model t op).2)
    {s : S} {t : T} (start : rel s t) {ops : List Op} (allowed : ∀ op ∈ ops, valid op) (holds : ∀ op ∈ ops, fits op) :
    attempts step s ops = some (answers model t ops) := by
  induction ops generalizing s t with
  | nil => rfl
  | cons op ops ih =>
    obtain ⟨s',eq,related⟩ := refines s t op start (allowed op List.mem_cons_self) (holds op List.mem_cons_self)
    rw [attempts,eq,Option.bind_some,answers,
      ih related (fun o member => allowed o (List.mem_cons_of_mem op member)) fun o member => holds o (List.mem_cons_of_mem op member)]
    rfl

theorem attempts_eq_iff (rel : S → T → Prop) (refines : ∀ s t op, rel s t → valid op → fits op → ∃ s', step s op = some ((model t op).1,s') ∧ rel s' (model t op).2)
    (fails : ∀ s t op, rel s t → valid op → ¬fits op → step s op = none) {s : S} {t : T} (start : rel s t) {ops : List Op}
    (allowed : ∀ op ∈ ops, valid op) : attempts step s ops = some (answers model t ops) ↔ ∀ op ∈ ops, fits op := by
  refine ⟨?_,attempts_eq rel refines start allowed⟩
  induction ops generalizing s t with
  | nil =>
    intro _ op member
    exact absurd member List.not_mem_nil
  | cons op ops ih =>
    intro same
    have valid := allowed op List.mem_cons_self
    by_cases fit : fits op
    · obtain ⟨s',eq,related⟩ := refines s t op start valid fit
      rw [attempts,eq,Option.bind_some,answers] at same
      obtain ⟨rest,same,eq'⟩ := Option.map_eq_some_iff.mp same
      obtain ⟨-,rfl⟩ := List.cons.inj eq'
      intro o member
      rcases List.mem_cons.mp member with rfl | later
      · exact fit
      · exact ih related (fun o member => allowed o (List.mem_cons_of_mem op member)) same o later
    · rw [attempts,fails s t op start valid fit] at same
      simp at same

end

section
variable {apply : S → Op → Option S} {s t : S} {op : Op} {ops : List Op}

def Along (apply : S → Op → Option S) (p : S → Op → Prop) : S → List Op → Prop
  | _,[] => True
  | s,op :: ops => p s op ∧ ∀ t, apply s op = some t → Along apply p t ops

def SafeAlong (apply : S → Op → Option S) (safe : S → Op → S → Prop) : S → List Op → Prop
  | _,[] => True
  | s,op :: ops => ∃ t, apply s op = some t ∧ safe s op t ∧ SafeAlong apply safe t ops

theorem Along.cons {p : S → Op → Prop} (applied : apply s op = some t) (holds : p s op) (rest : Along apply p t ops) :
    Along apply p s (op :: ops) := by
  refine ⟨holds,?_⟩
  intro u applied'
  obtain rfl : t = u := Option.some.inj (applied.symm.trans applied')
  exact rest

theorem SafeAlong.tail {safe : S → Op → S → Prop} (applied : apply s op = some t) (run : SafeAlong apply safe s (op :: ops)) :
    SafeAlong apply safe t ops := by
  obtain ⟨u,applied',-,rest⟩ := run
  obtain rfl : t = u := Option.some.inj (applied.symm.trans applied')
  exact rest

section
variable {inv : S → Prop} {valid exact : S → Op → Prop} {safe : S → Op → S → Prop}

/-- Operations that are safe under a condition, under which they keep an invariant, are safe along a run in which
    each one meets its condition. -/
theorem safeAlong_of_along
    (enough : ∀ s op, inv s → valid s op → exact s op → ∃ t, apply s op = some t ∧ safe s op t ∧ inv t)
    (start : inv s) (allowed : Along apply valid s ops) (holds : Along apply exact s ops) : SafeAlong apply safe s ops := by
  induction ops generalizing s with
  | nil => trivial
  | cons op ops ih =>
    obtain ⟨t,applied,isSafe,invT⟩ := enough s op start allowed.1 holds.1
    exact ⟨t,applied,isSafe,ih invT (allowed.2 t applied) (holds.2 t applied)⟩

/-- The invariant holds in the state in which such a run ends. -/
theorem inv_of_run (keeps : ∀ s op, inv s → valid s op → exact s op → ∃ t, apply s op = some t ∧ inv t)
    (start : inv s) (allowed : Along apply valid s ops) (holds : Along apply exact s ops) (ran : ops.foldlM apply s = some t) :
    inv t := by
  induction ops generalizing s with
  | nil =>
    obtain rfl := Option.some.inj ran
    exact start
  | cons op ops ih =>
    obtain ⟨u,applied,invU⟩ := keeps s op start allowed.1 holds.1
    rw [List.foldlM_cons,applied] at ran
    exact ih invU (allowed.2 u applied) (holds.2 u applied) ran

theorem safeAlong_iff_along
    (enough : ∀ s op, inv s → valid s op → exact s op → ∃ t, apply s op = some t ∧ safe s op t ∧ inv t)
    (only : ∀ s op t, inv s → valid s op → apply s op = some t → safe s op t → exact s op)
    (start : inv s) (allowed : Along apply valid s ops) : SafeAlong apply safe s ops ↔ Along apply exact s ops := by
  refine ⟨?_,safeAlong_of_along enough start allowed⟩
  induction ops generalizing s with
  | nil => exact fun _ => trivial
  | cons op ops ih =>
    rintro ⟨t,applied,isSafe,rest⟩
    have holds := only s op t start allowed.1 applied isSafe
    obtain ⟨u,applied',-,invU⟩ := enough s op start allowed.1 holds
    obtain rfl : t = u := Option.some.inj (applied.symm.trans applied')
    exact .cons applied holds (ih invU (allowed.2 t applied) rest)

end

end

end Otawa.Runs
