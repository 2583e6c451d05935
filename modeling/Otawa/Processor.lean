import Otawa.FeatureDeps
import Otawa.Outcomes

/-!
The execution of a code processor (`Processor::process`). Features that the
processor invalidates and does not use are invalidated first; the features that
it uses are required, which may execute other processors; the others that it
invalidates are invalidated after its work, before the features that it provides
are recorded with the ones that it required. Invalidation is transitive, so that
the last one may remove a feature that is required and not invalidated itself.
-/
namespace Otawa.Processor

open Feature Outcomes

/-! ### Processors and sessions -/

/-- The kinds of `FeatureUsage`. -/
inductive Kind
  | none
  | require
  | provide
  | invalidate
  | use
  deriving DecidableEq

structure FeatureUsage (F : Type) where
  kind : Kind
  feature : F

/-- `AbstractRegistration`, with its base if it is not the first one. -/
inductive Registration (F : Type)
  | root (features : List (FeatureUsage F))
  | derived (features : List (FeatureUsage F)) (base : Registration F)

/-- What `FeatureIter` goes through. -/
def Registration.features {F : Type} : Registration F → List (FeatureUsage F)
  | .root features => features
  | .derived features base => features ++ base.features

/-- The exceptions: `ProcessorException`, which `UnavailableFeatureException` is, `NoProcessorException` and the others. -/
inductive Thrown
  | processor
  | noProcessor
  | other
  deriving DecidableEq

structure Session (F : Type) where
  commands : List (Command F)
  ws : WorkSpace F

/-- What the work of a processor does with the features, in the end by an exception or not. -/
structure Work (F : Type) where
  commands : List (Command F)
  once : ∀ command ∈ commands, command.Once
  thrown : Option Thrown

/-- The processors: what they register, the one that a feature makes, what their work does; and when the workspace is cancelled. -/
structure System (F P : Type) where
  reg : P → Registration F
  make : F → P
  work : P → Session F → Work F
  isCancelled : Session F → Bool

section
variable {F P : Type} [DecidableEq F]

namespace Registration
variable (reg : Registration F)

def requires (feature : F) : Bool := reg.features.any fun fuse => fuse.feature = feature && fuse.kind = .require

def uses (feature : F) : Bool := reg.features.any fun fuse => fuse.feature = feature && (fuse.kind = .require || fuse.kind = .use)

def invalidates (feature : F) : Bool := reg.features.any fun fuse => fuse.feature = feature && fuse.kind = .invalidate

def unused (usage : FeatureUsage F) : Bool := usage.kind = .invalidate && !reg.uses usage.feature

def used (usage : FeatureUsage F) : Bool := usage.kind = .invalidate && reg.uses usage.feature

def required : List F :=
  reg.features.foldl (fun required fuse => if fuse.kind = .require ∧ fuse.feature ∉ required then required ++ [fuse.feature] else required) []

def remove (invalidated : FeatureUsage F → Bool) (required : List F) : List F :=
  reg.features.foldl (fun required usage => if invalidated usage then required.erase usage.feature else required) required

/-- The list with which features are provided. -/
def remaining : List F := reg.remove reg.used (reg.remove reg.unused reg.required)

end Registration

def Session.exec (command : Command F) (s : Session F) : Outcome (Session F) Thrown :=
  match s.ws.step command with
  | some ws => .returned ⟨s.commands ++ [command],ws⟩
  | none => .failed

def invalidateAll (invalidated : FeatureUsage F → Bool) : List (FeatureUsage F) → Session F → Outcome (Session F) Thrown :=
  each fun usage s => if invalidated usage then s.exec (.invalidate usage.feature) else .returned s

def provideAll (required : List F) : List (FeatureUsage F) → Session F → Outcome (Session F) Thrown :=
  each fun usage s => if usage.kind = .provide then s.exec (.provide usage.feature required) else .returned s

namespace System
variable (S : System F P)

/-- `require`, given how processors are executed. -/
def require (process : P → Session F → Outcome (Session F) Thrown) (feature : F) (s : Session F) : Outcome (Session F) Thrown :=
  if s.ws.isProvided feature then .returned s else process (S.make feature) s

/-- The body of the loop on the used features; `NoProcessorException` is caught. -/
def getUsed (process : P → Session F → Outcome (Session F) Thrown) (usage : FeatureUsage F) (s : Session F) : Outcome (Session F) Thrown :=
  if !S.isCancelled s && (usage.kind = .require || usage.kind = .use) then
    match S.require process usage.feature s with
    | .thrown .noProcessor s => .thrown .processor s
    | outcome => outcome
  else
    .returned s

def before (process : P → Session F → Outcome (Session F) Thrown) (p : P) (s : Session F) : Outcome (Session F) Thrown :=
  let reg := S.reg p
  (invalidateAll reg.unused reg.features s).andThen (each (S.getUsed process) reg.features)

def checked (p : P) (s : Session F) : Bool :=
  (S.reg p).features.all fun usage => !(usage.kind = .require || usage.kind = .use) || s.ws.isProvided usage.feature

def processWorkSpace (p : P) (s : Session F) : Outcome (Session F) Thrown :=
  let work := S.work p s
  (each Session.exec work.commands s).andThen fun s =>
    match work.thrown with
    | some e => .thrown e s
    | none => .returned s

def after (p : P) (s : Session F) : Outcome (Session F) Thrown :=
  let reg := S.reg p
  (invalidateAll reg.used reg.features s).andThen (provideAll reg.remaining reg.features)

/-- `process`, with a bound on the processors that are executed for the features of one another. -/
def process : Nat → P → Session F → Outcome (Session F) Thrown
  | 0,_,_ => .endless
  | depth + 1,p,s =>
    (S.before (process depth) p s).andThen fun s =>
      if S.isCancelled s then
        .returned s
      else if S.checked p s then
        (S.processWorkSpace p s).andThen (S.after p)
      else
        .thrown .other s

end System

open Relation

/-- What a provided feature was provided from is provided. -/
def Closed (d : Deps F) : Prop := ∀ f g, d.Needs f g → (d g).isSome

section
variable {d : Deps F} {f g : F}

omit [DecidableEq F] in
theorem invalidate_lost (lost : (d g).isSome ∧ ReflTransGen d.Needs f g) : d.invalidate g f = none := if_pos lost

omit [DecidableEq F] in
theorem invalidate_kept (kept : ¬((d g).isSome ∧ ReflTransGen d.Needs f g)) : d.invalidate g f = d f := if_neg kept

omit [DecidableEq F] in
theorem needs_invalidate {h : F} : (d.invalidate g).Needs f h ↔ d.Needs f h ∧ ¬((d g).isSome ∧ ReflTransGen d.Needs f g) := by
  by_cases lost : (d g).isSome ∧ ReflTransGen d.Needs f g
  · refine iff_of_false ?_ fun both => both.2 lost
    rintro ⟨required,provided,-⟩
    rw [invalidate_lost lost] at provided
    exact absurd provided nofun
  · constructor
    · rintro ⟨required,provided,member⟩
      exact ⟨⟨required,(invalidate_kept lost).symm.trans provided,member⟩,lost⟩
    · rintro ⟨⟨required,provided,member⟩,-⟩
      exact ⟨required,(invalidate_kept lost).trans provided,member⟩

omit [DecidableEq F] in
theorem isSome_of_reaches (closed : Closed d) (provided : (d f).isSome) (reaches : ReflTransGen d.Needs f g) : (d g).isSome := by
  cases reaches with
  | refl => exact provided
  | tail _ last => exact closed _ _ last

omit [DecidableEq F] in
theorem isSome_invalidate (closed : Closed d) : (d.invalidate g f).isSome ↔ (d f).isSome ∧ ¬ReflTransGen d.Needs f g := by
  by_cases lost : (d g).isSome ∧ ReflTransGen d.Needs f g
  · rw [invalidate_lost lost]
    exact iff_of_false nofun fun both => both.2 lost.2
  · rw [invalidate_kept lost]
    exact ⟨fun provided => ⟨provided,fun reaches => lost ⟨isSome_of_reaches closed provided reaches,reaches⟩⟩,And.left⟩

omit [DecidableEq F] in
theorem reaches_invalidate {h : F} (free : ¬ReflTransGen d.Needs f g) : ReflTransGen (d.invalidate g).Needs f h ↔ ReflTransGen d.Needs f h := by
  constructor
  · exact fun path => path.lift id fun _ _ link => (needs_invalidate.mp link).1
  · intro path
    induction path with
    | refl => exact .refl
    | tail path link ih => exact ih.tail (needs_invalidate.mpr ⟨link,fun lost => free (path.trans lost.2)⟩)

omit [DecidableEq F] in
theorem closed_invalidate (closed : Closed d) : Closed (d.invalidate g) := by
  intro f h link
  obtain ⟨link,kept⟩ := needs_invalidate.mp link
  refine (isSome_invalidate closed).mpr ⟨closed f h link,fun reaches => kept ⟨?_,.head link reaches⟩⟩
  exact isSome_of_reaches closed (closed f h link) reaches

omit [DecidableEq F] in
theorem isSome_invalidateAll (closed : Closed d) (gone : List F) :
    (gone.foldl Deps.invalidate d f).isSome ↔ (d f).isSome ∧ ∀ g ∈ gone, ¬ReflTransGen d.Needs f g := by
  induction gone generalizing d with
  | nil => simp
  | cons g gone ih =>
    rw [List.foldl_cons,ih (closed_invalidate closed),isSome_invalidate closed,List.forall_mem_cons,and_assoc]
    refine and_congr_right fun _ => and_congr_right fun free => ?_
    refine forall_congr' fun h => imp_congr_right fun _ => ?_
    rw [reaches_invalidate free]

end

section
variable {ws after : WorkSpace F} {f : F}

omit [DecidableEq F] in
theorem addRequired_some {pdep : Nat} {r : F} (added : WorkSpace.addRequired pdep ws r = some after) :
    (ws.featMap r).isSome ∧ after.featMap = ws.featMap := by
  simp only [WorkSpace.addRequired,WorkSpace.add,WorkSpace.modify,Option.bind_eq_bind,Option.bind_eq_some_iff,Option.map_eq_some_iff] at added
  obtain ⟨parent,mapped,_,⟨_,-,rfl⟩,⟨_,-,rfl⟩⟩ := added
  exact ⟨by rw [mapped]; rfl,rfl⟩

omit [DecidableEq F] in
theorem addAll_some {pdep : Nat} {required : List F} (added : required.foldlM (WorkSpace.addRequired pdep) ws = some after) :
    ∀ r ∈ required, (ws.featMap r).isSome := by
  induction required generalizing ws with
  | nil => exact fun r member => absurd member List.not_mem_nil
  | cons r rest ih =>
    rw [List.foldlM_cons] at added
    obtain ⟨next,here,later⟩ := Option.bind_eq_some_iff.mp added
    obtain ⟨mapped,same⟩ := addRequired_some here
    intro r' member
    rcases List.mem_cons.mp member with rfl | member
    · exact mapped
    · exact same ▸ ih later r' member

theorem asserted_of_step (linked : ws.Linked) {command : Command F} (stepped : ws.step command = some after) : ws.deps.Asserted command := by
  cases command with
  | invalidate f => trivial
  | provide f required =>
    simp only [Deps.Asserted,WorkSpace.isSome_deps linked]
    by_cases provided : ws.isProvided f
    · exact .inl provided
    · refine .inr ?_
      have absent : ws.featMap f = none := by simpa [WorkSpace.isProvided] using provided
      simp only [WorkSpace.step,WorkSpace.provide,if_neg provided,WorkSpace.newFeatDep,if_pos absent,Option.bind_eq_bind,Option.bind_some,
        Function.update_self] at stepped
      split at stepped
      next => cases stepped
      next other =>
        refine ⟨fun r member => ?_,other⟩
        have mapped := addAll_some stepped r member
        have differs : r ≠ f := fun same => other (same ▸ member)
        simpa [WorkSpace.isProvided,Function.update_of_ne differs] using mapped

theorem step_some (linked : ws.Linked) {command : Command F} (once : command.Once) (stepped : ws.step command = some after) :
    after.Linked ∧ after.deps = ws.deps.step command := by
  obtain ⟨after',eq,linked',deps⟩ := step_spec linked (asserted_of_step linked stepped) once
  obtain rfl := Option.some.inj (stepped.symm.trans eq)
  exact ⟨linked',deps⟩

theorem run_some (linked : ws.Linked) {commands : List (Command F)} (once : ∀ command ∈ commands, command.Once)
    (ran : commands.foldlM WorkSpace.step ws = some after) : after.Linked := by
  induction commands generalizing ws with
  | nil =>
    obtain rfl := Option.some.inj ran
    exact linked
  | cons command rest ih =>
    rw [List.foldlM_cons] at ran
    obtain ⟨next,stepped,later⟩ := Option.bind_eq_some_iff.mp ran
    exact ih (step_some linked (once command List.mem_cons_self) stepped).1 (fun c member => once c (List.mem_cons_of_mem command member)) later

end

/-! ### Sessions -/

namespace Session

/-- The workspace is the one that its commands make. -/
structure Real (s : Session F) : Prop where
  once : ∀ command ∈ s.commands, command.Once
  ran : WorkSpace.run s.commands = some s.ws

def Later (s t : Session F) : Prop := t.Real ∧ s.commands <+: t.commands

variable {s t u : Session F} {command : Command F} {f : F}

theorem Real.linked (real : s.Real) : s.ws.Linked := run_some WorkSpace.linked_empty real.once real.ran

theorem Real.closed (real : s.Real) : Closed s.ws.deps := fun _ _ => WorkSpace.needs_provided real.linked

theorem Real.isSome (real : s.Real) : (s.ws.deps f).isSome = s.ws.isProvided f := WorkSpace.isSome_deps real.linked

theorem Later.refl (real : s.Real) : Later s s := ⟨real,List.prefix_refl _⟩

theorem Later.trans (s t u : Session F) (first : Later s t) (second : Later t u) : Later s u := ⟨second.1,first.2.trans second.2⟩

theorem Real.snoc (real : s.Real) (once : command.Once) {ws : WorkSpace F} (stepped : s.ws.step command = some ws) :
    Real ⟨s.commands ++ [command],ws⟩ ∧ ws.deps = s.ws.deps.step command := by
  refine ⟨⟨?_,?_⟩,(step_some real.linked once stepped).2⟩
  · intro c member
    rcases List.mem_append.mp member with old | new
    · exact real.once c old
    · rwa [List.mem_singleton.mp new]
  · have ran := real.ran
    rw [WorkSpace.run] at ran ⊢
    rw [List.foldlM_append,ran]
    simpa using stepped

theorem exec_eq_returned : s.exec command = .returned t ↔ ∃ ws, s.ws.step command = some ws ∧ t = ⟨s.commands ++ [command],ws⟩ := by
  rw [exec]
  cases s.ws.step command <;> simp [eq_comm]

theorem exec_ends (real : s.Real) (once : command.Once) : (s.exec command).Ends (Later s) := by
  rw [exec]
  cases stepped : s.ws.step command with
  | none => trivial
  | some ws => exact ⟨(real.snoc once stepped).1,List.prefix_append _ _⟩

theorem exec_returns (real : s.Real) (once : command.Once) (asserted : s.ws.deps.Asserted command) :
    ∃ t, s.exec command = .returned t ∧ t.Real ∧ t.commands = s.commands ++ [command] ∧ t.ws.deps = s.ws.deps.step command := by
  obtain ⟨ws,stepped,-,-⟩ := step_spec real.linked asserted once
  obtain ⟨real',deps⟩ := real.snoc once stepped
  exact ⟨_,exec_eq_returned.mpr ⟨ws,stepped,rfl⟩,real',rfl,deps⟩

theorem Later.induction {motive : Session F → Prop} (later : Later s t) (real : s.Real) (last : motive t)
    (step : ∀ (u v : Session F) command, u.Real → v.Real → s.commands <+: u.commands → v.commands = u.commands ++ [command] → v.commands <+: t.commands →
      v.ws.deps = u.ws.deps.step command → motive v → motive u) : motive s := by
  obtain ⟨real',more,eq⟩ := later
  -- induction on what is left to do, from any session in between
  have from_ (rest : List (Command F)) : ∀ u : Session F, u.Real → s.commands <+: u.commands → u.commands ++ rest = t.commands → motive u := by
    induction rest with
    | nil =>
      intro u realU _ eq
      rw [List.append_nil] at eq
      have same : u = t := by
        have ran := realU.ran
        rw [eq,real'.ran] at ran
        cases u
        cases t
        cases eq
        cases ran
        rfl
      exact same ▸ last
    | cons command rest ih =>
      intro u realU after eq
      have ran := real'.ran
      rw [← eq,WorkSpace.run,List.foldlM_append] at ran
      obtain ⟨ws,here,ran⟩ := Option.bind_eq_some_iff.mp ran
      obtain rfl : u.ws = ws := Option.some.inj (realU.ran.symm.trans here)
      rw [List.foldlM_cons] at ran
      obtain ⟨next,stepped,-⟩ := Option.bind_eq_some_iff.mp ran
      have once : command.Once := real'.once command (by rw [← eq]; simp)
      obtain ⟨realV,deps⟩ := realU.snoc once stepped
      have eq' : (u.commands ++ [command]) ++ rest = t.commands := by rw [← eq]; simp
      exact step u _ command realU realV after rfl ⟨rest,eq'⟩ deps
        (ih _ realV (after.trans (List.prefix_append _ _)) eq')
  exact from_ more s real (List.prefix_refl _) eq

/-- The feature is removed by an invalidation after some commands, being the invalidated one or depending on it. -/
def Lost (before commands : List (Command F)) (f : F) : Prop :=
  ∃ u : Session F, u.Real ∧ before <+: u.commands ∧ ∃ g, u.commands ++ [.invalidate g] <+: commands ∧ u.ws.isProvided f ∧ ReflTransGen u.ws.deps.Needs f g

theorem Later.lost (later : Later s t) (real : s.Real) (provided : s.ws.isProvided f) (missing : ¬t.ws.isProvided f) : Lost s.commands t.commands f := by
  refine later.induction (motive := fun u => u.ws.isProvided f → Lost s.commands t.commands f) real (fun provided => absurd provided missing) ?_ provided
  intro u v command realU realV after eq within deps ih provided
  by_cases kept : v.ws.isProvided f
  · exact ih kept
  · rw [← realU.isSome] at provided
    rw [← realV.isSome,deps] at kept
    cases command with
    | provide g required =>
      refine absurd ?_ kept
      simp only [Deps.step,Deps.provide]
      split
      · exact provided
      · by_cases same : f = g
        · rw [same,Function.update_self]
          rfl
        · rwa [Function.update_of_ne same]
    | invalidate g =>
      rw [Deps.step,isSome_invalidate realU.closed] at kept
      refine ⟨u,realU,after,g,eq ▸ within,realU.isSome ▸ provided,?_⟩
      by_contra free
      exact kept ⟨provided,free⟩

def Gained (before commands : List (Command F)) (f : F) : Prop :=
  ∃ earlier required, before <+: earlier ∧ earlier ++ [.provide f required] <+: commands

theorem Later.gained (later : Later s t) (real : s.Real) (missing : ¬s.ws.isProvided f) (provided : t.ws.isProvided f) :
    Gained s.commands t.commands f := by
  refine later.induction (motive := fun u => ¬u.ws.isProvided f → Gained s.commands t.commands f) real (fun missing => absurd provided missing) ?_ missing
  intro u v command realU realV after eq within deps ih missing
  by_cases came : v.ws.isProvided f
  · rw [← realU.isSome] at missing
    rw [← realV.isSome,deps] at came
    cases command with
    | provide g required =>
      by_cases same : f = g
      · exact ⟨u.commands,required,after,by rw [same]; exact eq ▸ within⟩
      · refine absurd ?_ missing
        simp only [Deps.step,Deps.provide] at came
        split at came
        · exact came
        · rwa [Function.update_of_ne same] at came
    | invalidate g =>
      rw [Deps.step,isSome_invalidate realU.closed] at came
      exact absurd came.1 missing
  · exact ih came

end Session

section
variable {s : Session F} {usages : List (FeatureUsage F)}

open Session

def gone (invalidated : FeatureUsage F → Bool) (usages : List (FeatureUsage F)) : List F := (usages.filter invalidated).map FeatureUsage.feature

theorem invalidateAll_returns (invalidated : FeatureUsage F → Bool) (real : s.Real) :
    ∃ t, invalidateAll invalidated usages s = .returned t ∧ t.Real ∧
      t.commands = s.commands ++ (gone invalidated usages).map Command.invalidate ∧
      t.ws.deps = (gone invalidated usages).foldl Deps.invalidate s.ws.deps := by
  have skips (usage : FeatureUsage F) (s : Session F) (kept : invalidated usage = false) :
      (if invalidated usage then s.exec (.invalidate usage.feature) else .returned s) = Outcome.returned s := by
    rw [kept]
    rfl
  have does (usage : FeatureUsage F) (s : Session F) (real : s.Real) (taken : invalidated usage = true) :
      ∃ t, (if invalidated usage then s.exec (.invalidate usage.feature) else .returned s) = .returned t ∧ t.Real ∧
        (t.commands,t.ws.deps) = ((s.commands,s.ws.deps).1 ++ [.invalidate usage.feature],(s.commands,s.ws.deps).2.invalidate usage.feature) := by
    obtain ⟨t,executed,real',commands,deps⟩ := @exec_returns F _ s (.invalidate usage.feature) real trivial trivial
    exact ⟨t,by rw [taken]; exact executed,real',by rw [commands,deps]; rfl⟩
  obtain ⟨t,done,real',view⟩ := each_returns (fun s : Session F => (s.commands,s.ws.deps))
    (fun view usage => (view.1 ++ [Command.invalidate usage.feature],view.2.invalidate usage.feature)) skips does real usages
  have split (taken : List (FeatureUsage F)) (commands : List (Command F)) (d : Deps F) :
      taken.foldl (fun view usage => (view.1 ++ [Command.invalidate usage.feature],view.2.invalidate usage.feature)) (commands,d) =
        (commands ++ (taken.map FeatureUsage.feature).map Command.invalidate,(taken.map FeatureUsage.feature).foldl Deps.invalidate d) := by
    induction taken generalizing commands d with
    | nil => simp
    | cons usage rest ih => simp [ih]
  rw [split] at view
  exact ⟨t,done,real',(Prod.ext_iff.mp view).1,(Prod.ext_iff.mp view).2⟩

theorem provideAll_returns {required : List F} (real : s.Real) (once : required.Nodup) (provided : ∀ f ∈ required, s.ws.isProvided f) :
    ∃ t, provideAll required usages s = .returned t := by
  have skips (usage : FeatureUsage F) (s : Session F) (other : decide (usage.kind = .provide) = false) :
      (if usage.kind = .provide then s.exec (.provide usage.feature required) else .returned s) = Outcome.returned s :=
    if_neg (of_decide_eq_false other)
  have does (usage : FeatureUsage F) (s : Session F) (inv : s.Real ∧ ∀ f ∈ required, s.ws.isProvided f) (taken : decide (usage.kind = .provide) = true) :
      ∃ t, (if usage.kind = .provide then s.exec (.provide usage.feature required) else .returned s) = .returned t ∧
        (t.Real ∧ ∀ f ∈ required, t.ws.isProvided f) ∧ () = () := by
    obtain ⟨real,provided⟩ := inv
    have asserted : s.ws.deps.Asserted (.provide usage.feature required) := by
      by_cases already : (s.ws.deps usage.feature).isSome
      · exact .inl already
      · refine .inr ⟨fun r member => by rw [real.isSome]; exact provided r member,fun member => already ?_⟩
        rw [real.isSome]
        exact provided _ member
    obtain ⟨t,executed,real',-,deps⟩ := @exec_returns F _ s (.provide usage.feature required) real once asserted
    refine ⟨t,by rw [if_pos (of_decide_eq_true taken)]; exact executed,⟨real',fun f member => ?_⟩,rfl⟩
    have before := provided f member
    rw [← real.isSome] at before
    rw [← real'.isSome,deps,Deps.step,Deps.provide]
    split
    · exact before
    · by_cases same : f = usage.feature
      · rw [same,Function.update_self]
        rfl
      · rwa [Function.update_of_ne same]
  obtain ⟨t,done,-⟩ := each_returns (fun _ => ()) (fun _ _ => ()) skips does ⟨real,provided⟩ usages
  exact ⟨t,done⟩

theorem provideAll_ends {required : List F} (real : s.Real) (once : required.Nodup) : (provideAll required usages s).Ends (Later s) := by
  refine ends_each Later.trans (fun s => Later.refl) (fun s t later => later.1) (fun usage s real => ?_) real usages
  split
  · exact exec_ends real once
  · exact Later.refl real

end

namespace Registration
variable (reg : Registration F) {f : F}

theorem requires_iff : reg.requires f = true ↔ ∃ fuse ∈ reg.features, fuse.kind = .require ∧ fuse.feature = f := by
  simp [requires,and_comm]

theorem invalidates_iff : reg.invalidates f = true ↔ ∃ fuse ∈ reg.features, fuse.kind = .invalidate ∧ fuse.feature = f := by
  simp [invalidates,and_comm]

theorem required_spec : reg.required.Nodup ∧ ∀ f, f ∈ reg.required ↔ reg.requires f := by
  have loop (usages : List (FeatureUsage F)) (required : List F) (once : required.Nodup) :
      (usages.foldl (fun required fuse => if fuse.kind = .require ∧ fuse.feature ∉ required then required ++ [fuse.feature] else required) required).Nodup ∧
        ∀ f, f ∈ usages.foldl (fun required fuse => if fuse.kind = .require ∧ fuse.feature ∉ required then required ++ [fuse.feature] else required) required ↔
          f ∈ required ∨ ∃ fuse ∈ usages, fuse.kind = .require ∧ fuse.feature = f := by
    induction usages generalizing required with
    | nil => simp [once]
    | cons fuse rest ih =>
      rw [List.foldl_cons]
      split
      next added =>
        obtain ⟨nodup,members⟩ := ih (required ++ [fuse.feature]) (List.nodup_append.mpr ⟨once,by simp,by rintro a inside b new rfl; exact added.2 (List.mem_singleton.mp new ▸ inside)⟩)
        refine ⟨nodup,fun f => ?_⟩
        rw [members]
        simp [added.1,or_assoc,eq_comm]
      next kept =>
        obtain ⟨nodup,members⟩ := ih required once
        refine ⟨nodup,fun f => ?_⟩
        rw [members,List.exists_mem_cons_iff]
        constructor
        · exact Or.imp_right .inr
        · rintro (inside | ⟨kind,rfl⟩ | later)
          · exact .inl inside
          · exact .inl (by_contra fun outside => kept ⟨kind,outside⟩)
          · exact .inr later
  obtain ⟨nodup,members⟩ := loop reg.features [] .nil
  exact ⟨nodup,fun f => (members f).trans (by rw [requires_iff]; simp)⟩

theorem remove_spec (invalidated : FeatureUsage F → Bool) {required : List F} (once : required.Nodup) :
    (reg.remove invalidated required).Nodup ∧ ∀ f, f ∈ reg.remove invalidated required ↔ f ∈ required ∧ f ∉ gone invalidated reg.features := by
  rw [remove]
  generalize reg.features = usages
  induction usages generalizing required with
  | nil => simp [once,gone]
  | cons usage rest ih =>
    rw [List.foldl_cons]
    cases taken : invalidated usage with
    | false =>
      obtain ⟨nodup,members⟩ := ih once
      exact ⟨nodup,fun f => by rw [gone,List.filter_cons_of_neg (by simp [taken])]; exact members f⟩
    | true =>
      obtain ⟨nodup,members⟩ := ih (once.erase usage.feature)
      refine ⟨nodup,fun f => ?_⟩
      rw [gone,List.filter_cons_of_pos taken,List.map_cons,List.mem_cons,not_or,← and_assoc]
      exact (members f).trans (and_congr_left fun _ => by rw [once.mem_erase_iff,and_comm])

theorem remaining_spec : reg.remaining.Nodup ∧ ∀ f, f ∈ reg.remaining ↔ reg.requires f ∧ ¬reg.invalidates f := by
  obtain ⟨once,members⟩ := reg.required_spec
  obtain ⟨once1,members1⟩ := reg.remove_spec reg.unused once
  obtain ⟨once2,members2⟩ := reg.remove_spec reg.used once1
  refine ⟨once2,fun f => ?_⟩
  rw [remaining,members2,members1,members,and_assoc]
  refine and_congr_right fun _ => ?_
  rw [← not_or,not_iff_not,invalidates_iff]
  simp only [gone,List.mem_map,List.mem_filter,unused,used,Bool.and_eq_true,decide_eq_true_eq,Bool.not_eq_true']
  constructor
  · rintro (⟨usage,⟨member,kind,-⟩,rfl⟩ | ⟨usage,⟨member,kind,-⟩,rfl⟩)
    · exact ⟨usage,member,kind,rfl⟩
    · exact ⟨usage,member,kind,rfl⟩
  · rintro ⟨usage,member,kind,rfl⟩
    cases use : reg.uses usage.feature with
    | false => exact .inl ⟨usage,⟨member,kind,use⟩,rfl⟩
    | true => exact .inr ⟨usage,⟨member,kind,use⟩,rfl⟩

end Registration

/-! ### Processors -/

namespace System

open Session

variable {S : System F P} {depth : Nat} {p : P} {s : Session F}

theorem invalidateAll_ends {invalidated : FeatureUsage F → Bool} {usages : List (FeatureUsage F)} (real : s.Real) :
    (invalidateAll invalidated usages s).Ends (Later s) := by
  obtain ⟨t,done,real',commands,-⟩ := @invalidateAll_returns F _ s usages invalidated real
  rw [done]
  exact ⟨real',by rw [commands]; exact List.prefix_append _ _⟩

theorem getUsed_ends {process : P → Session F → Outcome (Session F) Thrown} (keeps : ∀ p s, s.Real → (process p s).Ends (Later s))
    {usage : FeatureUsage F} (real : s.Real) : (S.getUsed process usage s).Ends (Later s) := by
  have required : (S.require process usage.feature s).Ends (Later s) := by
    rw [require]
    split
    · exact Later.refl real
    · exact keeps _ s real
  rw [getUsed]
  split
  · split
    next eq =>
      rw [eq] at required
      exact required
    next => exact required
  · exact Later.refl real

theorem before_ends {process : P → Session F → Outcome (Session F) Thrown} (keeps : ∀ p s, s.Real → (process p s).Ends (Later s)) (real : s.Real) :
    (S.before process p s).Ends (Later s) := by
  refine Outcome.Ends.andThen Later.trans (invalidateAll_ends real) fun t later => ?_
  exact ends_each Later.trans (fun s => Later.refl) (fun s t later => later.1) (fun usage s real => getUsed_ends keeps real) later.1 _

theorem work_ends (real : s.Real) {commands : List (Command F)} (once : ∀ command ∈ commands, command.Once) :
    (each Session.exec commands s).Ends (Later s) := by
  induction commands generalizing s with
  | nil => exact Later.refl real
  | cons command rest ih =>
    refine Outcome.Ends.andThen Later.trans (exec_ends real (once command List.mem_cons_self)) fun t later => ?_
    exact ih later.1 fun c member => once c (List.mem_cons_of_mem command member)

theorem processWorkSpace_ends (real : s.Real) : (S.processWorkSpace p s).Ends (Later s) := by
  refine Outcome.Ends.andThen Later.trans (work_ends real (S.work p s).once) fun t later => ?_
  cases (S.work p s).thrown with
  | none => exact Later.refl later.1
  | some e => exact Later.refl later.1

theorem process_ends (depth : Nat) (p : P) (s : Session F) (real : s.Real) : (S.process depth p s).Ends (Later s) := by
  induction depth generalizing p s with
  | zero => trivial
  | succ depth ih =>
    refine Outcome.Ends.andThen Later.trans (before_ends ih real) fun begun later => ?_
    have here := later.1
    split
    · exact Later.refl here
    split
    · refine Outcome.Ends.andThen Later.trans (processWorkSpace_ends here) fun ended later => ?_
      refine Outcome.Ends.andThen Later.trans (invalidateAll_ends later.1) fun last later => ?_
      exact provideAll_ends later.1 (S.reg p).remaining_spec.1
    · exact Later.refl here

variable (S depth p s)

structure Begins (begun : Session F) : Prop where
  before : S.before (S.process depth) p s = .returned begun
  running : S.isCancelled begun = false
  checked : S.checked p begun = true

variable {S depth p s}

theorem Begins.process_eq {begun : Session F} (begins : S.Begins depth p s begun) :
    S.process (depth + 1) p s = (S.processWorkSpace p begun).andThen (S.after p) := by
  rw [process,begins.before,Outcome.andThen_returned,begins.running,begins.checked]
  rfl

end System

/-- The required features that the processor does not invalidate itself are provided, and they depend on none of the
    features that it uses and invalidates. -/
def Kept (reg : Registration F) (ws : WorkSpace F) : Prop :=
  ∀ f, reg.requires f → ¬reg.invalidates f → ws.isProvided f ∧ ∀ g, reg.uses g → reg.invalidates g → ¬ReflTransGen ws.deps.Needs f g

namespace System

open Session

variable {S : System F P} {depth : Nat} {p : P} {s : Session F}

/-- What is required is still provided after the last invalidations exactly when it depends on none of them. -/
theorem kept_iff {ended last : Session F} {reg : Registration F} (real : ended.Real) (real' : last.Real)
    (deps : last.ws.deps = (gone reg.used reg.features).foldl Deps.invalidate ended.ws.deps) :
    (∀ f ∈ reg.remaining, last.ws.isProvided f) ↔ Kept reg ended.ws := by
  have invalidated (g : F) : g ∈ gone reg.used reg.features ↔ reg.uses g ∧ reg.invalidates g := by
    simp only [gone,List.mem_map,List.mem_filter,Registration.used,Bool.and_eq_true,decide_eq_true_eq,Registration.invalidates_iff]
    constructor
    · rintro ⟨usage,⟨member,kind,use⟩,rfl⟩
      exact ⟨use,usage,member,kind,rfl⟩
    · rintro ⟨use,usage,member,kind,rfl⟩
      exact ⟨usage,⟨member,kind,use⟩,rfl⟩
  rw [Kept]
  refine forall_congr' fun f => ?_
  rw [reg.remaining_spec.2,and_imp]
  refine imp_congr_right fun _ => imp_congr_right fun _ => ?_
  rw [← real'.isSome,deps,isSome_invalidateAll real.closed,real.isSome]
  refine and_congr_right fun _ => forall_congr' fun g => ?_
  rw [invalidated,and_imp]

theorem processWorkSpace_thrown {begun thrown : Session F} {e : Thrown} (threw : S.processWorkSpace p begun = .thrown e thrown)
    (silent : (S.work p begun).commands = []) : thrown = begun := by
  simp only [processWorkSpace,silent,each,Outcome.andThen_returned] at threw
  cases ends : (S.work p begun).thrown with
  | none => simp [ends] at threw
  | some e' =>
    simp only [ends,Outcome.thrown.injEq] at threw
    exact threw.2.symm

/-- When the work of a processor has returned, the features that are still in its list of required ones are provided, and
    the processor returns, exactly when the required features depend on nothing that is invalidated then. When the work
    throws, the processor has only invalidated before it; the other changes are the ones of the processors that make the
    used features, and of the work itself. -/
theorem process_right (S : System F P) (depth : Nat) (p : P) (s begun : Session F) (real : s.Real) (begins : S.Begins depth p s begun) :
    (∀ ended, S.processWorkSpace p begun = .returned ended →
      ∃ last, invalidateAll (S.reg p).used (S.reg p).features ended = .returned last ∧
        ((∀ f ∈ (S.reg p).remaining, last.ws.isProvided f) ∧ (∃ final, S.process (depth + 1) p s = .returned final) ↔ Kept (S.reg p) ended.ws)) ∧
    ∀ e thrown, S.processWorkSpace p begun = .thrown e thrown → S.process (depth + 1) p s = .thrown e thrown ∧
      ((S.work p begun).commands = [] → thrown = begun) ∧
      ∃ first, first.commands = s.commands ++ (gone (S.reg p).unused (S.reg p).features).map Command.invalidate ∧
        each (S.getUsed (S.process depth)) (S.reg p).features first = .returned begun ∧
        (∀ f, s.ws.isProvided f → ¬thrown.ws.isProvided f → Lost s.commands begun.commands f ∨ Lost begun.commands thrown.commands f) ∧
        ∀ f, ¬s.ws.isProvided f → thrown.ws.isProvided f → Gained first.commands begun.commands f ∨ Gained begun.commands thrown.commands f := by
  have later : Later s begun := by
    have ends : (S.before (S.process depth) p s).Ends (Later s) := before_ends (process_ends depth) real
    rwa [begins.before] at ends
  have eq := begins.process_eq
  constructor
  · intro ended returned
    have ends : Later begun ended := by
      have ends : (S.processWorkSpace p begun).Ends (Later begun) := processWorkSpace_ends later.1
      rwa [returned] at ends
    obtain ⟨last,done,real',-,deps⟩ := @invalidateAll_returns F _ ended (S.reg p).features (S.reg p).used ends.1
    have kept := kept_iff ends.1 real' deps
    refine ⟨last,done,?_⟩
    rw [← kept]
    refine ⟨And.left,fun provided => ⟨provided,?_⟩⟩
    obtain ⟨final,returns⟩ := @provideAll_returns F _ last (S.reg p).features _ real' (S.reg p).remaining_spec.1 provided
    exact ⟨final,by simp only [eq,returned,after,done,Outcome.andThen_returned]; exact returns⟩
  · intro e thrown threw
    have ends : Later begun thrown := by
      have ends : (S.processWorkSpace p begun).Ends (Later begun) := processWorkSpace_ends later.1
      rwa [threw] at ends
    obtain ⟨first,done,realF,commands,deps⟩ := @invalidateAll_returns F _ s (S.reg p).features (S.reg p).unused real
    have asked : each (S.getUsed (S.process depth)) (S.reg p).features first = .returned begun := by
      have before := begins.before
      simp only [System.before,done,Outcome.andThen_returned] at before
      exact before
    have laterF : Later first begun := by
      have ends : (each (S.getUsed (S.process depth)) (S.reg p).features first).Ends (Later first) :=
        ends_each Later.trans (fun s => Later.refl) (fun s t later => later.1) (fun usage s real => getUsed_ends (process_ends depth) real) realF _
      rwa [asked] at ends
    refine ⟨by rw [eq,threw]; rfl,processWorkSpace_thrown threw,first,commands,asked,fun f provided missing => ?_,fun f missing provided => ?_⟩
    · by_cases here : begun.ws.isProvided f
      · exact .inr (ends.lost later.1 here missing)
      · exact .inl (later.lost real provided here)
    · by_cases here : begun.ws.isProvided f
      · refine .inl (laterF.gained realF (fun early => missing ?_) here)
        rw [← realF.isSome,deps,isSome_invalidateAll real.closed,real.isSome] at early
        exact early.1
      · exact .inr (ends.gained later.1 here provided)

/-- A processor for each feature; the feature 1 is made from 0, and the processor 2 requires both and invalidates 0. -/
private def chain : System Nat Nat where
  reg
    | 0 => .root [⟨.provide,0⟩]
    | 1 => .root [⟨.require,0⟩,⟨.provide,1⟩]
    | 2 => .root [⟨.require,0⟩,⟨.require,1⟩,⟨.invalidate,0⟩,⟨.provide,2⟩]
    | 3 => .derived [⟨.require,0⟩,⟨.require,4⟩,⟨.invalidate,0⟩,⟨.provide,0⟩] (.root [⟨.provide,3⟩])
    | _ => .root [⟨.provide,4⟩]
  make := id
  work _ _ := ⟨[],by simp,none⟩
  isCancelled _ := false

/-- A processor that makes the feature 0 anew, with one that does not depend on it. -/
theorem process_right_anew : ∃ final, chain.process 2 3 ⟨[],WorkSpace.empty⟩ = .returned final := by
  have begins : Begins chain 1 3 ⟨[],WorkSpace.empty⟩ _ := ⟨rfl,rfl,rfl⟩
  obtain ⟨last,-,right⟩ := (process_right chain 1 3 ⟨[],WorkSpace.empty⟩ _ ⟨by simp,rfl⟩ begins).1 _ rfl
  refine (right.mpr fun f required kept => ?_).2
  obtain rfl : f = 4 := by
    rw [Registration.requires_iff] at required
    rw [Registration.invalidates_iff] at kept
    simp [chain,Registration.features] at required kept
    omega
  refine ⟨rfl,fun g _ invalidated reaches => ?_⟩
  obtain rfl : g = 0 := by
    rw [Registration.invalidates_iff] at invalidated
    simp [chain,Registration.features] at invalidated
    omega
  rcases reaches.cases_head with same | ⟨h,⟨needed,provided,member⟩,-⟩
  · exact absurd same (by decide)
  · cases provided
    exact absurd member List.not_mem_nil

/-- The features 0 and 1 are provided by the processors that make them; the invalidation of 0 removes 1, which is required. -/
theorem process_wrong : ∃ begun ended last, Begins chain 2 2 ⟨[],WorkSpace.empty⟩ begun ∧ chain.processWorkSpace 2 begun = .returned ended ∧
    invalidateAll (chain.reg 2).used (chain.reg 2).features ended = .returned last ∧ 1 ∈ (chain.reg 2).remaining ∧ ¬last.ws.isProvided 1 ∧
    chain.process 3 2 ⟨[],WorkSpace.empty⟩ = .failed := by
  refine ⟨_,_,_,⟨rfl,rfl,rfl⟩,rfl,rfl,by decide,?_,rfl⟩
  decide

end System

end

end Otawa.Processor
