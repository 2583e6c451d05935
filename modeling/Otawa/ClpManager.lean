import Otawa.ClpProblem

/-!
Interpretation of a basic block: the loops of `ClpProblem::update` over its machine
instructions and their semantic paths, and their replay, one semantic instruction
after the other, by `clp::Manager`. Both visit the semantic instructions of a block
with the states before and after them (`Visit`). `replay_iff` says on which blocks
the manager visits what the analysis visits and ends with the same state.
-/
namespace Otawa.Clp

/-- A machine instruction and its translation (`Inst::semInsts`). -/
structure MachInst where
  address : Word
  semInsts : List Inst

/-- One semantic instruction interpreted: the iterator on the machine instructions,
    the position and the instruction in the semantic block, and the states around it. -/
structure Visit where
  mi : List MachInst
  pc : Int
  sem : Inst
  before : State
  after : State

/-- An access out of the block or of the machine instructions, or a division that traps. -/
inductive Fault where
  | bounds | trap

abbrev Trace := List Visit × Except Fault State

def push {V R : Type} (visit : V) (t : List V × R) : List V × R := (visit :: t.1,t.2)

def prepare (p : ClpProblem) (inst : MachInst) : ClpProblem := { p with length := inst.semInsts.length, pc := 0, todo := [] }

/-- `update(State *)` on the instruction of the block at the position. -/
def interpret (process : Process) (mi : List MachInst) (p : ClpProblem) (state : State) :
    Except Fault (ClpProblem × Visit) :=
  match mi with
  | [] => .error .bounds
  | inst :: _ =>
    if p.pc < 0 then .error .bounds
    else
      match inst.semInsts[p.pc.toNat]? with
      | none => .error .bounds
      | some sem =>
        match update process p state sem with
        | none => .error .trap
        | some (q,after) => .ok (q,⟨mi,p.pc,sem,state,after⟩)

/-- `out.join(*state)` for the state of a path of its own. -/
def joinPath (out : State) : Option State → Except Fault State
  | none => .ok out
  | some state =>
    match out.join state with
    | none => .error .trap
    | some joined => .ok joined

/-! ### `ClpProblem::update(out, in, bb)` -/

/-- The paths of one machine instruction. The first one changes `out` itself; the
    state of another one is joined when it ends. `none` when the fuel is out. -/
def paths (process : Process) (mi : List MachInst) : Nat → ClpProblem → State → Option State →
    Option (List Visit × Except Fault (ClpProblem × State))
  | 0,_,_,_ => none
  | fuel + 1,p,out,state =>
    if p.pc < p.length then
      match interpret process mi p (state.getD out) with
      | .error fault => some ([],.error fault)
      | .ok (q,visit) =>
        (match state with
          | none => paths process mi fuel q visit.after none
          | some _ => paths process mi fuel q out (some visit.after)).map (push visit)
    else
      match joinPath out state with
      | .error fault => some ([],.error fault)
      | .ok out =>
        match p.todo with
        | [] => some ([],.ok (p,out))
        | (pc,state) :: todo => paths process mi fuel { p with pc := pc, todo := todo } out (some state)

def updateBlock (process : Process) (fuel : Nat) : ClpProblem → List MachInst → State → Option Trace
  | _,[],out => some ([],.ok out)
  | p,inst :: rest,out =>
    match paths process (inst :: rest) fuel (prepare p inst) out none with
    | none => none
    | some (visits,.error fault) => some (visits,.error fault)
    | some (visits,.ok (q,out)) => (updateBlock process fuel q rest out).map fun t => (visits ++ t.1,t.2)

def fresh : ClpProblem := ⟨0,0,[],false⟩

/-- `update(out, in, bb)` runs as the trace. -/
def Updates (process : Process) (p : ClpProblem) (bb : List MachInst) (state : State) (t : Trace) : Prop :=
  ∃ fuel, updateBlock process fuel p bb state = some t

/-- `Manager::step_t`. -/
structure Step where
  newSem : Bool
  newPath : Bool
  newInst : Bool

/-- `class Manager`: the problem, the iterator on the machine instructions, the state
    of the block, that of a path of its own and the position of the last visit.
    `has_if` of the problem is not read. -/
structure Manager where
  p : ClpProblem
  mi : List MachInst
  s : State
  cs : Option State
  i : Int

namespace Manager

def state (m : Manager) : State := m.cs.getD m.s

/-- `p->update(cs)`. -/
def update (process : Process) (m : Manager) : Except Fault (Manager × Visit) :=
  match interpret process m.mi m.p m.state with
  | .error fault => .error fault
  | .ok (q,visit) =>
    match m.cs with
    | none => .ok (⟨q,m.mi,visit.after,none,m.p.pc⟩,visit)
    | some _ => .ok (⟨q,m.mi,m.s,some visit.after,m.p.pc⟩,visit)

def start (process : Process) (bb : List MachInst) (state : State) : Except Fault (Manager × Step × Visit) :=
  match bb with
  | [] => .error .bounds
  | inst :: _ =>
    match update process ⟨prepare fresh inst,bb,state,none,0⟩ with
    | .error fault => .error fault
    | .ok (m,visit) => .ok (m,⟨true,true,true⟩,visit)

/-- `next`, with no visit at the end of the block. -/
def next (process : Process) (m : Manager) (r : Step) : Except Fault (Manager × Option (Step × Visit)) :=
  if m.p.length ≤ m.p.pc then
    match joinPath m.s m.cs with
    | .error fault => .error fault
    | .ok s =>
      match _popped : m.p.todo with
      | (pc,state) :: todo =>
        next process ⟨{ m.p with pc := pc, todo := todo },m.mi,s,some state,m.i⟩ { r with newPath := true }
      | [] =>
        match _moved : m.mi with
        | _ :: inst :: rest => next process ⟨prepare m.p inst,inst :: rest,s,none,0⟩ { r with newPath := true, newInst := true }
        | _ => .ok (⟨m.p,[],s,none,m.i⟩,none)
  else
    match update process m with
    | .error fault => .error fault
    | .ok (m,visit) => .ok (m,some (r,visit))
termination_by (m.mi.length,m.p.todo.length)
decreasing_by
  · simp [_popped,Prod.lex_def]
  · simp [_moved,Prod.lex_def]

/-- The steps to the end of the block, given what the first one has to report. -/
def replay (process : Process) : Nat → Manager → Step → Option (List (Step × Visit) × Except Fault State)
  | 0,_,_ => none
  | fuel + 1,m,r =>
    match next process m r with
    | .error fault => some ([],.error fault)
    | .ok (m,none) => some ([],.ok m.s)
    | .ok (m,some visit) => (replay process fuel m ⟨true,false,false⟩).map (push visit)

/-- `start`, then `next` until it ends the block. -/
def replayBlock (process : Process) (fuel : Nat) (bb : List MachInst) (state : State) :
    Option (List (Step × Visit) × Except Fault State) :=
  match start process bb state with
  | .error fault => some ([],.error fault)
  | .ok (m,visit) => (replay process fuel m ⟨true,false,false⟩).map (push visit)

end Manager

theorem interpret_ok {process : Process} {mi : List MachInst} {p q : ClpProblem} {s : State} {visit : Visit}
    (interpreted : interpret process mi p s = .ok (q,visit)) :
    visit.mi = mi ∧ visit.before = s ∧ (∃ inst rest, mi = inst :: rest ∧ visit.sem ∈ inst.semInsts) ∧
      update process p s visit.sem = some (q,visit.after) := by
  cases mi with
  | nil => cases interpreted
  | cons inst rest =>
    rw [interpret] at interpreted
    split at interpreted
    · cases interpreted
    · split at interpreted
      · cases interpreted
      · rename_i sem found
        split at interpreted
        · cases interpreted
        · rename_i executed
          cases interpreted
          exact ⟨rfl,rfl,⟨inst,rest,rfl,List.mem_of_getElem? found⟩,executed⟩

section Loops
variable {process : Process} {p q : ClpProblem} {mi : List MachInst} {out joined : State} {state : Option State}

/-- The state of the current path after a visit, and that of the block. -/
def blockState (out : State) (state : Option State) (after : State) : State := if state.isNone then after else out
def pathState (state : Option State) (after : State) : Option State := state.map fun _ => after

theorem paths_visit (inside : p.pc < p.length) {visit : Visit}
    (interpreted : interpret process mi p (state.getD out) = .ok (q,visit)) (fuel : Nat) :
    paths process mi (fuel + 1) p out state =
      (paths process mi fuel q (blockState out state visit.after) (pathState state visit.after)).map (push visit) := by
  rw [paths,if_pos inside,interpreted]
  cases state <;> rfl

theorem paths_fault (inside : p.pc < p.length) {fault : Fault}
    (interpreted : interpret process mi p (state.getD out) = .error fault) (fuel : Nat) :
    paths process mi (fuel + 1) p out state = some ([],.error fault) := by
  rw [paths,if_pos inside,interpreted]

theorem paths_pop (ended : ¬ p.pc < p.length) (merged : joinPath out state = .ok joined) {pc : Int} {s : State}
    {todo : List (Int × State)} (left : p.todo = (pc,s) :: todo) (fuel : Nat) :
    paths process mi (fuel + 1) p out state =
      paths process mi fuel { p with pc := pc, todo := todo } joined (some s) := by
  rw [paths,if_neg ended,merged]
  simp only [left]

theorem paths_end (ended : ¬ p.pc < p.length) (merged : joinPath out state = .ok joined) (left : p.todo = []) (fuel : Nat) :
    paths process mi (fuel + 1) p out state = some ([],.ok (p,joined)) := by
  rw [paths,if_neg ended,merged]
  simp only [left]

theorem paths_trap (ended : ¬ p.pc < p.length) {fault : Fault} (merged : joinPath out state = .error fault) (fuel : Nat) :
    paths process mi (fuel + 1) p out state = some ([],.error fault) := by
  rw [paths,if_neg ended,merged]

open Manager (next)

theorem next_visit (inside : p.pc < p.length) {visit : Visit}
    (interpreted : interpret process mi p (state.getD out) = .ok (q,visit)) (i : Int) (r : Step) :
    next process ⟨p,mi,out,state,i⟩ r =
      .ok (⟨q,mi,blockState out state visit.after,pathState state visit.after,p.pc⟩,some (r,visit)) := by
  have here : interpret process mi p (Manager.state ⟨p,mi,out,state,i⟩) = .ok (q,visit) := interpreted
  rw [next,if_neg (by simpa using inside),Manager.update,here]
  cases state <;> rfl

theorem next_fault (inside : p.pc < p.length) {fault : Fault}
    (interpreted : interpret process mi p (state.getD out) = .error fault) (i : Int) (r : Step) :
    next process ⟨p,mi,out,state,i⟩ r = .error fault := by
  have here : interpret process mi p (Manager.state ⟨p,mi,out,state,i⟩) = .error fault := interpreted
  rw [next,if_neg (by simpa using inside),Manager.update,here]

theorem next_pop (ended : ¬ p.pc < p.length) (merged : joinPath out state = .ok joined) {pc : Int} {s : State}
    {todo : List (Int × State)} (left : p.todo = (pc,s) :: todo) (i : Int) (r : Step) :
    next process ⟨p,mi,out,state,i⟩ r =
      next process ⟨{ p with pc := pc, todo := todo },mi,joined,some s,i⟩ { r with newPath := true } := by
  rw [next,if_pos (by simpa using ended),merged]
  dsimp only
  split
  · rename_i same
    cases left.symm.trans same
    rfl
  · rename_i same
    cases left.symm.trans same

theorem next_inst (ended : ¬ p.pc < p.length) (merged : joinPath out state = .ok joined) (left : p.todo = [])
    (previous inst : MachInst) (rest : List MachInst) (i : Int) (r : Step) :
    next process ⟨p,previous :: inst :: rest,out,state,i⟩ r =
      next process ⟨prepare p inst,inst :: rest,joined,none,0⟩ { r with newPath := true, newInst := true } := by
  rw [next,if_pos (by simpa using ended),merged]
  dsimp only
  split
  · rename_i same
    cases left.symm.trans same
  · rfl

theorem next_end (ended : ¬ p.pc < p.length) (merged : joinPath out state = .ok joined) (left : p.todo = [])
    (inst : MachInst) (i : Int) (r : Step) :
    next process ⟨p,[inst],out,state,i⟩ r = .ok (⟨p,[],joined,none,i⟩,none) := by
  rw [next,if_pos (by simpa using ended),merged]
  dsimp only
  split
  · rename_i same
    cases left.symm.trans same
  · rfl

theorem next_trap (ended : ¬ p.pc < p.length) {fault : Fault} (merged : joinPath out state = .error fault) (i : Int)
    (r : Step) : next process ⟨p,mi,out,state,i⟩ r = .error fault := by
  rw [next,if_pos (by simpa using ended),merged]

end Loops

theorem paths_mono {process : Process} {mi : List MachInst} {fuel : Nat} {p : ClpProblem} {out : State}
    {state : Option State} {t : List Visit × Except Fault (ClpProblem × State)}
    (run : paths process mi fuel p out state = some t) (more : Nat) : paths process mi (fuel + more) p out state = some t := by
  induction fuel generalizing p out state t with
  | zero => cases run
  | succ fuel ih =>
    rw [Nat.add_right_comm]
    by_cases inside : p.pc < p.length
    · cases interpreted : interpret process mi p (state.getD out) with
      | error fault =>
        rw [paths_fault inside interpreted] at run ⊢
        exact run
      | ok result =>
        rw [paths_visit inside interpreted,Option.map_eq_some_iff] at run ⊢
        obtain ⟨later,visits,rfl⟩ := run
        exact ⟨later,ih visits,rfl⟩
    · cases merged : joinPath out state with
      | error fault =>
        rw [paths_trap inside merged] at run ⊢
        exact run
      | ok joined =>
        cases left : p.todo with
        | nil =>
          rw [paths_end inside merged left] at run ⊢
          exact run
        | cons path todo =>
          rw [paths_pop inside merged left] at run ⊢
          exact ih run

theorem updateBlock_mono {process : Process} {fuel : Nat} {p : ClpProblem} {bb : List MachInst} {out : State} {t : Trace}
    (run : updateBlock process fuel p bb out = some t) (more : Nat) :
    updateBlock process (fuel + more) p bb out = some t := by
  induction bb generalizing p out t with
  | nil => exact run
  | cons inst rest ih =>
    rw [updateBlock] at run ⊢
    cases first : paths process (inst :: rest) fuel (prepare p inst) out none with
    | none => simp [first] at run
    | some result =>
      rw [first] at run
      rw [paths_mono first]
      obtain ⟨visits,ending⟩ := result
      cases ending with
      | error fault => exact run
      | ok after =>
        obtain ⟨later,visited,rfl⟩ := Option.map_eq_some_iff.mp run
        exact Option.map_eq_some_iff.mpr ⟨later,ih visited,rfl⟩

/-! ### The manager follows the analysis -/

section Simulation
variable {process : Process} {p q : ClpProblem} {mi rest : List MachInst} {inst : MachInst} {out : State}
  {state : Option State} {t : Trace}

/-- The analysis goes on as the trace, from inside the paths of an instruction. -/
def Resumes (process : Process) (mi : List MachInst) (p : ClpProblem) (out : State) (state : Option State) (t : Trace) : Prop :=
  ∃ fuel visits,
    (∃ fault, paths process mi fuel p out state = some (visits,.error fault) ∧ t = (visits,.error fault)) ∨
      ∃ q joined t', paths process mi fuel p out state = some (visits,.ok (q,joined)) ∧
        Updates process q mi.tail joined t' ∧ t = (visits ++ t'.1,t'.2)

theorem updates_nil : Updates process p [] out t ↔ t = ([],.ok out) := by
  constructor
  · rintro ⟨_,run⟩
    exact (Option.some.inj run).symm
  · rintro rfl
    exact ⟨0,rfl⟩

theorem updates_cons : Updates process p (inst :: rest) out t ↔ Resumes process (inst :: rest) (prepare p inst) out none t := by
  constructor
  · rintro ⟨fuel,run⟩
    rw [updateBlock] at run
    cases first : paths process (inst :: rest) fuel (prepare p inst) out none with
    | none => simp [first] at run
    | some result =>
      rw [first] at run
      obtain ⟨visits,ending⟩ := result
      cases ending with
      | error fault => exact ⟨fuel,visits,.inl ⟨fault,first,(Option.some.inj run).symm⟩⟩
      | ok after =>
        obtain ⟨t',later,rfl⟩ := Option.map_eq_some_iff.mp run
        exact ⟨fuel,visits,.inr ⟨after.1,after.2,t',first,⟨fuel,later⟩,rfl⟩⟩
  · rintro ⟨fuel,visits,⟨fault,first,rfl⟩ | ⟨q,joined,t',first,⟨fuel',later⟩,rfl⟩⟩
    · refine ⟨fuel,?_⟩
      rw [updateBlock,first]
    · refine ⟨fuel + fuel',?_⟩
      have more := updateBlock_mono later fuel
      rw [Nat.add_comm] at more
      rw [updateBlock,paths_mono first]
      exact Option.map_eq_some_iff.mpr ⟨t',more,rfl⟩

/-- The visits of the steps of the manager, and its last state. -/
def Replays (process : Process) (m : Manager) (r : Step) (t : Trace) : Prop :=
  ∃ fuel steps, Manager.replay process fuel m r = some (steps,t.2) ∧ steps.map Prod.snd = t.1

theorem replays_congr {m m' : Manager} {r r' : Step} (same : Manager.next process m r = Manager.next process m' r') :
    Replays process m r t ↔ Replays process m' r' t := by
  have replayed (fuel : Nat) : Manager.replay process fuel m r = Manager.replay process fuel m' r' := by
    cases fuel with
    | zero => rfl
    | succ fuel => rw [Manager.replay,Manager.replay,same]
  simp only [Replays,replayed]

theorem replays_fault {m : Manager} {r : Step} {fault : Fault} (stopped : Manager.next process m r = .error fault) :
    Replays process m r ([],.error fault) :=
  ⟨1,[],by rw [Manager.replay,stopped],rfl⟩

theorem replays_end {m m' : Manager} {r : Step} (ended : Manager.next process m r = .ok (m',none)) :
    Replays process m r ([],.ok m'.s) :=
  ⟨1,[],by rw [Manager.replay,ended],rfl⟩

theorem replays_visit {m m' : Manager} {r r' : Step} {visit : Visit}
    (visited : Manager.next process m r = .ok (m',some (r',visit))) (later : Replays process m' ⟨true,false,false⟩ t) :
    Replays process m r (push visit t) := by
  obtain ⟨fuel,steps,run,visits⟩ := later
  refine ⟨fuel + 1,(r',visit) :: steps,?_,?_⟩
  · rw [Manager.replay,visited]
    simp [run,push]
  · simp [push,visits]

/-- What the manager does once the paths of an instruction have ended. -/
def Follows (process : Process) (mi : List MachInst) (q : ClpProblem) (joined : State) (t : Trace) : Prop :=
  match mi with
  | _ :: inst :: rest => ∀ r, Replays process ⟨prepare q inst,inst :: rest,joined,none,0⟩ r t
  | [_] => t = ([],.ok joined)
  | [] => False

/-- The manager makes the visits of the paths of an instruction, and goes on. -/
def Continues (process : Process) (m : Manager) (r : Step) (visits : List Visit) : Except Fault (ClpProblem × State) → Prop
  | .error fault => Replays process m r (visits,.error fault)
  | .ok (q,joined) => ∀ t, Follows process m.mi q joined t → Replays process m r (visits ++ t.1,t.2)

theorem continues_of_paths {fuel : Nat} {visits : List Visit} {ending : Except Fault (ClpProblem × State)} (i : Int) (r : Step)
    (run : paths process mi fuel p out state = some (visits,ending)) :
    Continues process ⟨p,mi,out,state,i⟩ r visits ending := by
  induction fuel generalizing p out state visits ending i r with
  | zero => cases run
  | succ fuel ih =>
    by_cases inside : p.pc < p.length
    · cases interpreted : interpret process mi p (state.getD out) with
      | error fault =>
        rw [paths_fault inside interpreted] at run
        cases run
        exact replays_fault (next_fault inside interpreted i r)
      | ok result =>
        rw [paths_visit inside interpreted,Option.map_eq_some_iff] at run
        obtain ⟨⟨later,ended⟩,visited,same⟩ := run
        cases same
        have rest := ih p.pc ⟨true,false,false⟩ visited
        cases ended with
        | error fault => exact replays_visit (next_visit inside interpreted i r) rest
        | ok after => exact fun t follows => replays_visit (next_visit inside interpreted i r) (rest t follows)
    · cases merged : joinPath out state with
      | error fault =>
        rw [paths_trap inside merged] at run
        cases run
        exact replays_fault (next_trap inside merged i r)
      | ok joined =>
        cases left : p.todo with
        | nil =>
          rw [paths_end inside merged left] at run
          cases run
          intro t follows
          cases mi with
          | nil => exact follows.elim
          | cons inst rest =>
            cases rest with
            | nil =>
              cases follows
              exact replays_end (next_end inside merged left inst i r)
            | cons inst' rest => exact (replays_congr (next_inst inside merged left inst inst' rest i r)).mpr (follows _)
        | cons path todo =>
          rw [paths_pop inside merged left] at run
          have rest := ih i { r with newPath := true } run
          have same := @next_pop process _ mi _ _ _ inside merged _ _ _ left i r
          cases ending with
          | error fault => exact (replays_congr same).mpr rest
          | ok after => exact fun t follows => (replays_congr same).mpr (rest t follows)

theorem replays_of_resumes (i : Int) (r : Step) (follows : ∀ q joined t, Updates process q mi.tail joined t → Follows process mi q joined t)
    (resumes : Resumes process mi p out state t) : Replays process ⟨p,mi,out,state,i⟩ r t := by
  obtain ⟨fuel,visits,⟨fault,run,rfl⟩ | ⟨q,joined,t',run,later,rfl⟩⟩ := resumes
  · exact continues_of_paths i r run
  · exact continues_of_paths i r run t' (follows q joined t' later)

theorem follows_of_updates (updates : Updates process q rest out t) : Follows process (inst :: rest) q out t := by
  induction rest generalizing inst q out t with
  | nil => exact updates_nil.mp updates
  | cons inst' rest ih =>
    intro r
    exact replays_of_resumes 0 r (fun _ _ _ later => ih later) (updates_cons.mp updates)

theorem resumes_fault {visits : List Visit} {fault : Fault}
    (run : paths process mi 1 p out state = some (visits,.error fault)) : Resumes process mi p out state (visits,.error fault) :=
  ⟨1,visits,.inl ⟨fault,run,rfl⟩⟩

theorem resumes_visit (inside : p.pc < p.length) {visit : Visit}
    (interpreted : interpret process mi p (state.getD out) = .ok (q,visit))
    (later : Resumes process mi q (blockState out state visit.after) (pathState state visit.after) t) :
    Resumes process mi p out state (push visit t) := by
  obtain ⟨fuel,visits,⟨fault,run,rfl⟩ | ⟨q',joined,t',run,updates,rfl⟩⟩ := later
  · refine ⟨fuel + 1,visit :: visits,.inl ⟨fault,?_,rfl⟩⟩
    rw [paths_visit inside interpreted,run]
    rfl
  · refine ⟨fuel + 1,visit :: visits,.inr ⟨q',joined,t',?_,updates,rfl⟩⟩
    rw [paths_visit inside interpreted,run]
    rfl

theorem resumes_pop {joined s : State} (ended : ¬ p.pc < p.length) (merged : joinPath out state = .ok joined) {pc : Int}
    {todo : List (Int × State)} (left : p.todo = (pc,s) :: todo)
    (later : Resumes process mi { p with pc := pc, todo := todo } joined (some s) t) : Resumes process mi p out state t := by
  obtain ⟨fuel,visits,run⟩ := later
  refine ⟨fuel + 1,visits,?_⟩
  rw [paths_pop ended merged left]
  exact run

theorem resumes_end {joined : State} (ended : ¬ p.pc < p.length) (merged : joinPath out state = .ok joined)
    (left : p.todo = []) (later : Updates process p mi.tail joined t) : Resumes process mi p out state t :=
  ⟨1,[],.inr ⟨p,joined,t,paths_end ended merged left 0,later,rfl⟩⟩

theorem resumes_of_replay (fuel : Nat) (inst : MachInst) (rest : List MachInst) (p : ClpProblem) (out : State)
    (state : Option State) (i : Int) (r : Step) (steps : List (Step × Visit)) (ending : Except Fault State)
    (run : Manager.replay process fuel ⟨p,inst :: rest,out,state,i⟩ r = some (steps,ending)) :
    Resumes process (inst :: rest) p out state (steps.map Prod.snd,ending) := by
  match fuel with
  | 0 => cases run
  | fuel + 1 =>
    by_cases inside : p.pc < p.length
    · cases interpreted : interpret process (inst :: rest) p (state.getD out) with
      | error fault =>
        rw [Manager.replay,next_fault inside interpreted i r] at run
        cases run
        exact resumes_fault (paths_fault inside interpreted 0)
      | ok result =>
        rw [Manager.replay,next_visit inside interpreted i r] at run
        obtain ⟨⟨later,ended⟩,visited,same⟩ := Option.map_eq_some_iff.mp run
        cases same
        exact resumes_visit inside interpreted (resumes_of_replay fuel inst rest _ _ _ _ _ later ended visited)
    · cases merged : joinPath out state with
      | error fault =>
        rw [Manager.replay,next_trap inside merged i r] at run
        cases run
        exact resumes_fault (paths_trap inside merged 0)
      | ok joined =>
        match left : p.todo with
        | path :: todo =>
          rw [Manager.replay,next_pop inside merged left i r,← Manager.replay] at run
          exact resumes_pop inside merged left (resumes_of_replay (fuel + 1) inst rest _ _ _ _ _ steps ending run)
        | [] =>
          match rest with
          | [] =>
            rw [Manager.replay,next_end inside merged left inst i r] at run
            cases run
            exact resumes_end inside merged left (updates_nil.mpr rfl)
          | inst' :: rest =>
            rw [Manager.replay,next_inst inside merged left inst inst' rest i r,← Manager.replay] at run
            have later := resumes_of_replay (fuel + 1) inst' rest _ _ _ _ _ steps ending run
            exact resumes_end inside merged left (updates_cons.mpr later)
termination_by (fuel,rest.length,p.todo.length)
decreasing_by
  · exact Prod.Lex.left _ _ (Nat.lt_succ_self _)
  · rw [left]
    exact Prod.Lex.right _ (Prod.Lex.right _ (Nat.lt_succ_self _))
  · exact Prod.Lex.right _ (Prod.Lex.left _ _ (Nat.lt_succ_self _))

/-! ### Replaying a block -/

def ReplaysBlock (process : Process) (bb : List MachInst) (state : State) (t : Trace) : Prop :=
  ∃ fuel steps, Manager.replayBlock process fuel bb state = some (steps,t.2) ∧ steps.map Prod.snd = t.1

/-- The manager makes the visits of the analysis in their order, and ends as it does. -/
def Agrees (process : Process) (bb : List MachInst) (state : State) : Prop :=
  ∀ t, ReplaysBlock process bb state t ↔ Updates process fresh bb state t

def FirstInterprets : List MachInst → Prop
  | [] => False
  | inst :: _ => inst.semInsts ≠ []

instance (bb : List MachInst) : Decidable (FirstInterprets bb) := by
  cases bb <;> unfold FirstInterprets <;> infer_instance

/-- Where it has one, `start` does what `next` would do before the first visit. -/
theorem replayBlock_first (interprets : inst.semInsts ≠ []) (fuel : Nat) (out : State) :
    Manager.replayBlock process fuel (inst :: rest) out =
      Manager.replay process (fuel + 1) ⟨prepare fresh inst,inst :: rest,out,none,0⟩ ⟨true,true,true⟩ := by
  have inside : ¬ (prepare fresh inst).length ≤ (prepare fresh inst).pc := by
    have := List.length_pos_iff.mpr interprets
    simp only [prepare]
    omega
  rw [Manager.replay,Manager.replayBlock,Manager.next,if_neg inside,Manager.start]
  cases Manager.update process ⟨prepare fresh inst,inst :: rest,out,none,0⟩ with
  | error fault => rfl
  | ok result => rfl

theorem replaysBlock_first (interprets : inst.semInsts ≠ []) :
    ReplaysBlock process (inst :: rest) out t ↔
      Replays process ⟨prepare fresh inst,inst :: rest,out,none,0⟩ ⟨true,true,true⟩ t := by
  constructor
  · rintro ⟨fuel,steps,run,visits⟩
    exact ⟨fuel + 1,steps,(replayBlock_first interprets fuel out).symm.trans run,visits⟩
  · rintro ⟨_ | fuel,steps,run,visits⟩
    · cases run
    · exact ⟨fuel,steps,(replayBlock_first interprets fuel out).trans run,visits⟩

theorem replaysBlock_missing {bb : List MachInst} (missing : ¬ FirstInterprets bb) :
    ReplaysBlock process bb out ([],.error .bounds) := by
  refine ⟨0,[],?_,rfl⟩
  cases bb with
  | nil => rfl
  | cons inst rest =>
    have empty : inst.semInsts = [] := not_not.mp missing
    have stopped : Manager.start process (inst :: rest) out = .error .bounds := by
      simp [Manager.start,Manager.update,interpret,prepare,empty]
    rw [Manager.replayBlock,stopped]

theorem interpret_first (interprets : inst.semInsts ≠ []) :
    interpret process (inst :: rest) (prepare p inst) out ≠ .error .bounds := by
  obtain ⟨sem,block,first⟩ := List.exists_cons_of_ne_nil interprets
  have here : inst.semInsts[(prepare p inst).pc.toNat]? = some sem := by simp [prepare,first]
  have start : ¬ (prepare p inst).pc < 0 := by simp [prepare]
  rw [interpret,if_neg start,here]
  dsimp only
  split <;> simp

theorem resumes_first (interprets : inst.semInsts ≠ []) :
    ¬ Resumes process (inst :: rest) (prepare p inst) out none ([],.error .bounds) := by
  have inside : (prepare p inst).pc < (prepare p inst).length := by
    have := List.length_pos_iff.mpr interprets
    simp only [prepare]
    omega
  rintro ⟨_ | fuel,visits,resumes⟩
  · rcases resumes with ⟨_,run,_⟩ | ⟨_,_,_,run,_⟩ <;> cases run
  · cases interpreted : interpret process (inst :: rest) (prepare p inst) out with
    | error fault =>
      rw [@paths_fault _ _ _ _ none inside _ interpreted] at resumes
      rcases resumes with ⟨_,same,ending⟩ | ⟨_,_,_,same,_⟩
      · cases same
        cases ending
        exact interpret_first interprets interpreted
      · cases same
    | ok result =>
      -- the trace has a first visit
      rw [@paths_visit _ _ _ _ _ none inside _ interpreted] at resumes
      rcases resumes with ⟨_,run,ending⟩ | ⟨_,_,_,run,_,ending⟩
      all_goals
        obtain ⟨later,_,same⟩ := Option.map_eq_some_iff.mp run
        cases congrArg Prod.fst same
        cases congrArg Prod.fst ending

theorem not_updates_bounds {bb : List MachInst} : ¬ Updates process p bb out ([],.error .bounds) := by
  induction bb generalizing p out with
  | nil =>
    intro updates
    cases updates_nil.mp updates
  | cons inst rest ih =>
    intro updates
    by_cases empty : inst.semInsts = []
    · -- no visit, and the next instruction starts from the same state
      obtain ⟨_ | fuel,visits,resumes⟩ := updates_cons.mp updates
      · rcases resumes with ⟨_,run,_⟩ | ⟨_,_,_,run,_⟩ <;> cases run
      · have ended : ¬ (prepare p inst).pc < (prepare p inst).length := by simp [prepare,empty]
        rw [@paths_end _ _ _ _ _ none ended rfl rfl] at resumes
        rcases resumes with ⟨_,same,_⟩ | ⟨q,joined,t',same,later,ending⟩
        · cases same
        · cases same
          rw [List.nil_append] at ending
          exact ih (by rw [ending]; exact later)
    · exact resumes_first empty (updates_cons.mp updates)

/-- The manager agrees with the analysis on the blocks whose first machine instruction
    has a semantic instruction: `start` does not test the end of its path as `next` does. -/
theorem agrees_iff (process : Process) (bb : List MachInst) (state : State) :
    Agrees process bb state ↔ FirstInterprets bb := by
  constructor
  · intro agrees
    by_contra missing
    exact not_updates_bounds ((agrees _).mp (replaysBlock_missing missing))
  · intro interprets t
    cases bb with
    | nil => exact interprets.elim
    | cons inst rest =>
      rw [replaysBlock_first interprets,updates_cons]
      constructor
      · rintro ⟨fuel,steps,run,visits⟩
        have resumes := resumes_of_replay fuel inst rest _ _ _ _ _ steps t.2 run
        rwa [visits] at resumes
      · exact replays_of_resumes 0 _ fun _ _ _ later => follows_of_updates later

/-- An `IF` that skips over no negative number of instructions. -/
def Forward : Inst → Prop
  | .IF _ _ jump => 0 ≤ jump.toInt
  | _ => True

/-- The path being interpreted and those left, each of which may split at every instruction. -/
def work (p : ClpProblem) : Nat :=
  3 ^ (p.length - p.pc).toNat + (p.todo.map fun path => 3 ^ (p.length - path.1).toNat).sum

theorem update_forward {sem : Inst} {after : State} (forward : Forward sem) (inside : p.pc < p.length)
    (executed : update process p out sem = some (q,after)) : q.length = p.length ∧ work q < work p := by
  obtain ⟨k,gap⟩ : ∃ k : Nat, p.length = p.pc + k + 1 := ⟨(p.length - p.pc - 1).toNat,by omega⟩
  have before : (p.length - p.pc).toNat = k + 1 := by omega
  have less (n : Int) (later : p.pc < n) : 3 ^ (p.length - n).toNat ≤ 3 ^ k :=
    Nat.pow_le_pow_right (by decide) (by omega)
  have one : 0 < 3 ^ k := Nat.pow_pos (by decide)
  have next := less (p.pc + 1) (by omega)
  have stop := less (p.length + 1) (by omega)
  cases sem with
  | IF _ _ jump =>
    have branch := less (p.pc + jump.toInt + 1) (by simp only [Forward] at forward; omega)
    cases executed
    refine ⟨rfl,?_⟩
    simp only [work,before,Nat.pow_succ,List.map_cons,List.sum_cons]
    omega
  | LOAD d a type =>
    obtain ⟨_,_,same⟩ := Option.map_eq_some_iff.mp executed
    cases same
    refine ⟨rfl,?_⟩
    simp only [work,before,Nat.pow_succ]
    omega
  | _ =>
    cases executed
    refine ⟨rfl,?_⟩
    simp only [work,before,Nat.pow_succ]
    omega

theorem paths_ends {fuel : Nat} (forward : ∀ sem ∈ inst.semInsts, Forward sem) (enough : work p ≤ fuel) :
    ∃ result, paths process (inst :: rest) fuel p out state = some result := by
  induction fuel generalizing p out state with
  | zero =>
    have : 0 < 3 ^ (p.length - p.pc).toNat := Nat.pow_pos (by decide)
    simp only [work] at enough
    omega
  | succ fuel ih =>
    by_cases inside : p.pc < p.length
    · cases interpreted : interpret process (inst :: rest) p (state.getD out) with
      | error fault => exact ⟨_,paths_fault inside interpreted fuel⟩
      | ok result =>
        obtain ⟨q,visit⟩ := result
        have less : work q < work p := by
          obtain ⟨_,_,⟨_,_,same,member⟩,executed⟩ := interpret_ok interpreted
          cases same
          exact (update_forward (forward _ member) inside executed).2
        rw [paths_visit inside interpreted]
        obtain ⟨t,run⟩ := ih (p := q) (by omega)
        exact ⟨push visit t,by rw [run]; rfl⟩
    · cases merged : joinPath out state with
      | error fault => exact ⟨_,paths_trap inside merged fuel⟩
      | ok joined =>
        cases left : p.todo with
        | nil => exact ⟨_,paths_end inside merged left fuel⟩
        | cons path todo =>
          rw [paths_pop inside merged left]
          apply ih
          have : 0 < 3 ^ (p.length - p.pc).toNat := Nat.pow_pos (by decide)
          simp only [work,left,List.map_cons,List.sum_cons] at enough ⊢
          omega

theorem updates_ends {bb : List MachInst} (forward : ∀ inst ∈ bb, ∀ sem ∈ inst.semInsts, Forward sem) :
    ∃ t, Updates process p bb out t := by
  induction bb generalizing p out with
  | nil => exact ⟨_,updates_nil.mpr rfl⟩
  | cons inst rest ih =>
    obtain ⟨⟨visits,ending⟩,run⟩ := @paths_ends process (prepare p inst) rest inst out none _
      (forward inst List.mem_cons_self) (Nat.le_refl (work (prepare p inst)))
    cases ending with
    | error fault => exact ⟨_,updates_cons.mpr ⟨_,visits,.inl ⟨fault,run,rfl⟩⟩⟩
    | ok after =>
      obtain ⟨t',later⟩ := @ih after.1 after.2 fun inst left => forward inst (List.mem_cons_of_mem _ left)
      exact ⟨_,updates_cons.mpr ⟨_,visits,.inr ⟨after.1,after.2,t',run,later,rfl⟩⟩⟩

/-- A branch over the second instruction of the semantic block: both paths end. -/
theorem updates_ends_over : ∃ t, Updates ⟨fun _ => 0,fun _ => 0,fun _ => 0,0,0,fun _ => none⟩ ⟨0,0,[],false⟩
    [⟨0x8000,[.IF 0 0 1,.SETI 1 5,.SET 2 1]⟩] State.FULL t :=
  updates_ends (by simp [Forward])

end Simulation

/-- A block that starts with an instruction that has no semantic instruction: the
    analysis interprets the next one, and `start` reads out of the semantic block. -/
theorem start_reads_empty :
    ¬ ∀ (process : Process) (bb : List MachInst) (state : State), Agrees process bb state := by
  intro agrees
  have replayed := agrees ⟨fun _ => 0,fun _ => 0,fun _ => 0,0,0,fun _ => none⟩
    [⟨0x8000,[]⟩,⟨0x8004,[.SETI 1 5]⟩] State.FULL ([],.error .bounds)
  exact not_updates_bounds (replayed.mp ⟨0,[],rfl,rfl⟩)

end Otawa.Clp
