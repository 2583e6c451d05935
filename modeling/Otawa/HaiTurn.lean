import Otawa.HaiInvariant

/-!
What one turn of the engine does to the marks and to the work list: a block processed,
a new iteration of a loop and a loop that has reached its fixpoint. Each keeps the
invariant, and finds the marks that it reads.
-/
namespace Otawa.Hai
open Otawa.Cfg

universe u
variable {n m : Nat} {S D : Type u} {g : CFG n m} {dom : DominanceInfo n m} {info : LoopInfo n m}
variable {st : State n m S D} {done : Fin n → Prop} {rest : List (Fin n)} {b c h k : Fin n} {e : Fin m}

/-- The state while a loop is left, before its exit edges are released. -/
structure Leaving (g : CFG n m) (dom : DominanceInfo n m) (info : LoopInfo n m) (b : Fin n) (st : State n m S D)
    (done : Fin n → Prop) : Prop extends Core g dom info (fun _ => False) st done where
  released : ∀ e, info.loopExitEdge e = some b → (st.mark e).isSome
  closed : ∀ e, info.loopExitEdge e = some b → isBackEdge g dom e = false → ¬ Open st (g.target e)
  rest : ∀ c, c ∈ st.workList ↔ Pending g dom info st done c ∧ ∀ e, info.loopExitEdge e = some b → g.target e ≠ c
  nodup : st.workList.Nodup
  main : st.mainEntry = false
  started : done g.entry

theorem Sent.mono {done' : Fin n → Prop} (more : ∀ c, done c → done' c) (sent : Sent g dom info done e) :
    Sent g dom info done' e := sent.imp id (more _)

/-- The rest of the work list is what waits for no other block, but for the block taken. -/
theorem Inv.mem_rest (inv : Inv g dom info st done) (work : st.workList = b :: rest) :
    c ∈ rest ↔ Pending g dom info st done c ∧ c ≠ b := by
  have nodup := inv.nodup
  rw [work,List.nodup_cons] at nodup
  rw [← inv.pending,work,List.mem_cons]
  constructor
  · intro inside
    refine ⟨Or.inr inside,?_⟩
    rintro rfl
    exact nodup.1 inside
  · rintro ⟨same | inside,differ⟩
    · exact absurd same differ
    · exact inside

/-- A block that waits for no other one has the loop around it active, and its entry edges marked. -/
theorem Inv.taken (inv : Inv g dom info st done) (work : st.workList = b :: rest) : Active st (info.enclosing b) ∧ ¬ done b ∧
    ∀ e, g.target e = b → isBackEdge g dom e = false → Sent g dom info done e := by
  have pending := (inv.pending b).mp (by rw [work]; exact List.mem_cons_self)
  rcases pending with ⟨active,undone,-,sent⟩ | ⟨isOpen,-⟩
  · exact ⟨active,undone,sent⟩
  · obtain ⟨-,undone,active⟩ := inv.opened b isOpen
    refine ⟨active,undone,fun e target front => ?_⟩
    subst target
    exact inv.order e front (Or.inr isOpen)

section Turns
variable (nest : Nested g dom info) (inv : Inv g dom info st done) (work : st.workList = b :: rest)
include nest inv work

theorem Inv.notMain (header : g.IsHeader b) : st.mainEntry = false := by
  rw [← Bool.not_eq_true]
  intro main
  have same := inv.main main
  rw [work] at same
  obtain rfl := (List.cons.inj same).1
  exact entry_plain nest header

/-! ### A block processed -/

theorem Inv.not_sent (plain : ¬ g.IsHeader b) (source : g.source e = b) : ¬ Sent g dom info done e := by
  obtain ⟨active,undone,-⟩ := inv.taken work
  have own : own dom info b = info.enclosing b := if_neg fun header => plain ((header_iff nest).mp header)
  cases exit : info.loopExitEdge e with
  | none =>
    obtain ⟨unit,level⟩ := level_of_stays nest exit
    rw [Sent,unit,level,source,own]
    rintro (inside | done)
    · exact enclosing_ne nest inside rfl
    · exact undone done
  | some k =>
    obtain ⟨-,-,inside⟩ := level_of_exit nest exit
    rw [source,own] at inside
    rw [inside] at active
    rw [sent_of_exit nest exit]
    exact (inv.opened k active).2.1

omit work in
theorem Inv.inside_done (sent : ∀ e, g.target e = b → isBackEdge g dom e = true → Sent g dom info done e)
    (inside : info.enclosing c = some b) : done c := by
  refine loop_induction nest.scanned nest.picked nest.one (fun e back target => ?_)
    (fun e front target after => ?_) inside
  · have direction := (isBackEdge_iff nest).mpr back
    refine (sent e target direction).imp (fun same => ?_) id
    rw [level_of_back direction,target] at same
    exact (Option.some.inj same).symm
  · have direction := (isFront_iff nest).mpr front
    refine (inv.order e direction (Or.inl after)).imp (fun same => ?_) id
    rw [level_of_front direction,target] at same
    exact (Option.some.inj same).symm

theorem Inv.inside (inside : info.enclosing c = some b) : ¬ Open st c ∧ (Open st b → done c) := by
  have pending := (inv.pending b).mp (by rw [work]; exact List.mem_cons_self)
  have known : Open st b → done c := by
    intro isOpen
    rcases pending with ⟨-,-,closed,-⟩ | ⟨-,sent⟩
    · exact absurd isOpen closed
    · exact inv.inside_done nest sent inside
  refine ⟨fun isOpen => ?_,known⟩
  obtain ⟨-,undone,active⟩ := inv.opened c isOpen
  rw [inside] at active
  exact undone (known active)

omit nest in
theorem Inv.rest_nodup : rest.Nodup := by
  have nodup := inv.nodup
  rw [work] at nodup
  exact nodup.of_cons

end Turns

/-- The blocks done once b is. -/
abbrev DoneWith (done : Fin n → Prop) (b c : Fin n) : Prop := done c ∨ c = b

/-- The turn of a block that is no header, up to its output edges. -/
structure Simple (g : CFG n m) (dom : DominanceInfo n m) (info : LoopInfo n m) (b : Fin n) (rest : List (Fin n))
    (st : State n m S D) (done : Fin n → Prop) (mark : Fin m → Option D) : Prop where
  nest : Nested g dom info
  inv : Inv g dom info st done
  work : st.workList = b :: rest
  plain : ¬ g.IsHeader b
  marks : ∀ e, mark e = if g.target e = b then none else st.mark e

namespace Simple
variable {mark : Fin m → Option D} (turn : Simple g dom info b rest st done mark)
include turn

theorem front (target : g.target e = b) : isBackEdge g dom e = false := by
  rw [← Bool.not_eq_true]
  exact fun back => turn.plain (target ▸ header_of_back turn.nest back)

theorem own : own dom info b = info.enclosing b := if_neg fun header => turn.plain ((header_iff turn.nest).mp header)

theorem not_sent : g.source e = b → ¬ Sent g dom info done e := turn.inv.not_sent turn.nest turn.work turn.plain

theorem level_active (source : g.source e = b) : Active st (level g dom info e) := by
  obtain ⟨active,-⟩ := turn.inv.taken turn.work
  exact active_level turn.nest (fun c isOpen => (turn.inv.opened c isOpen).2.2) (by rwa [source,turn.own])

theorem differ (header : g.IsHeader h) : h ≠ b := by
  rintro rfl
  exact turn.plain header

omit turn in
theorem more : Sent g dom info done e → Sent g dom info (DoneWith done b) e := Sent.mono fun _ => Or.inl

/-- Nothing is sent but by the edges of the block. -/
theorem before (sent : Sent g dom info (DoneWith done b) e) (source : g.source e ≠ b) : Sent g dom info done e := by
  rcases sent with level | done | unit
  · exact Or.inl level
  · exact Or.inr done
  · cases exit : info.loopExitEdge e with
    | none => exact absurd ((level_of_stays turn.nest exit).1.symm.trans unit) source
    | some k => exact absurd ((level_of_exit turn.nest exit).1.symm.trans unit) (turn.differ (exit_header turn.nest exit))

omit turn in
theorem waits (target : g.target e ≠ b) : Waits g dom (DoneWith done b) e ↔ Waits g dom done e := by
  simp [Waits,DoneWith,target]

theorem kept (target : g.target e ≠ b) : mark e = st.mark e := by rw [turn.marks,if_neg target]

theorem target_ne (some : (mark e).isSome) : g.target e ≠ b := by
  intro target
  simp only [turn.marks,if_pos target] at some
  cases some

theorem core (interpreted : Fin n → List D) : Core g dom info (fun e => g.source e = b)
    { st with workList := rest, mainEntry := false, mark := mark, interpreted := interpreted } (DoneWith done b) := by
  have inv := turn.inv
  obtain ⟨-,-,sent⟩ := inv.taken turn.work
  refine ⟨fun c isOpen => ?_,fun e front after => ?_,fun h header done => ?_,inv.fixedOpen,fun e source active sent free => ?_,
    fun e some => ?_,fun e k source exit isOpen after => ?_,inv.states⟩
  · obtain ⟨header,undone,around⟩ := inv.opened c isOpen
    exact ⟨header,fun done => done.elim undone (turn.differ header),around⟩
  · refine more ?_
    rcases after with (done | target) | isOpen
    · exact inv.order e front (Or.inl done)
    · exact sent e target front
    · exact inv.order e front (Or.inr isOpen)
  · exact inv.fixedDone h header (done.resolve_right (turn.differ header))
  · have target : g.target e ≠ b := by
      intro target
      rcases free with direction | undone
      · rw [turn.front target] at direction
        cases direction
      · exact undone (Or.inr target)
    exact (congrArg Option.isSome (turn.kept target)).trans
      (inv.marked e id active (turn.before sent source) ((waits target).mp free))
  · have target := turn.target_ne some
    obtain ⟨active,free,sent⟩ := inv.waiting e (turn.kept target ▸ some)
    exact ⟨active,(waits target).mpr free,sent.imp more id⟩
  · have target : g.target e ≠ b := by
      intro target
      exact (inv.opened k isOpen).2.1 ((sent_of_exit turn.nest exit).mp (sent e target (turn.front target)))
    refine (congrArg Option.isSome (turn.kept target)).trans (inv.exits e k id exit isOpen ?_)
    exact after.imp id fun done => done.resolve_right source

theorem undone (interpreted : Fin n → List D) (source : g.source e = b) : isEdgeDone g dom info
    { st with workList := rest, mainEntry := false, mark := mark, interpreted := interpreted } e = false := by
  rw [← Bool.not_eq_true,isEdgeDone,Bool.or_eq_true,Bool.and_eq_true,Bool.and_eq_true]
  rintro (⟨some,fixed⟩ | ⟨direction,first⟩)
  · rcases (turn.inv.waiting e (turn.kept (turn.target_ne some) ▸ some)).2.2 with sent | ⟨k,exit,isOpen⟩
    · exact turn.not_sent source sent
    · rw [exit,Option.all_some,turn.inv.fixedOpen k isOpen] at fixed
      cases fixed
  · have active := turn.level_active source
    rw [level_of_back direction] at active
    exact Bool.false_ne_true (active.symm.trans first)

theorem mem_rest : c ∈ rest ↔ Pending g dom info st (DoneWith done b) c ∧ ∀ e, g.source e = b → g.target e ≠ c := by
  have inv := turn.inv
  obtain ⟨-,undone,-⟩ := inv.taken turn.work
  rw [inv.mem_rest turn.work]
  constructor
  · rintro ⟨pending,apart⟩
    refine ⟨?_,fun e source target => ?_⟩
    · rcases pending with ⟨active,undone,closed,sent⟩ | ⟨isOpen,sent⟩
      · exact Or.inl ⟨active,fun done => done.elim undone apart,closed,fun e target front => more (sent e target front)⟩
      · exact Or.inr ⟨isOpen,fun e target back => more (sent e target back)⟩
    · -- the edge would have been sent
      subst target
      have active := turn.level_active source
      cases direction : isBackEdge g dom e with
      | true =>
        rw [level_of_back direction] at active
        rcases pending with ⟨-,-,closed,-⟩ | ⟨-,sent⟩
        · exact closed active
        · exact turn.not_sent source (sent e rfl direction)
      | false =>
        rcases pending with ⟨-,-,-,sent⟩ | ⟨isOpen,-⟩
        · exact turn.not_sent source (sent e rfl direction)
        · exact turn.not_sent source (inv.order e direction (Or.inr isOpen))
  · rintro ⟨pending,away⟩
    have back {e : Fin m} (target : g.target e = c) (sent : Sent g dom info (DoneWith done b) e) :
        Sent g dom info done e := turn.before sent fun source => away e source target
    rcases pending with ⟨active,later,closed,sent⟩ | ⟨isOpen,sent⟩
    · refine ⟨Or.inl ⟨active,fun done => later (Or.inl done),closed,fun e target front => back target (sent e target front)⟩,?_⟩
      exact fun same => later (Or.inr same)
    · refine ⟨Or.inr ⟨isOpen,fun e target behind => back target (sent e target behind)⟩,?_⟩
      exact turn.differ (inv.opened c isOpen).1

theorem passing (interpreted : Fin n → List D) : Passing g dom info b
    { st with workList := rest, mainEntry := false, mark := mark, interpreted := interpreted } (DoneWith done b) := by
  have inv := turn.inv
  obtain ⟨active,-,sent⟩ := inv.taken turn.work
  refine ⟨turn.core interpreted,turn.own ▸ active,Or.inr (Or.inr rfl),fun e source => ?_,fun e source front target => ?_,
    fun e => turn.undone interpreted,fun c => turn.mem_rest,inv.rest_nodup turn.work,rfl,?_⟩
  · cases direction : isBackEdge g dom e with
    | true => exact Or.inl direction
    | false =>
      refine Or.inr ?_
      rintro (done | target)
      · exact turn.not_sent source (inv.order e direction (Or.inl done))
      · exact turn.not_sent source (sent e target direction)
  · exact turn.not_sent source (inv.order e front (Or.inr target))
  · cases main : st.mainEntry with
    | false => exact Or.inl (inv.started main)
    | true =>
      have same := inv.main main
      rw [turn.work] at same
      exact Or.inr (List.cons.inj same).1.symm

end Simple

/-! ### An iteration of a loop -/

/-- The blocks that an iteration of the loop of b leaves done. -/
abbrev DoneOutside (info : LoopInfo n m) (done : Fin n → Prop) (b c : Fin n) : Prop := done c ∧ info.enclosing c ≠ some b

/-- The turn of a header whose loop goes on, up to its output edges. -/
structure Iteration (g : CFG n m) (dom : DominanceInfo n m) (info : LoopInfo n m) (b : Fin n) (rest : List (Fin n))
    (done : Fin n → Prop) (st st' : State n m S D) : Prop where
  nest : Nested g dom info
  inv : Inv g dom info st done
  work : st.workList = b :: rest
  header : g.IsHeader b
  list : st'.workList = rest
  main : st'.mainEntry = st.mainEntry
  first : st'.firstIter = Function.update st.firstIter b false
  fixed : st'.fixed = Function.update st.fixed b false
  states : ∃ s, st'.fixPointState = Function.update st.fixPointState b (some s)
  marks : ∀ e, st'.mark e = if isBackEdge g dom e = true ∧ g.target e = b then none else st.mark e

namespace Iteration
variable {st' : State n m S D} (turn : Iteration g dom info b rest done st st')
include turn

theorem own : own dom info b = some b := if_pos ((header_iff turn.nest).mpr turn.header)

theorem around : info.enclosing b ≠ some b := fun inside => enclosing_ne turn.nest inside rfl

theorem inside (inside : info.enclosing c = some b) : ¬ Open st c ∧ (Open st b → done c) :=
  turn.inv.inside turn.nest turn.work inside

theorem open_iff : Open st' c ↔ c = b ∨ Open st c := by
  rw [Open,turn.first]
  by_cases same : c = b
  · simp [same]
  · simp [same,Open]

theorem active_iff {o : Option (Fin n)} : Active st' o ↔ o = some b ∨ Active st o := by
  cases o with
  | none => simp [Active]
  | some c => simpa [Active] using turn.open_iff

omit turn in
theorem less : Sent g dom info (DoneOutside info done b) e → Sent g dom info done e := Sent.mono fun _ both => both.1

/-- Inside of the loop nothing is sent now but by the edges of the header. -/
theorem unsent (source : g.source e ≠ b) (inside : level g dom info e = some b) :
    ¬ Sent g dom info (DoneOutside info done b) e := by
  rintro (same | ⟨after,apart⟩)
  · cases exit : info.loopExitEdge e with
    | none =>
      rw [(level_of_stays turn.nest exit).1,inside] at same
      exact source (Option.some.inj same).symm
    | some k =>
      obtain ⟨unit,level,-⟩ := level_of_exit turn.nest exit
      rw [unit,inside] at same
      obtain rfl := Option.some.inj same
      exact turn.around (level.symm.trans inside)
  · rcases level_unit turn.nest (e := e) with same | same
    · rw [inside] at same
      exact (turn.inv.taken turn.work).2.1 (Option.some.inj same ▸ after)
    · exact apart (same.symm.trans inside)

/-- Elsewhere nothing changes. -/
theorem keep (outside : level g dom info e ≠ some b) (sent : Sent g dom info done e) :
    Sent g dom info (DoneOutside info done b) e := by
  rcases sent with same | after
  · exact Or.inl same
  · rcases level_unit turn.nest (e := e) with same | same
    · exact Or.inl same
    · exact Or.inr ⟨after,fun inside => outside (same.trans inside)⟩

theorem kept (outside : level g dom info e ≠ some b) : st'.mark e = st.mark e := by
  rw [turn.marks,if_neg]
  rintro ⟨back,rfl⟩
  exact outside (level_of_back back)

theorem order (front : isBackEdge g dom e = false)
    (after : DoneOutside info done b (g.target e) ∨ Open st' (g.target e)) :
    level g dom info e ≠ some b ∧ Sent g dom info done e := by
  rw [turn.open_iff] at after
  rw [level_of_front front]
  rcases after with ⟨done,apart⟩ | target | isOpen
  · exact ⟨apart,turn.inv.order e front (Or.inl done)⟩
  · exact ⟨target ▸ turn.around,(turn.inv.taken turn.work).2.2 e target front⟩
  · exact ⟨fun inside => (turn.inside inside).1 isOpen,turn.inv.order e front (Or.inr isOpen)⟩

theorem marked_outside (present : (st'.mark e).isSome) : level g dom info e ≠ some b ∧ (st.mark e).isSome := by
  rw [turn.marks] at present
  split at present
  · cases present
  next stays =>
    refine ⟨fun inside => ?_,present⟩
    obtain ⟨active,free,-⟩ := turn.inv.waiting e present
    rw [inside] at active
    cases direction : isBackEdge g dom e with
    | true => exact stays ⟨direction,Option.some.inj ((level_of_back direction).symm.trans inside)⟩
    | false =>
      rw [level_of_front direction] at inside
      refine (free.resolve_left ?_) ((turn.inside inside).2 active)
      rw [direction]
      exact Bool.false_ne_true

theorem opened (isOpen : Open st' c) :
    g.IsHeader c ∧ ¬ DoneOutside info done b c ∧ Active st' (info.enclosing c) := by
  obtain ⟨active,undone,-⟩ := turn.inv.taken turn.work
  rw [turn.active_iff]
  rcases turn.open_iff.mp isOpen with rfl | isOpen
  · exact ⟨turn.header,fun both => undone both.1,Or.inr active⟩
  · obtain ⟨header,undone,active⟩ := turn.inv.opened c isOpen
    exact ⟨header,fun both => undone both.1,Or.inr active⟩

/-- The edges of the header are inside of the loop, or they leave it. -/
theorem output (source : g.source e = b) :
    (info.loopExitEdge e = none ∧ level g dom info e = some b) ∨ info.loopExitEdge e = some b := by
  cases exit : info.loopExitEdge e with
  | none => exact Or.inl ⟨rfl,by rw [(level_of_stays turn.nest exit).2,source,turn.own]⟩
  | some k =>
    obtain ⟨-,-,same⟩ := level_of_exit turn.nest exit
    exact Or.inr (by rw [← same,source,turn.own])

theorem level_active (source : g.source e = b) : Active st' (level g dom info e) :=
  active_level turn.nest (fun _ isOpen => (turn.opened isOpen).2.2) (by
    rw [source,turn.own]
    exact turn.open_iff.mpr (Or.inl rfl))

theorem never (source : g.source e = b) (sent : Sent g dom info done e) : level g dom info e = some b := by
  rcases turn.output source with ⟨-,inside⟩ | exit
  · exact inside
  · exact absurd ((sent_of_exit turn.nest exit).mp sent) (turn.inv.taken turn.work).2.1

theorem core : Core g dom info (fun e => g.source e = b) st' (DoneOutside info done b) := by
  have inv := turn.inv
  have undone := (inv.taken turn.work).2.1
  refine ⟨fun c => turn.opened,fun e front after => ?_,fun h header after => ?_,fun h isOpen => ?_,
    fun e source active sent free => ?_,fun e present => ?_,fun e k source exit isOpen after => ?_,fun h isOpen => ?_⟩
  · obtain ⟨outside,sent⟩ := turn.order front after
    exact turn.keep outside sent
  · have differ : h ≠ b := by
      rintro rfl
      exact undone after.1
    rw [turn.fixed,Function.update_of_ne differ]
    exact inv.fixedDone h header after.1
  · rw [turn.fixed]
    by_cases same : h = b
    · rw [same,Function.update_self]
    · rw [Function.update_of_ne same]
      exact inv.fixedOpen h ((turn.open_iff.mp isOpen).resolve_left same)
  · have outside : level g dom info e ≠ some b := fun inside => turn.unsent source inside sent
    rw [turn.kept outside]
    refine inv.marked e id ((turn.active_iff.mp active).resolve_left outside) (less sent) ?_
    cases direction : isBackEdge g dom e with
    | true => exact Or.inl direction
    | false =>
      rw [level_of_front direction] at outside
      refine Or.inr fun after => (free.resolve_left ?_) ⟨after,outside⟩
      rw [direction]
      exact Bool.false_ne_true
  · obtain ⟨outside,before⟩ := turn.marked_outside present
    obtain ⟨active,free,sent⟩ := inv.waiting e before
    refine ⟨turn.active_iff.mpr (Or.inr active),free.imp id (fun undone both => undone both.1),sent.imp (turn.keep outside) ?_⟩
    rintro ⟨k,exit,isOpen⟩
    exact ⟨k,exit,turn.open_iff.mpr (Or.inr isOpen)⟩
  · have differ : k ≠ b := by
      rintro rfl
      rcases source_leaves turn.nest.scanned turn.nest.picked turn.nest.one exit with same | ⟨-,inside⟩
      · exact source same
      · exact after.elim source fun both => both.2 inside
    have isOpen := (turn.open_iff.mp isOpen).resolve_left differ
    rw [turn.marks,if_neg]
    · exact inv.exits e k id exit isOpen (after.imp id And.left)
    · rintro ⟨back,rfl⟩
      have around := back_leaves turn.nest.scanned turn.nest.picked turn.nest.one ((isBackEdge_iff turn.nest).mp back) exit
      exact (turn.inside around).1 isOpen
  · obtain ⟨s,states⟩ := turn.states
    rw [states]
    by_cases same : h = b
    · rw [same,Function.update_self]
      rfl
    · rw [Function.update_of_ne same]
      exact inv.states h ((turn.open_iff.mp isOpen).resolve_left same)

theorem undone (source : g.source e = b) : isEdgeDone g dom info st' e = false := by
  rw [← Bool.not_eq_true,isEdgeDone,Bool.or_eq_true,Bool.and_eq_true,Bool.and_eq_true]
  rintro (⟨present,released⟩ | ⟨direction,begins⟩)
  · rcases turn.output source with ⟨-,inside⟩ | exit
    · exact (turn.marked_outside present).1 inside
    · rw [exit,Option.all_some,turn.fixed,Function.update_self] at released
      cases released
  · have active := turn.level_active source
    rw [level_of_back direction] at active
    exact Bool.false_ne_true (active.symm.trans begins)

/-- A block that stays in the work list is outside of the loop and no target of the header. -/
theorem pending_outside (pending : Pending g dom info st done c) (apart : c ≠ b) :
    Pending g dom info st' (DoneOutside info done b) c ∧ ∀ e, g.source e = b → g.target e ≠ c := by
  have outside : info.enclosing c ≠ some b := by
    intro inside
    rcases pending with ⟨active,undone,-⟩ | ⟨isOpen,-⟩
    · rw [inside] at active
      exact undone ((turn.inside inside).2 active)
    · exact (turn.inside inside).1 isOpen
  refine ⟨?_,?_⟩
  · rcases pending with ⟨active,undone,closed,sent⟩ | ⟨isOpen,sent⟩
    · refine Or.inl ⟨turn.active_iff.mpr (Or.inr active),fun both => undone both.1,fun isOpen => ?_,fun e target front => ?_⟩
      · exact (turn.open_iff.mp isOpen).elim apart closed
      · refine turn.keep ?_ (sent e target front)
        rwa [level_of_front front,target]
    · refine Or.inr ⟨turn.open_iff.mpr (Or.inr isOpen),fun e target back => turn.keep ?_ (sent e target back)⟩
      rw [level_of_back back,target]
      exact fun same => apart (Option.some.inj same)
  · rintro e source rfl
    cases direction : isBackEdge g dom e with
    | true =>
      have active := turn.level_active source
      rw [level_of_back direction] at active
      rcases pending with ⟨-,-,closed,-⟩ | ⟨-,sent⟩
      · exact (turn.open_iff.mp active).elim apart closed
      · have same := turn.never source (sent e rfl direction)
        rw [level_of_back direction] at same
        exact apart (Option.some.inj same)
    | false =>
      refine outside ((level_of_front direction).symm.trans (turn.never source ?_))
      rcases pending with ⟨-,-,-,sent⟩ | ⟨isOpen,-⟩
      · exact sent e rfl direction
      · exact turn.inv.order e direction (Or.inr isOpen)

theorem pending_before (pending : Pending g dom info st' (DoneOutside info done b) c)
    (away : ∀ e, g.source e = b → g.target e ≠ c) : Pending g dom info st done c ∧ c ≠ b := by
  rcases pending with ⟨active,undone,closed,sent⟩ | ⟨isOpen,sent⟩
  · have outside : info.enclosing c ≠ some b := by
      intro inside
      obtain ⟨e,rfl,front⟩ := exists_front turn.nest (b := c) (by
        rintro rfl
        exact enclosing_entry turn.nest inside)
      exact turn.unsent (fun source => away e source rfl) ((level_of_front front).trans inside) (sent e rfl front)
    refine ⟨Or.inl ⟨(turn.active_iff.mp active).resolve_left outside,fun done => undone ⟨done,outside⟩,fun isOpen => ?_,
      fun e target front => less (sent e target front)⟩,fun same => closed (turn.open_iff.mpr (Or.inl same))⟩
    exact closed (turn.open_iff.mpr (Or.inr isOpen))
  · have apart : c ≠ b := by
      rintro rfl
      obtain ⟨a,⟨e,flow,rfl,rfl⟩,dominates⟩ := turn.header
      have back := (isBackEdge_iff turn.nest).mpr ⟨flow,dominates⟩
      exact turn.unsent (fun source => away e source rfl) (level_of_back back) (sent e rfl back)
    exact ⟨Or.inr ⟨(turn.open_iff.mp isOpen).resolve_left apart,fun e target back => less (sent e target back)⟩,apart⟩

theorem passing : Passing g dom info b st' (DoneOutside info done b) := by
  have inv := turn.inv
  have main := inv.notMain turn.nest turn.work turn.header
  refine ⟨turn.core,?_,Or.inl turn.header,fun e source => ?_,fun e source front target => ?_,fun e => turn.undone,fun c => ?_,
    turn.list ▸ inv.rest_nodup turn.work,turn.main.trans main,inv.started main,enclosing_entry turn.nest⟩
  · rw [turn.own]
    exact turn.open_iff.mpr (Or.inl rfl)
  · cases direction : isBackEdge g dom e with
    | true => exact Or.inl direction
    | false =>
      refine Or.inr fun after => ?_
      obtain ⟨outside,sent⟩ := turn.order direction (Or.inl after)
      exact outside (turn.never source sent)
  · obtain ⟨outside,sent⟩ := turn.order front (Or.inr target)
    exact outside (turn.never source sent)
  · rw [turn.list,inv.mem_rest turn.work]
    exact ⟨fun both => turn.pending_outside both.1 both.2,fun both => turn.pending_before both.1 both.2⟩

end Iteration

/-! ### The end of a loop -/

/-- The turn of a header whose loop has reached its fixpoint, before its exit edges are released. -/
structure Fixpoint (g : CFG n m) (dom : DominanceInfo n m) (info : LoopInfo n m) (b : Fin n) (rest : List (Fin n))
    (done : Fin n → Prop) (st st' : State n m S D) : Prop where
  nest : Nested g dom info
  inv : Inv g dom info st done
  work : st.workList = b :: rest
  isOpen : Open st b
  list : st'.workList = rest
  main : st'.mainEntry = st.mainEntry
  first : st'.firstIter = Function.update st.firstIter b true
  fixed : st'.fixed = Function.update st.fixed b true
  states : st'.fixPointState = Function.update st.fixPointState b none
  marks : ∀ e, st'.mark e = if g.target e = b then none else st.mark e

namespace Fixpoint
variable {st' : State n m S D} (turn : Fixpoint g dom info b rest done st st')
include turn

theorem header : g.IsHeader b := (turn.inv.opened b turn.isOpen).1

theorem own : own dom info b = some b := if_pos ((header_iff turn.nest).mpr turn.header)

theorem open_iff : Open st' c ↔ c ≠ b ∧ Open st c := by
  rw [Open,turn.first]
  by_cases same : c = b
  · simp [same]
  · simp [same,Open]

theorem active_iff {o : Option (Fin n)} : Active st' o ↔ o ≠ some b ∧ Active st o := by
  cases o with
  | none => simp [Active]
  | some c => simpa [Active] using turn.open_iff

theorem outside (undone : ¬ done c) : info.enclosing c ≠ some b := fun inside =>
  undone ((turn.inv.inside turn.nest turn.work inside).2 turn.isOpen)

theorem sent (target : g.target e = b) : Sent g dom info done e := by
  cases direction : isBackEdge g dom e with
  | true =>
    rcases (turn.inv.pending b).mp (by rw [turn.work]; exact List.mem_cons_self) with ⟨-,-,closed,-⟩ | ⟨-,sent⟩
    · exact absurd turn.isOpen closed
    · exact sent e target direction
  | false => exact turn.inv.order e direction (Or.inr (target ▸ turn.isOpen))

/-- What is sent now was sent before, but inside of the loop and by its exit edges. -/
theorem before (outside : level g dom info e ≠ some b) (stays : info.loopExitEdge e ≠ some b)
    (sent : Sent g dom info (DoneWith done b) e) : Sent g dom info done e := by
  rcases sent with same | after | unit
  · exact Or.inl same
  · exact Or.inr after
  · cases exit : info.loopExitEdge e with
    | none =>
      obtain ⟨same,level⟩ := level_of_stays turn.nest exit
      rw [same] at unit
      rw [level,unit,turn.own] at outside
      exact absurd rfl outside
    | some k =>
      rw [(level_of_exit turn.nest exit).1] at unit
      rw [exit,unit] at stays
      exact absurd rfl stays

theorem kept (target : g.target e ≠ b) : st'.mark e = st.mark e := by rw [turn.marks,if_neg target]

theorem exits (exit : info.loopExitEdge e = some b) : g.target e ≠ b ∧ (st.mark e).isSome := by
  have inv := turn.inv
  refine ⟨fun target => (inv.opened b turn.isOpen).2.1 ((sent_of_exit turn.nest exit).mp (turn.sent target)),
    inv.exits e b id exit turn.isOpen ?_⟩
  rcases source_leaves turn.nest.scanned turn.nest.picked turn.nest.one exit with same | ⟨-,inside⟩
  · exact Or.inl same
  · exact Or.inr ((inv.inside turn.nest turn.work inside).2 turn.isOpen)

theorem core : Core g dom info (fun _ => False) st' (DoneWith done b) := by
  have inv := turn.inv
  refine ⟨fun c isOpen => ?_,fun e front after => ?_,fun h header after => ?_,fun h isOpen => ?_,fun e _ active sent free => ?_,
    fun e present => ?_,fun e k _ exit isOpen after => ?_,fun h isOpen => ?_⟩
  · obtain ⟨apart,isOpen⟩ := turn.open_iff.mp isOpen
    obtain ⟨header,undone,active⟩ := inv.opened c isOpen
    exact ⟨header,fun after => after.elim undone apart,
      turn.active_iff.mpr ⟨fun inside => (inv.inside turn.nest turn.work inside).1 isOpen,active⟩⟩
  · refine Simple.more ?_
    rcases after with (done | target) | isOpen
    · exact inv.order e front (Or.inl done)
    · exact turn.sent target
    · exact inv.order e front (Or.inr (turn.open_iff.mp isOpen).2)
  · rw [turn.fixed]
    by_cases same : h = b
    · rw [same,Function.update_self]
    · rw [Function.update_of_ne same]
      exact inv.fixedDone h header (after.resolve_right same)
  · obtain ⟨apart,isOpen⟩ := turn.open_iff.mp isOpen
    rw [turn.fixed,Function.update_of_ne apart]
    exact inv.fixedOpen h isOpen
  · obtain ⟨outside,active⟩ := turn.active_iff.mp active
    have target : g.target e ≠ b := by
      intro target
      rcases free with back | undone
      · exact outside (target ▸ level_of_back back)
      · exact undone (Or.inr target)
    rw [turn.kept target]
    by_cases exit : info.loopExitEdge e = some b
    · exact (turn.exits exit).2
    · exact inv.marked e id active (turn.before outside exit sent) (free.imp id fun undone done => undone (Or.inl done))
  · have target : g.target e ≠ b := by
      intro target
      rw [turn.marks,if_pos target] at present
      cases present
    rw [turn.kept target] at present
    obtain ⟨active,free,sent⟩ := inv.waiting e present
    refine ⟨turn.active_iff.mpr ⟨?_,active⟩,free.imp id fun undone after => after.elim undone target,?_⟩
    · cases direction : isBackEdge g dom e with
      | true =>
        rw [level_of_back direction]
        exact fun same => target (Option.some.inj same)
      | false =>
        rw [level_of_front direction]
        refine turn.outside (free.resolve_left ?_)
        rw [direction]
        exact Bool.false_ne_true
    · rcases sent with sent | ⟨k,exit,isOpen⟩
      · exact Or.inl (Simple.more sent)
      · by_cases same : k = b
        · exact Or.inl ((sent_of_exit turn.nest exit).mpr (Or.inr same))
        · exact Or.inr ⟨k,exit,turn.open_iff.mpr ⟨same,isOpen⟩⟩
  · obtain ⟨apart,isOpen⟩ := turn.open_iff.mp isOpen
    have target : g.target e ≠ b := fun target =>
      (inv.opened k isOpen).2.1 ((sent_of_exit turn.nest exit).mp (turn.sent target))
    rw [turn.kept target]
    refine inv.exits e k id exit isOpen ?_
    rcases after with same | done | same
    · exact Or.inl same
    · exact Or.inr done
    · rcases source_leaves turn.nest.scanned turn.nest.picked turn.nest.one exit with own | ⟨plain,-⟩
      · exact Or.inl own
      · exact absurd (same ▸ turn.header) plain
  · obtain ⟨apart,isOpen⟩ := turn.open_iff.mp isOpen
    rw [turn.states,Function.update_of_ne apart]
    exact inv.states h isOpen

theorem pending_after (pending : Pending g dom info st done c) (apart : c ≠ b) :
    Pending g dom info st' (DoneWith done b) c ∧ ∀ e, info.loopExitEdge e = some b → g.target e ≠ c := by
  obtain ⟨-,undone,active⟩ := turn.inv.opened b turn.isOpen
  refine ⟨?_,?_⟩
  · rcases pending with ⟨active,undone,closed,sent⟩ | ⟨isOpen,sent⟩
    · exact Or.inl ⟨turn.active_iff.mpr ⟨turn.outside undone,active⟩,fun after => after.elim undone apart,
        fun isOpen => closed (turn.open_iff.mp isOpen).2,fun e target front => Simple.more (sent e target front)⟩
    · exact Or.inr ⟨turn.open_iff.mpr ⟨apart,isOpen⟩,fun e target back => Simple.more (sent e target back)⟩
  · rintro e exit rfl
    refine undone ((sent_of_exit turn.nest exit).mp ?_)
    cases direction : isBackEdge g dom e with
    | true =>
      rcases pending with ⟨-,-,closed,-⟩ | ⟨-,sent⟩
      · rw [back_leaves turn.nest.scanned turn.nest.picked turn.nest.one ((isBackEdge_iff turn.nest).mp direction) exit] at active
        exact absurd active closed
      · exact sent e rfl direction
    | false =>
      rcases pending with ⟨-,-,-,sent⟩ | ⟨isOpen,-⟩
      · exact sent e rfl direction
      · exact turn.inv.order e direction (Or.inr isOpen)

theorem pending_before (pending : Pending g dom info st' (DoneWith done b) c)
    (away : ∀ e, info.loopExitEdge e = some b → g.target e ≠ c) : Pending g dom info st done c ∧ c ≠ b := by
  rcases pending with ⟨active,undone,closed,sent⟩ | ⟨isOpen,sent⟩
  · obtain ⟨outside,active⟩ := turn.active_iff.mp active
    have apart : c ≠ b := fun same => undone (Or.inr same)
    refine ⟨Or.inl ⟨active,fun done => undone (Or.inl done),fun isOpen => closed (turn.open_iff.mpr ⟨apart,isOpen⟩),
      fun e target front => turn.before ?_ (fun exit => away e exit target) (sent e target front)⟩,apart⟩
    rwa [level_of_front front,target]
  · obtain ⟨apart,isOpen⟩ := turn.open_iff.mp isOpen
    refine ⟨Or.inr ⟨isOpen,fun e target back => turn.before ?_ (fun exit => away e exit target) (sent e target back)⟩,apart⟩
    rw [level_of_back back,target]
    exact fun same => apart (Option.some.inj same)

theorem leaving : Leaving g dom info b st' (DoneWith done b) := by
  have inv := turn.inv
  have main := inv.notMain turn.nest turn.work turn.header
  refine ⟨turn.core,fun e exit => ?_,fun e exit front target => ?_,fun c => ?_,turn.list ▸ inv.rest_nodup turn.work,
    turn.main.trans main,Or.inl (inv.started main)⟩
  · rw [turn.kept (turn.exits exit).1]
    exact (turn.exits exit).2
  · have sent := inv.order e front (Or.inr (turn.open_iff.mp target).2)
    exact (inv.opened b turn.isOpen).2.1 ((sent_of_exit turn.nest exit).mp sent)
  · rw [turn.list,inv.mem_rest turn.work]
    exact ⟨fun both => turn.pending_after both.1 both.2,fun both => turn.pending_before both.1 both.2⟩

end Fixpoint

section Release
variable (p : Problem n D)

variable (dom info b) in
theorem releaseExit_fold {edges : List (Fin m)} {added : List (Fin n)} (distinct : edges.Nodup)
    (present : ∀ e ∈ edges, (st.mark e).isSome) (apart : ∀ e ∈ edges, g.target e ∉ added → g.target e ∉ st.workList) :
    ∃ result, edges.foldlM (releaseExit g dom info p b) (st,added) = some result ∧
      (∀ e, result.1.mark e = if e ∈ edges then (st.mark e).map fun s => p.leaveContext s b else st.mark e) ∧
      result.1 = { st with mark := result.1.mark, workList := result.1.workList } ∧
      (∀ c, c ∈ result.1.workList ↔
        c ∈ st.workList ∨ c ∉ added ∧ (∃ e ∈ edges, g.target e = c) ∧ isReady g dom info st c = true) ∧
      (st.workList.Nodup → result.1.workList.Nodup) := by
  induction edges generalizing st added with
  | nil => exact ⟨(st,added),rfl,fun e => by simp,rfl,fun c => by simp,id⟩
  | cons e edges ih =>
    obtain ⟨fresh,distinct⟩ := List.nodup_cons.mp distinct
    obtain ⟨s,mark⟩ := Option.isSome_iff_exists.mp (present e List.mem_cons_self)
    -- the turn pushes the target or not, and marks the edge again
    obtain ⟨push,added',turn,pushes⟩ : ∃ push added', releaseExit g dom info p b (st,added) e =
        some ({ st with mark := Function.update st.mark e (some (p.leaveContext s b)), workList := push },added') ∧
        (g.target e ∉ added ∧ isReady g dom info st (g.target e) = true ∧
          push = g.target e :: st.workList ∧ added' = g.target e :: added ∨
        ¬ (g.target e ∉ added ∧ isReady g dom info st (g.target e) = true) ∧ push = st.workList ∧ added' = added) := by
      by_cases test : g.target e ∉ added ∧ isReady g dom info st (g.target e) = true
      · refine ⟨_,_,?_,Or.inl ⟨test.1,test.2,rfl,rfl⟩⟩
        simp [releaseExit,test,tryAddToWorkList,mark]
      · refine ⟨_,_,?_,Or.inr ⟨test,rfl,rfl⟩⟩
        simp only [releaseExit,if_neg test,mark,Option.map_some]
    set st1 : State n m S D := { st with mark := Function.update st.mark e (some (p.leaveContext s b)), workList := push }
      with st1_eq
    have left : st1.mark e = some (p.leaveContext s b) := Function.update_self ..
    have elsewhere {e' : Fin m} (differ : e' ≠ e) : st1.mark e' = st.mark e' := Function.update_of_ne differ _ _
    have other {e' : Fin m} (member : e' ∈ edges) : st1.mark e' = st.mark e' := by
      refine elsewhere ?_
      rintro rfl
      exact fresh member
    have ready (c : Fin n) : isReady g dom info st1 c = isReady g dom info st c := by
      refine isReady_congr rfl rfl fun a _ _ => ?_
      by_cases same : a = e
      · rw [same,mark,left]
        rfl
      · rw [elsewhere same]
    obtain ⟨result,run,marks,same,pushed,nodup⟩ := @ih st1 added' distinct
      (fun e' member => by
        rw [other member]
        exact present e' (List.mem_cons_of_mem _ member))
      (fun e' member outside => by
        have away := apart e' (List.mem_cons_of_mem _ member)
        rcases pushes with ⟨-,-,rfl,rfl⟩ | ⟨-,rfl,rfl⟩
        · rw [List.mem_cons,not_or] at outside
          exact fun inside => (List.mem_cons.mp inside).elim outside.1 (away outside.2)
        · exact away outside)
    refine ⟨result,?_,fun e' => ?_,?_,fun c => ?_,fun before => nodup ?_⟩
    · rw [List.foldlM_cons,turn]
      exact run
    · rw [marks]
      by_cases here : e' = e
      · rw [here,if_neg fresh,if_pos List.mem_cons_self,mark,left]
        rfl
      · by_cases member : e' ∈ edges
        · rw [if_pos member,if_pos (List.mem_cons_of_mem _ member),other member]
        · rw [if_neg member,if_neg (by simp [here,member]),elsewhere here]
    · rw [same]
    · rw [pushed,ready]
      simp only [List.mem_cons,exists_eq_or_imp]
      rcases pushes with ⟨away,yes,rfl,rfl⟩ | ⟨test,rfl,rfl⟩
      · by_cases here : c = g.target e
        · subst here
          simp [st1_eq,away,yes]
        · simp [st1_eq,here,Ne.symm here]
      · by_cases here : c = g.target e
        · subst here
          simp only [st1_eq]
          tauto
        · simp [st1_eq,Ne.symm here]
    · rcases pushes with ⟨away,-,rfl,-⟩ | ⟨-,rfl,-⟩
      · exact List.nodup_cons.mpr ⟨apart e List.mem_cons_self away,before⟩
      · exact before

theorem mem_exitList (picked : info.Picked g) : e ∈ info.exitList b ↔ info.loopExitEdge e = some b := by
  rw [picked.lists b,List.mem_filter,decide_eq_true_iff,and_iff_right_iff_imp]
  exact fun _ => List.mem_flatMap.mpr ⟨g.source e,List.mem_finRange _,g.mem_outs.mpr rfl⟩

theorem Leaving.inv (nest : Nested g dom info) (leaving : Leaving g dom info b st done) :
    ∃ result, (info.exitList b).foldlM (releaseExit g dom info p b) (st,[]) = some result ∧ Inv g dom info result.1 done ∧
      (∀ e, result.1.mark e =
        if info.loopExitEdge e = some b then (st.mark e).map fun s => p.leaveContext s b else st.mark e) ∧
      result.1 = { st with mark := result.1.mark, workList := result.1.workList } := by
  have distinct : (info.exitList b).Nodup := by
    rw [nest.picked.lists b]
    exact (nodup_edges g).filter _
  obtain ⟨result,run,marks,same,pushed,nodup⟩ := releaseExit_fold dom info b p distinct
    (fun e member => leaving.released e ((mem_exitList nest.picked).mp member))
    (fun e member _ inside => ((leaving.rest _).mp inside).2 e ((mem_exitList nest.picked).mp member) rfl)
  simp only [mem_exitList nest.picked] at marks pushed
  refine ⟨result,run,?_,marks,same⟩
  have marked (e : Fin m) : (result.1.mark e).isSome = (st.mark e).isSome := by
    rw [marks]
    split
    · rw [Option.isSome_map]
    · rfl
  generalize result.1 = st' at *
  have core : Core g dom info (fun _ => False) st' done := by
    generalize st'.mark = marks,st'.workList = workList at same marked
    subst same
    refine ⟨leaving.opened,leaving.order,leaving.fixedDone,leaving.fixedOpen,?_,?_,?_,leaving.states⟩
    · intro e free active sent waits
      exact (marked e).trans (leaving.marked e free active sent waits)
    · intro e present
      exact leaving.waiting e ((marked e).symm.trans present)
    · intro e k free exit isOpen after
      exact (marked e).trans (leaving.exits e k free exit isOpen after)
  have fields : st'.firstIter = st.firstIter ∧ st'.mainEntry = st.mainEntry := by
    rw [same]
    exact ⟨rfl,rfl⟩
  have pending (c : Fin n) : Pending g dom info st' done c ↔ Pending g dom info st done c := by
    unfold Pending Active Open
    rw [fields.1]
  refine ⟨core,fun c => ?_,nodup leaving.nodup,fun main => ?_,fun _ => leaving.started⟩
  · rw [pushed,leaving.rest,pending]
    constructor
    · rintro (⟨holds,-⟩ | ⟨-,⟨e,-,rfl⟩,ready⟩)
      · exact holds
      · exact (leaving.toCore.ready_iff nest (target_ne_entry nest e)).mp ready
    · intro holds
      by_cases target : ∃ e, info.loopExitEdge e = some b ∧ g.target e = c
      · obtain ⟨e,exit,rfl⟩ := target
        exact Or.inr ⟨List.not_mem_nil,⟨e,exit,rfl⟩,(leaving.toCore.ready_iff nest (target_ne_entry nest e)).mpr holds⟩
      · exact Or.inl ⟨holds,fun e exit same => target ⟨e,exit,same⟩⟩
  · rw [fields.2,leaving.main] at main
    cases main

end Release

end Otawa.Hai
