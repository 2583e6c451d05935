import Otawa.HalfAbsInt
import Mathlib.Data.List.Nodup

/-!
What is on the edges and in the work list of the engine between two turns, for loops
nested so that no edge leaves two of them. A block is done when it was processed in the
present iteration of its loop, a header when the fixpoint of its loop was reached; a loop
is open from its first iteration to its fixpoint. The work list has the blocks that
wait for no other one, each once, so that no assertion of the engine fails.
-/
namespace Otawa.Hai
open Otawa.Cfg

universe u
variable {n m : Nat} {S D : Type u}

/-- A graph without calls, with what `Dominance` and `LoopInfoBuilder` leave, where no
    edge leaves two loops. -/
structure Nested (g : CFG n m) (dom : DominanceInfo n m) (info : LoopInfo n m) : Prop where
  scanned : g.Scanned
  exact_ : dom.Exact g
  picked : info.Picked g
  one : g.OneLeft
  flow : ∀ e, g.kind e ≠ .call
  reachable : ∀ b, g.Reachable b

section Shape
variable (g : CFG n m) (dom : DominanceInfo n m) (info : LoopInfo n m)

/-- The loop in which an edge goes from its unit to its target. -/
def level (e : Fin m) : Option (Fin n) := if isBackEdge g dom e then some (g.target e) else info.enclosing (g.target e)

/-- The loop whose iteration a block takes part in. -/
def own (b : Fin n) : Option (Fin n) := if dom.loopHeader b then some b else info.enclosing b

variable {g dom info} in
theorem level_of_back {e : Fin m} (back : isBackEdge g dom e = true) : level g dom info e = some (g.target e) := if_pos back

variable {g dom info} in
theorem level_of_front {e : Fin m} (front : isBackEdge g dom e = false) : level g dom info e = info.enclosing (g.target e) := by
  rw [level,front,if_neg Bool.false_ne_true]

variable {g : CFG n m} {dom : DominanceInfo n m} {info : LoopInfo n m} (nest : Nested g dom info) {e : Fin m} {b h k : Fin n}

theorem mem_ins {e : Fin m} (flow : ∀ e, g.kind e ≠ .call) : e ∈ g.ins b ↔ g.target e = b := by simp [flow]

include nest

theorem isBackEdge_iff : isBackEdge g dom e = true ↔ g.IsBack e := by
  obtain ⟨answer,asked,right⟩ := dominates_spec nest.exact_.dominators (nest.reachable (g.source e)) (g.target e)
  rw [isBackEdge,asked,CFG.IsBack,and_iff_right (nest.flow e),← right]
  cases answer <;> simp

theorem isFront_iff : isBackEdge g dom e = false ↔ g.IsFront e := by
  rw [← Bool.not_eq_true,isBackEdge_iff nest,CFG.IsBack,CFG.IsFront,and_iff_right (nest.flow e),and_iff_right (nest.flow e)]

theorem header_iff : dom.loopHeader h = true ↔ g.IsHeader h := loopHeader_iff nest.exact_

theorem header_of_back (back : isBackEdge g dom e = true) : g.IsHeader (g.target e) := by
  obtain ⟨flow,dominates⟩ := (isBackEdge_iff nest).mp back
  exact ⟨_,⟨e,flow,rfl,rfl⟩,dominates⟩

theorem enclosing_ne (inside : info.enclosing b = some h) : b ≠ h := (enclosing_body nest.picked inside).ne

theorem level_of_stays (stays : info.loopExitEdge e = none) :
    info.unit g e = g.source e ∧ level g dom info e = own dom info (g.source e) := by
  refine ⟨(unit_of_not_exit nest.picked stays).1,?_⟩
  unfold level own
  cases back : isBackEdge g dom e with
  | true =>
    have isBack := (isBackEdge_iff nest).mp back
    rcases back_stays nest.scanned nest.picked isBack stays with same | ⟨plain,inside⟩
    · have header := (header_iff nest).mpr (header_of_back nest back)
      rw [same,if_pos rfl,if_pos header]
    · have plain : dom.loopHeader (g.source e) = false := by rwa [← Bool.not_eq_true,header_iff nest]
      rw [plain,inside]
      rfl
  | false =>
    have isFront := (isFront_iff nest).mp back
    rcases front_stays nest.scanned nest.picked isFront stays with ⟨header,inside⟩ | ⟨plain,inside⟩
    · rw [(header_iff nest).mpr header,inside]
      rfl
    · have plain : dom.loopHeader (g.source e) = false := by rwa [← Bool.not_eq_true,header_iff nest]
      rw [plain,inside]
      rfl

theorem level_of_exit (exit : info.loopExitEdge e = some k) :
    info.unit g e = k ∧ level g dom info e = info.enclosing k ∧ own dom info (g.source e) = some k := by
  refine ⟨unit_of_exit exit,?_,?_⟩
  · unfold level
    cases back : isBackEdge g dom e with
    | true => exact (back_leaves nest.scanned nest.picked nest.one ((isBackEdge_iff nest).mp back) exit).symm
    | false => exact front_leaves nest.scanned nest.picked nest.one ((isFront_iff nest).mp back) exit
  · unfold own
    rcases source_leaves nest.scanned nest.picked nest.one exit with same | ⟨plain,inside⟩
    · have header := (leaves_of_exit nest.picked exit).2.1.1
      rw [same,(header_iff nest).mpr header]
      rfl
    · have plain : dom.loopHeader (g.source e) = false := by rwa [← Bool.not_eq_true,header_iff nest]
      rw [plain,inside]
      rfl

theorem exit_header (exit : info.loopExitEdge e = some k) : g.IsHeader k := (leaves_of_exit nest.picked exit).2.1.1

theorem level_unit : level g dom info e = some (info.unit g e) ∨ level g dom info e = info.enclosing (info.unit g e) := by
  cases exit : info.loopExitEdge e with
  | none =>
    obtain ⟨unit,same⟩ := level_of_stays nest exit
    rw [unit,same,own]
    split
    · exact Or.inl rfl
    · exact Or.inr rfl
  | some k =>
    obtain ⟨unit,same,-⟩ := level_of_exit nest exit
    rw [unit,same]
    exact Or.inr rfl

theorem target_ne_entry (e : Fin m) : g.target e ≠ g.entry := nest.scanned.entryFirst e (nest.flow e)

theorem entry_plain : ¬ g.IsHeader g.entry := by
  rintro ⟨_,⟨e,flow,-,target⟩,-⟩
  exact nest.scanned.entryFirst e flow target

theorem enclosing_entry : info.enclosing g.entry ≠ some h := by
  intro inside
  have body := enclosing_body nest.picked inside
  obtain rfl := List.mem_singleton.mp (body.dominates _ .root)
  exact entry_plain nest body.header

theorem exists_front (inner : b ≠ g.entry) : ∃ e, g.target e = b ∧ isBackEdge g dom e = false := by
  obtain ⟨a,⟨e,flow,rfl,rfl⟩,front⟩ := (nest.reachable b).entered inner
  exact ⟨e,rfl,(isFront_iff nest).mpr ⟨flow,front⟩⟩

end Shape

/-- The loop of a header is between its first iteration and its fixpoint. -/
def Open (st : State n m S D) (b : Fin n) : Prop := st.firstIter b = false

/-- A loop whose blocks may be processed; there is always one around all loops. -/
def Active (st : State n m S D) : Option (Fin n) → Prop
  | none => True
  | some h => Open st h

section Invariant
variable (g : CFG n m) (dom : DominanceInfo n m) (info : LoopInfo n m)

def Sent (done : Fin n → Prop) (e : Fin m) : Prop := level g dom info e = some (info.unit g e) ∨ done (info.unit g e)

def Waits (done : Fin n → Prop) (e : Fin m) : Prop := isBackEdge g dom e = true ∨ ¬ done (g.target e)

/-- A block that waits for no other one: its loop can start, or go on. -/
def Pending (st : State n m S D) (done : Fin n → Prop) (b : Fin n) : Prop :=
  (Active st (info.enclosing b) ∧ ¬ done b ∧ ¬ Open st b ∧
    ∀ e, g.target e = b → isBackEdge g dom e = false → Sent g dom info done e) ∨
  (Open st b ∧ ∀ e, g.target e = b → isBackEdge g dom e = true → Sent g dom info done e)

/-- The marks by what is done and open, but for some edges that are not marked yet. -/
structure Core (exempt : Fin m → Prop) (st : State n m S D) (done : Fin n → Prop) : Prop where
  opened : ∀ b, Open st b → g.IsHeader b ∧ ¬ done b ∧ Active st (info.enclosing b)
  order : ∀ e, isBackEdge g dom e = false → done (g.target e) ∨ Open st (g.target e) → Sent g dom info done e
  fixedDone : ∀ h, g.IsHeader h → done h → st.fixed h = true
  fixedOpen : ∀ h, Open st h → st.fixed h = false
  marked : ∀ e, ¬ exempt e → Active st (level g dom info e) → Sent g dom info done e → Waits g dom done e →
    (st.mark e).isSome
  waiting : ∀ e, (st.mark e).isSome → Active st (level g dom info e) ∧ Waits g dom done e ∧
    (Sent g dom info done e ∨ ∃ k, info.loopExitEdge e = some k ∧ Open st k)
  exits : ∀ e k, ¬ exempt e → info.loopExitEdge e = some k → Open st k → g.source e = k ∨ done (g.source e) →
    (st.mark e).isSome
  states : ∀ h, Open st h → (st.fixPointState h).isSome

/-- The state between two turns. -/
structure Inv (st : State n m S D) (done : Fin n → Prop) : Prop extends Core g dom info (fun _ => False) st done where
  pending : ∀ b, b ∈ st.workList ↔ Pending g dom info st done b
  nodup : st.workList.Nodup
  main : st.mainEntry = true → st.workList = [g.entry]
  started : st.mainEntry = false → done g.entry

/-- The state while a block is processed, before its output edges are marked. -/
structure Passing (b : Fin n) (st : State n m S D) (done : Fin n → Prop) : Prop
    extends Core g dom info (fun e => g.source e = b) st done where
  active : Active st (own dom info b)
  sent : g.IsHeader b ∨ done b
  free : ∀ e, g.source e = b → Waits g dom done e
  closed : ∀ e, g.source e = b → isBackEdge g dom e = false → ¬ Open st (g.target e)
  undone : ∀ e, g.source e = b → isEdgeDone g dom info st e = false
  rest : ∀ c, c ∈ st.workList ↔ Pending g dom info st done c ∧ ∀ e, g.source e = b → g.target e ≠ c
  nodup : st.workList.Nodup
  main : st.mainEntry = false
  started : done g.entry

variable {g dom info} (nest : Nested g dom info) {st : State n m S D} {done : Fin n → Prop} {exempt : Fin m → Prop}
  {b c h k : Fin n} {e : Fin m}
include nest

theorem sent_of_exit (exit : info.loopExitEdge e = some k) : Sent g dom info done e ↔ done k := by
  obtain ⟨unit,same,-⟩ := level_of_exit nest exit
  rw [Sent,unit,same]
  refine or_iff_right fun own => ?_
  exact enclosing_ne nest own rfl

theorem active_level (around : ∀ b, Open st b → Active st (info.enclosing b)) (active : Active st (own dom info (g.source e))) :
    Active st (level g dom info e) := by
  cases exit : info.loopExitEdge e with
  | none =>
    rw [(level_of_stays nest exit).2]
    exact active
  | some k =>
    obtain ⟨-,level,own⟩ := level_of_exit nest exit
    rw [own] at active
    rw [level]
    exact around k active

/-- Between two turns the test of the work list is that the block waits for no other one. -/
theorem Core.ready_iff (core : Core g dom info (fun _ => False) st done) (inner : b ≠ g.entry) :
    isReady g dom info st b = true ↔ Pending g dom info st done b := by
  have tested {e : Fin m} : isEdgeDone g dom info st e = true ↔
      ((st.mark e).isSome ∧ ∀ k, info.loopExitEdge e = some k → st.fixed k = true) ∨
        isBackEdge g dom e = true ∧ ¬ Open st (g.target e) := by
    simp [isEdgeDone,Open,Option.all_eq_true]
  have fixed {e : Fin m} {k : Fin n} (exit : info.loopExitEdge e = some k) (sent : Sent g dom info done e) : st.fixed k = true :=
    core.fixedDone k (exit_header nest exit) ((sent_of_exit nest exit).mp sent)
  have sent {e : Fin m} (mark : (st.mark e).isSome) (released : ∀ k, info.loopExitEdge e = some k → st.fixed k = true) :
      Sent g dom info done e := by
    rcases (core.waiting e mark).2.2 with sent | ⟨k,exit,isOpen⟩
    · exact sent
    · have closed := core.fixedOpen k isOpen
      rw [released k exit] at closed
      cases closed
  have marked {e : Fin m} (active : Active st (level g dom info e)) (sent : Sent g dom info done e)
      (waits : Waits g dom done e) : isEdgeDone g dom info st e = true :=
    tested.mpr (Or.inl ⟨core.marked e id active sent waits,fun k exit => fixed exit sent⟩)
  rw [isReady,List.all_eq_true]
  simp only [mem_ins nest.flow]
  constructor
  · intro ready
    by_cases isOpen : Open st b
    · refine Or.inr ⟨isOpen,?_⟩
      rintro e rfl back
      rcases tested.mp (ready e rfl) with ⟨mark,released⟩ | ⟨-,closed⟩
      · exact sent mark released
      · exact absurd isOpen closed
    · have known {e : Fin m} (target : g.target e = b) (forward : isBackEdge g dom e = false) :
          (st.mark e).isSome ∧ ∀ k, info.loopExitEdge e = some k → st.fixed k = true := by
        rcases tested.mp (ready e target) with both | ⟨back,-⟩
        · exact both
        · rw [forward] at back
          cases back
      obtain ⟨e,rfl,forward⟩ := exists_front nest inner
      obtain ⟨active,waits,-⟩ := core.waiting e (known rfl forward).1
      rw [level_of_front forward] at active
      refine Or.inl ⟨active,waits.resolve_left (by simp [forward]),isOpen,fun e' target forward => ?_⟩
      exact sent (known target forward).1 (known target forward).2
  · rintro (⟨active,undone,closed,sents⟩ | ⟨isOpen,sents⟩) e rfl
    · cases direction : isBackEdge g dom e with
      | true => exact tested.mpr (Or.inr ⟨direction,closed⟩)
      | false => exact marked (by rwa [level_of_front direction]) (sents e rfl direction) (Or.inr undone)
    · obtain ⟨-,undone,active⟩ := core.opened _ isOpen
      cases direction : isBackEdge g dom e with
      | true => exact marked (by rwa [level_of_back direction]) (sents e rfl direction) (Or.inl direction)
      | false => exact marked (by rwa [level_of_front direction]) (core.order e direction (Or.inr isOpen)) (Or.inr undone)

end Invariant

section Marking
variable (g : CFG n m) (dom : DominanceInfo n m) (info : LoopInfo n m) [SemilatticeSup D] [OrderBot D]

structure Marks (out : D) (edges : List (Fin m)) (st st' : State n m S D) : Prop where
  mark : ∀ e, st'.mark e = if e ∈ edges then some ((st.mark e).getD ⊥ ⊔ out) else st.mark e
  same : st' = { st with mark := st'.mark, workList := st'.workList }
  pushed : ∀ c, c ∈ st'.workList ↔ c ∈ st.workList ∨ (∃ e ∈ edges, g.target e = c) ∧ isReady g dom info st' c = true
  nodup : st.workList.Nodup → st'.workList.Nodup

variable {g dom info} {st st' : State n m S D}

omit [SemilatticeSup D] [OrderBot D] in
theorem isReady_congr {c : Fin n} (first : st'.firstIter = st.firstIter) (fixed : st'.fixed = st.fixed)
    (marks : ∀ e, g.kind e ≠ .call → g.target e = c → (st'.mark e).isSome = (st.mark e).isSome) :
    isReady g dom info st' c = isReady g dom info st c := by
  unfold isReady isEdgeDone
  rw [first,fixed]
  refine Bool.eq_iff_iff.mpr ?_
  rw [List.all_eq_true,List.all_eq_true]
  refine forall₂_congr fun e member => ?_
  obtain ⟨flow,target⟩ := g.mem_ins.mp member
  rw [marks e flow target]

omit [SemilatticeSup D] [OrderBot D] in
theorem isReady_done {e : Fin m} (flow : g.kind e ≠ .call) (ready : isReady g dom info st (g.target e) = true) :
    isEdgeDone g dom info st e = true :=
  List.all_eq_true.mp ready e (g.mem_ins.mpr ⟨flow,rfl⟩)

theorem addSuccessor_fold {out : D} {edges : List (Fin m)} (distinct : edges.Nodup) (flow : ∀ e ∈ edges, g.kind e ≠ .call)
    (undone : ∀ e ∈ edges, isEdgeDone g dom info st e = false) (apart : ∀ e ∈ edges, g.target e ∉ st.workList) :
    Marks g dom info out edges st (edges.foldl (addSuccessor g dom info out) st) := by
  induction edges generalizing st with
  | nil => exact ⟨fun e => by simp,rfl,fun c => by simp,id⟩
  | cons e edges ih =>
    obtain ⟨fresh,distinct⟩ := List.nodup_cons.mp distinct
    rw [List.foldl_cons]
    set st1 : State n m S D := { st with mark := Function.update st.mark e (some ((st.mark e).getD ⊥ ⊔ out)) } with marked
    have pushed : addSuccessor g dom info out st e =
        if isReady g dom info st1 (g.target e) then { st1 with workList := g.target e :: st.workList } else st1 := rfl
    have other {e' : Fin m} (member : e' ∈ edges) : st1.mark e' = st.mark e' := by
      refine Function.update_of_ne ?_ _ _
      rintro rfl
      exact fresh member
    have undone' {e' : Fin m} (member : e' ∈ edges) : isEdgeDone g dom info st1 e' = false := by
      rw [← undone e' (List.mem_cons_of_mem _ member),isEdgeDone,other member]
      rfl
    -- no other edge to the target remains when it is pushed
    have last (ready : isReady g dom info st1 (g.target e) = true) {e' : Fin m} (member : e' ∈ edges) :
        g.target e' ≠ g.target e := by
      intro same
      have done := isReady_done (flow e' (List.mem_cons_of_mem _ member)) (same ▸ ready)
      rw [undone' member] at done
      cases done
    have step := @ih (addSuccessor g dom info out st e) distinct (fun e' member => flow e' (List.mem_cons_of_mem _ member))
      (fun e' member => by rw [pushed]; split <;> exact undone' member) (fun e' member => by
        have away := apart e' (List.mem_cons_of_mem _ member)
        rw [pushed]
        split
        next ready => exact fun inside => (List.mem_cons.mp inside).elim (last ready member) away
        next => exact away)
    generalize edges.foldl (addSuccessor g dom info out) (addSuccessor g dom info out st e) = st' at step
    obtain ⟨mark,same,push,nodup⟩ := step
    have fields : (addSuccessor g dom info out st e).mark = st1.mark ∧ st'.firstIter = st1.firstIter ∧ st'.fixed = st1.fixed := by
      rw [same,pushed]
      split <;> exact ⟨rfl,rfl,rfl⟩
    obtain ⟨kept,first,fixed⟩ := fields
    refine ⟨fun e' => ?_,?_,fun c => ?_,fun before => nodup ?_⟩
    · rw [mark,kept]
      by_cases here : e' = e
      · subst here
        simp [fresh,st1]
      · by_cases member : e' ∈ edges
        · simp [member,other member]
        · simp [member,here,st1]
    · rw [same,pushed]
      split <;> rfl
    · rw [push]
      by_cases again : ∃ e' ∈ edges, g.target e' = g.target e
      · obtain ⟨e',member,target⟩ := again
        have waits : ¬ isReady g dom info st1 (g.target e) = true := fun ready => last ready member target
        rw [pushed,if_neg waits]
        refine or_congr Iff.rfl (and_congr_left fun _ => ⟨?_,?_⟩)
        · rintro ⟨a,inside,rfl⟩
          exact ⟨a,List.mem_cons_of_mem _ inside,rfl⟩
        · rintro ⟨a,inside,rfl⟩
          rcases List.mem_cons.mp inside with rfl | inside
          · exact ⟨e',member,target⟩
          · exact ⟨a,inside,rfl⟩
      · have ready : isReady g dom info st' (g.target e) = isReady g dom info st1 (g.target e) := by
          refine isReady_congr first fixed fun a _ target => ?_
          rw [mark,kept,if_neg fun inside => again ⟨a,inside,target⟩]
        have now : c ∈ (addSuccessor g dom info out st e).workList ↔
            c ∈ st.workList ∨ g.target e = c ∧ isReady g dom info st' c = true := by
          rw [pushed]
          split
          next yes =>
            rw [List.mem_cons]
            refine ⟨?_,?_⟩
            · rintro (rfl | inside)
              · exact Or.inr ⟨rfl,ready.trans yes⟩
              · exact Or.inl inside
            · rintro (inside | ⟨rfl,-⟩)
              · exact Or.inr inside
              · exact Or.inl rfl
          next no =>
            refine ⟨Or.inl,?_⟩
            rintro (inside | ⟨rfl,yes⟩)
            · exact inside
            · exact absurd (ready.symm.trans yes) no
        rw [now]
        simp only [List.mem_cons,exists_eq_or_imp]
        rw [or_and_right,or_assoc]
    · rw [pushed]
      split
      · exact List.nodup_cons.mpr ⟨apart e List.mem_cons_self,before⟩
      · exact before

/-- Once its output edges are marked, a block leaves the state as between two turns. -/
theorem Passing.inv (nest : Nested g dom info) {done : Fin n → Prop} {b : Fin n} {out : D}
    (passing : Passing g dom info b st done) (marks : Marks g dom info out (g.outs b) st st') : Inv g dom info st' done := by
  obtain ⟨mark,same,pushed,nodup⟩ := marks
  have marked {e : Fin m} (source : g.source e = b) : (st'.mark e).isSome := by
    rw [mark,if_pos (g.mem_outs.mpr source)]
    rfl
  have kept {e : Fin m} (source : g.source e ≠ b) : st'.mark e = st.mark e := by
    rw [mark,if_neg (fun inside => source (g.mem_outs.mp inside))]
  have core : Core g dom info (fun _ => False) st' done := by
    generalize st'.mark = marks,st'.workList = workList at same marked kept
    subst same
    refine ⟨passing.opened,passing.order,passing.fixedDone,passing.fixedOpen,fun e _ active sent waits => ?_,
      fun e some => ?_,fun e k _ exit isOpen sent => ?_,passing.states⟩
    · by_cases source : g.source e = b
      · exact marked source
      · exact (congrArg Option.isSome (kept source)).trans (passing.marked e source active sent waits)
    · by_cases source : g.source e = b
      · have active := passing.active
        refine ⟨active_level nest (fun c isOpen => (passing.opened c isOpen).2.2) (source ▸ active),passing.free e source,?_⟩
        cases exit : info.loopExitEdge e with
        | none =>
          obtain ⟨unit,level⟩ := level_of_stays nest exit
          rw [source] at unit level
          rw [Sent,unit,level,own]
          rcases passing.sent with header | done
          · exact Or.inl (Or.inl (if_pos ((header_iff nest).mpr header)))
          · exact Or.inl (Or.inr done)
        | some k =>
          obtain ⟨-,-,own⟩ := level_of_exit nest exit
          rw [source] at own
          rw [own] at active
          exact Or.inr ⟨k,rfl,active⟩
      · exact passing.waiting e ((kept source) ▸ some)
    · by_cases source : g.source e = b
      · exact marked source
      · exact (congrArg Option.isSome (kept source)).trans (passing.exits e k source exit isOpen sent)
  have fields : st'.firstIter = st.firstIter ∧ st'.mainEntry = st.mainEntry := by
    rw [same]
    exact ⟨rfl,rfl⟩
  have pending (c : Fin n) : Pending g dom info st' done c ↔ Pending g dom info st done c := by
    unfold Pending Active Open
    rw [fields.1]
  refine ⟨core,fun c => ?_,nodup passing.nodup,fun main => ?_,fun _ => passing.started⟩
  · rw [pushed,passing.rest,← pending]
    constructor
    · rintro (⟨holds,-⟩ | ⟨⟨e,-,rfl⟩,ready⟩)
      · exact holds
      · exact (core.ready_iff nest (target_ne_entry nest e)).mp ready
    · intro holds
      by_cases target : ∃ e, g.source e = b ∧ g.target e = c
      · obtain ⟨e,source,rfl⟩ := target
        exact Or.inr ⟨⟨e,g.mem_outs.mpr source,rfl⟩,(core.ready_iff nest (target_ne_entry nest e)).mpr holds⟩
      · exact Or.inl ⟨holds,fun e source same => target ⟨e,source,same⟩⟩
  · rw [fields.2,passing.main] at main
    cases main

end Marking

end Otawa.Hai
