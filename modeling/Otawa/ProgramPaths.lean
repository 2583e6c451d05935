import Otawa.LoopNest
import Otawa.Ilp

/-!
Programs of several CFGs with the dominance and the loops found in each of them, and the
paths of their executions, with the calls. A path comes into a loop by the edges that
lead to its header from blocks that the header does not dominate, and is in none of its
blocks before (`Path.entered`, `count_enters`).
-/
namespace Otawa.Cat2
open Otawa.Cfg

/-- The collected CFGs, with the results of `Dominance` and of `LoopInfoBuilder`. -/
structure Program where
  cfgs : Nat
  blocks : Fin cfgs → Nat
  edges : Fin cfgs → Nat
  cfg (f : Fin cfgs) : CFG (blocks f) (edges f)
  exit (f : Fin cfgs) : Fin (blocks f)
  calledCFG (f : Fin cfgs) : Fin (edges f) → Option (Fin cfgs)
  entryCFG : Fin cfgs
  dom (f : Fin cfgs) : DominanceInfo (blocks f) (edges f)
  loops (f : Fin cfgs) : LoopInfo (blocks f) (edges f)
  scanned (f : Fin cfgs) : (cfg f).Scanned
  dominance (f : Fin cfgs) : processDominance (cfg f) = some (dom f)
  loopInfo (f : Fin cfgs) : processLoopInfo (cfg f) (dom f) = some (loops f)

/-- What happens in an execution: a block is executed, with the l-blocks that miss the
    cache, or an edge is taken. -/
inductive Event (Block Edge L : Type)
  | block (b : Block) (misses : L → Bool)
  | edge (e : Edge)

namespace Event
variable {Block Edge L : Type}

def block? : Event Block Edge L → Option Block
  | .block b _ => some b
  | .edge _ => none

def edge? : Event Block Edge L → Option Edge
  | .block _ _ => none
  | .edge e => some e

end Event

namespace Program
variable (p : Program)

abbrev Block := Σ f : Fin p.cfgs, Fin (p.blocks f)
abbrev Edge := Σ f : Fin p.cfgs, Fin (p.edges f)

def entry (f : Fin p.cfgs) : p.Block := ⟨f,(p.cfg f).entry⟩

def loopHeader (b : p.Block) : Bool := (p.dom b.1).loopHeader b.2
/-- `ENCLOSING_LOOP_HEADER`. -/
def enclosing (b : p.Block) : Option p.Block := ((p.loops b.1).enclosing b.2).map fun h => ⟨b.1,h⟩

/-- The edges that a loop over `InIterator(header)` finds with `!dominates(header, edge->source())`,
    read from the sets of dominators, the assertion of `dominates` being met (`dominates_spec`). -/
def entryEdges (header : p.Block) : List p.Edge :=
  (((p.cfg header.1).ins header.2).filter fun e =>
    header.2 ∉ (p.dom header.1).reverseDom ((p.cfg header.1).source e)).map fun e => ⟨header.1,e⟩

def InLoop (h b : p.Block) : Prop := ∃ x, b = ⟨h.1,x⟩ ∧ (p.cfg h.1).InLoop h.2 x

/-- The edge leads into the loop from outside. -/
def Enters (h : p.Block) (e : p.Edge) : Prop :=
  ∃ x, e = ⟨h.1,x⟩ ∧ (p.cfg h.1).kind x ≠ .call ∧ ¬ (p.cfg h.1).InLoop h.2 ((p.cfg h.1).source x) ∧
    (p.cfg h.1).InLoop h.2 ((p.cfg h.1).target x)

/-- A path of the program, complete or not: the blocks it is in, the one of the innermost
    call first, and what happened, the last event first. -/
inductive Path (L : Type) : List p.Block → List (Event p.Block p.Edge L) → Prop
  | start (misses : L → Bool) : Path L [p.entry p.entryCFG] [.block (p.entry p.entryCFG) misses]
  | step {f : Fin p.cfgs} {e : Fin (p.edges f)} {frames : List p.Block} {trace : List (Event p.Block p.Edge L)}
      (path : Path L (⟨f,(p.cfg f).source e⟩ :: frames) trace) (flow : (p.cfg f).kind e ≠ .call) (misses : L → Bool) :
      Path L (⟨f,(p.cfg f).target e⟩ :: frames) (.block ⟨f,(p.cfg f).target e⟩ misses :: .edge ⟨f,e⟩ :: trace)
  | call {f g : Fin p.cfgs} {e : Fin (p.edges f)} {frames : List p.Block} {trace : List (Event p.Block p.Edge L)}
      (path : Path L (⟨f,(p.cfg f).source e⟩ :: frames) trace) (call : (p.cfg f).kind e = .call)
      (called : p.calledCFG f e = some g) (misses : L → Bool) :
      Path L (p.entry g :: ⟨f,(p.cfg f).source e⟩ :: frames) (.block (p.entry g) misses :: .edge ⟨f,e⟩ :: trace)
  | return {f : Fin p.cfgs} {b : p.Block} {frames : List p.Block} {trace : List (Event p.Block p.Edge L)}
      (path : Path L (⟨f,p.exit f⟩ :: b :: frames) trace) : Path L (b :: frames) trace

variable {p}

theorem exact_ (f : Fin p.cfgs) : (p.dom f).Exact (p.cfg f) := by
  obtain ⟨info,processed,exact_⟩ := processDominance_exact (p.scanned f).connected
  obtain rfl : info = p.dom f := Option.some.inj (processed.symm.trans (p.dominance f))
  exact exact_

theorem picked (f : Fin p.cfgs) : (p.loops f).Picked (p.cfg f) := by
  obtain ⟨info,processed,picked⟩ := processLoopInfo_picked (exact_ f) (p.scanned f)
  obtain rfl : info = p.loops f := Option.some.inj (processed.symm.trans (p.loopInfo f))
  exact picked

theorem inLoop_self {h : p.Block} (header : p.loopHeader h = true) : p.InLoop h h :=
  ⟨h.2,rfl,(loopHeader_iff (exact_ h.1)).mp header,.inl rfl⟩

theorem inLoop_enclosing {b h : p.Block} (inside : p.enclosing b = some h) : p.InLoop h b := by
  obtain ⟨x,found,rfl⟩ := Option.map_eq_some_iff.mp inside
  exact ⟨b.2,rfl,(enclosing_body (picked b.1) found).inLoop⟩

theorem inLoop_outer {b h k : p.Block} (inner : p.InLoop h b) (outer : p.enclosing h = some k) : p.InLoop k b := by
  obtain ⟨x,found,rfl⟩ := Option.map_eq_some_iff.mp outer
  obtain ⟨y,rfl,inside⟩ := inner
  have body := enclosing_body (picked h.1) found
  exact ⟨y,rfl,(body.nested (header_reachable (p.scanned h.1) inside.1) inside).inLoop⟩

theorem not_inLoop_entry (f : Fin p.cfgs) (h : p.Block) : ¬ p.InLoop h (p.entry f) := by
  rintro ⟨x,same,inside⟩
  obtain ⟨f',h⟩ := h
  obtain ⟨rfl,same⟩ := Sigma.mk.inj_iff.mp same
  obtain rfl := eq_of_heq same
  have first : h = (p.cfg f).entry := List.mem_singleton.mp (inside.dominates _ .root)
  obtain ⟨s,⟨e,flow,_,target⟩,_⟩ := inside.1
  exact (p.scanned f).entryFirst e flow (target.trans first)

theorem inLoop_target {h : p.Block} {f : Fin p.cfgs} {e : Fin (p.edges f)} (flow : (p.cfg f).kind e ≠ .call)
    (inside : p.InLoop h ⟨f,(p.cfg f).target e⟩) : p.InLoop h ⟨f,(p.cfg f).source e⟩ ∨ p.Enters h ⟨f,e⟩ := by
  obtain ⟨x,same,inside⟩ := inside
  obtain ⟨f',h⟩ := h
  obtain ⟨rfl,same⟩ := Sigma.mk.inj_iff.mp same
  obtain rfl := eq_of_heq same
  by_cases before : (p.cfg f).InLoop h ((p.cfg f).source e)
  · exact .inl ⟨_,rfl,before⟩
  · exact .inr ⟨e,rfl,flow,before,inside⟩

theorem mem_entryEdges {h : p.Block} (header : p.InLoop h h) {e : p.Edge} : e ∈ p.entryEdges h ↔ p.Enters h e := by
  obtain ⟨x,same,header⟩ := header
  obtain rfl : h.2 = x := eq_of_heq (Sigma.mk.inj_iff.mp same).2
  simp only [entryEdges,List.mem_map,List.mem_filter,CFG.mem_ins,decide_eq_true_eq,(exact_ h.1).dominators]
  constructor
  · rintro ⟨x,⟨⟨flow,target⟩,front⟩,rfl⟩
    exact ⟨x,rfl,flow,fun inside => front inside.dominates,target ▸ header⟩
  · rintro ⟨x,rfl,flow,outside,inside⟩
    have step : (p.cfg h.1).Flow ((p.cfg h.1).source x) ((p.cfg h.1).target x) := ⟨x,flow,rfl,rfl⟩
    have differ : (p.cfg h.1).source x ≠ h.2 := fun same => outside (same ▸ header)
    have target : (p.cfg h.1).target x = h.2 := by
      by_contra inner
      exact outside (FlowGraph.Body.step step (inside.body inner) differ).inLoop
    refine ⟨x,⟨⟨flow,target⟩,fun back => ?_⟩,rfl⟩
    rw [target] at step
    exact outside (FlowGraph.Body.latch ⟨step,back⟩ differ).inLoop

theorem nodup_entryEdges (h : p.Block) : (p.entryEdges h).Nodup := by
  refine List.Nodup.map (fun a b same => ?_) (((p.cfg h.1).nodup_ins h.2).filter _)
  exact eq_of_heq (Sigma.mk.inj_iff.mp same).2

end Program

section
variable {p : Program} {L : Type}

def Entry (h : p.Block) (ev : Event p.Block p.Edge L) : Prop := ∃ e, ev = .edge e ∧ p.Enters h e

def Within (h : p.Block) (ev : Event p.Block p.Edge L) : Prop := ∃ b misses, ev = .block b misses ∧ p.InLoop h b

theorem not_within_edge {h : p.Block} {e : p.Edge} : ¬ Within (L := L) h (.edge e) := by
  rintro ⟨b,misses,same,_⟩
  cases same

/-- What a path that is in a loop, or was, has done before. -/
structure Entered (h : p.Block) (frames : List p.Block) (trace : List (Event p.Block p.Edge L)) : Prop where
  frames : ∀ b ∈ frames, p.InLoop h b → ∃ ev ∈ trace, Entry h ev
  events : ∀ earlier, earlier <:+ trace → ∀ ev ∈ earlier, Within h ev → ∃ ev ∈ earlier, Entry h ev

private theorem entered_events {h b : p.Block} {e : p.Edge} {misses : L → Bool} {trace : List (Event p.Block p.Edge L)}
    (events : ∀ earlier, earlier <:+ trace → ∀ ev ∈ earlier, Within h ev → ∃ ev ∈ earlier, Entry h ev)
    (here : p.InLoop h b → ∃ ev ∈ Event.edge e :: trace, Entry h ev) :
    ∀ earlier, earlier <:+ .block b misses :: .edge e :: trace → ∀ ev ∈ earlier, Within h ev →
      ∃ ev ∈ earlier, Entry h ev := by
  intro earlier suffix ev member within
  have edgeLast {ev : Event p.Block p.Edge L} (member : ev ∈ Event.edge e :: trace) (within : Within h ev) :
      ∃ ev ∈ Event.edge e :: trace, Entry h ev := by
    rcases List.mem_cons.mp member with rfl | member
    · exact absurd within not_within_edge
    · obtain ⟨entry,old,enters⟩ := events trace (List.suffix_refl _) ev member within
      exact ⟨entry,List.mem_cons_of_mem _ old,enters⟩
  rcases List.suffix_cons_iff.mp suffix with rfl | suffix
  · have before : ∃ ev ∈ Event.edge e :: trace, Entry h ev := by
      rcases List.mem_cons.mp member with rfl | member
      · obtain ⟨b',misses',same,inside⟩ := within
        cases same
        exact here inside
      · exact edgeLast member within
    obtain ⟨entry,old,enters⟩ := before
    exact ⟨entry,List.mem_cons_of_mem _ old,enters⟩
  · rcases List.suffix_cons_iff.mp suffix with rfl | suffix
    · exact edgeLast member within
    · exact events earlier suffix ev member within

theorem Program.Path.entered {frames : List p.Block} {trace : List (Event p.Block p.Edge L)} (path : p.Path L frames trace)
    (h : p.Block) : Entered h frames trace := by
  induction path with
  | start misses =>
    have outside := not_inLoop_entry p.entryCFG h
    refine ⟨?_,?_⟩
    · rintro b member inside
      obtain rfl := List.mem_singleton.mp member
      exact absurd inside outside
    · rintro earlier suffix ev member ⟨b,misses',rfl,inside⟩
      have only := List.mem_singleton.mp (suffix.subset member)
      cases only
      exact absurd inside outside
  | @step f e frames trace _ flow misses ih =>
    have here (inside : p.InLoop h ⟨f,(p.cfg f).target e⟩) : ∃ ev ∈ Event.edge ⟨f,e⟩ :: trace, Entry h ev := by
      rcases inLoop_target flow inside with before | enters
      · obtain ⟨entry,old,enters⟩ := ih.frames _ (List.mem_cons_self ..) before
        exact ⟨entry,List.mem_cons_of_mem _ old,enters⟩
      · exact ⟨_,List.mem_cons_self ..,_,rfl,enters⟩
    refine ⟨fun b member inside => ?_,entered_events ih.events here⟩
    rcases List.mem_cons.mp member with rfl | member
    · obtain ⟨entry,old,enters⟩ := here inside
      exact ⟨entry,List.mem_cons_of_mem _ old,enters⟩
    · obtain ⟨entry,old,enters⟩ := ih.frames b (List.mem_cons_of_mem _ member) inside
      exact ⟨entry,by simp [old],enters⟩
  | @call f g e frames trace _ _ _ misses ih =>
    have outside := not_inLoop_entry g h
    refine ⟨fun b member inside => ?_,entered_events ih.events fun inside => absurd inside outside⟩
    rcases List.mem_cons.mp member with rfl | member
    · exact absurd inside outside
    · obtain ⟨entry,old,enters⟩ := ih.frames b member inside
      exact ⟨entry,by simp [old],enters⟩
  | «return» _ ih => exact ⟨fun b member => ih.frames b (List.mem_cons_of_mem _ member),ih.events⟩

open Classical in
theorem count_enters {h : p.Block} (header : p.InLoop h h) (trace : List (Event p.Block p.Edge L)) :
    ((p.entryEdges h).map fun e => ((trace.filterMap Event.edge?).count e : Int)).sum = trace.countP (Entry h ·) := by
  rw [Ilp.sum_count _ _ (p.nodup_entryEdges h)]
  induction trace with
  | nil => rfl
  | cons ev trace ih =>
    cases ev with
    | block b misses =>
      have no : ¬ Entry h (.block b misses : Event p.Block p.Edge L) := by
        rintro ⟨e,same,_⟩
        cases same
      rw [List.filterMap_cons_none (by rfl),ih,List.countP_cons_of_neg (by simpa using no)]
    | edge e =>
      have iff : Entry (L := L) h (.edge e) ↔ e ∈ p.entryEdges h := by
        rw [Program.mem_entryEdges header]
        constructor
        · rintro ⟨e',same,enters⟩
          cases same
          exact enters
        · exact fun enters => ⟨e,rfl,enters⟩
      simp only [List.filterMap_cons,Event.edge?,List.countP_cons,iff]
      push_cast
      rw [ih]

end

section
variable {p : Program} {L : Type}

def AtMostOncePerEntry (h : p.Block) (weight : Event p.Block p.Edge L → Nat) (trace : List (Event p.Block p.Edge L)) :
    Prop :=
  ∀ part, part <:+: trace → (∀ ev ∈ part, ¬ Entry h ev) → (part.map weight).sum ≤ 1

/-- Weights of one at most between two openings, and of zero before the first one, are in all at
    most as many as the openings. -/
private theorem sum_le_countP {E : Type} {opens : E → Prop} [DecidablePred opens] {weight : E → Nat}
    (quiet : ∀ ev, opens ev → weight ev = 0) (trace : List E) :
    ∀ part : List E, (∀ ev ∈ part, ¬ opens ev) →
      (∀ inner, inner <:+: part ++ trace → (∀ ev ∈ inner, ¬ opens ev) → (inner.map weight).sum ≤ 1) →
      (∀ earlier, earlier <:+ part ++ trace → (∀ ev ∈ earlier, ¬ opens ev) → (earlier.map weight).sum = 0) →
      (part.map weight).sum+(trace.map weight).sum ≤ trace.countP (opens ·) := by
  induction trace with
  | nil =>
    intro part closed _ before
    simpa using before part (by simp) closed
  | cons ev trace ih =>
    intro part closed once before
    by_cases opening : opens ev
    · -- the part ends here and the next one begins
      have here := once part (List.infix_append' [] part (ev :: trace)) closed
      have suffix : trace <:+ part ++ ev :: trace := ⟨part ++ [ev],by simp⟩
      have rest := ih [] (by simp) (fun inner infix_ => once inner (infix_.trans suffix.isInfix))
        fun earlier last => before earlier (last.trans suffix)
      have added : (List.map weight []).sum = 0 := rfl
      rw [added] at rest
      rw [List.map_cons,List.sum_cons,quiet ev opening,List.countP_cons_of_pos (by simpa using opening)]
      omega
    · have same : part ++ ev :: trace = (part ++ [ev]) ++ trace := by simp
      rw [same] at once before
      have longer := ih (part ++ [ev]) (by simpa [or_imp,forall_and] using ⟨closed,opening⟩) once before
      rw [List.map_append,List.sum_append,List.map_singleton,List.sum_singleton] at longer
      rw [List.map_cons,List.sum_cons,List.countP_cons_of_neg (by simpa using opening)]
      omega

open Classical in
theorem sum_le_entries {h : p.Block} {frames : List p.Block} {trace : List (Event p.Block p.Edge L)}
    (path : p.Path L frames trace) {weight : Event p.Block p.Edge L → Nat}
    (inside : ∀ ev, ¬ Within h ev → weight ev = 0) (once : AtMostOncePerEntry h weight trace) :
    (trace.map weight).sum ≤ trace.countP (Entry h ·) := by
  have quiet (ev : Event p.Block p.Edge L) (opening : Entry h ev) : weight ev = 0 := by
    obtain ⟨e,rfl,_⟩ := opening
    exact inside _ not_within_edge
  have before (earlier : List (Event p.Block p.Edge L)) (suffix : earlier <:+ trace)
      (closed : ∀ ev ∈ earlier, ¬ Entry h ev) : (earlier.map weight).sum = 0 := by
    refine List.sum_eq_zero fun w weighted => ?_
    obtain ⟨ev,member,rfl⟩ := List.mem_map.mp weighted
    refine inside ev fun within => ?_
    obtain ⟨entry,old,enters⟩ := (path.entered h).events earlier suffix ev member within
    exact closed entry old enters
  have bound := sum_le_countP quiet trace [] (by simp) once before
  simpa using bound

end

end Otawa.Cat2
