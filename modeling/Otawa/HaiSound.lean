import Otawa.HaiTurn
import Mathlib.Data.Fintype.EquivFin

/-!
The states that the engine records are above those of all paths. What was sent on an edge
is on it, or under a state recorded for its target; at the end nothing is on the edges.
-/
namespace Otawa.Hai
open Otawa.Cfg

universe u
variable {n m : Nat} {S D : Type u} {g : CFG n m} {dom : DominanceInfo n m} {info : LoopInfo n m}
variable [SemilatticeSup D] [OrderBot D]

/-! ### Policies -/

/-- What is asked of a policy: the first input state is above the entry edges and later ones
    above the back edges, and a fixpoint is an input state seen before. -/
structure FixPoint.Lawful (fp : FixPoint S D) (headerState : S → D) (started : S → Prop) : Prop where
  first : ∀ entries backs, ∃ input s, fp.fixPoint fp.newState (some entries) backs true = some (false,input,s) ∧
    entries ≤ input ∧ headerState s = input ∧ started s
  again : ∀ s entries backs, started s → ∃ fixpoint input s',
    fp.fixPoint s (some entries) (some backs) false = some (fixpoint,input,s') ∧
    backs ≤ input ∧ headerState s' = input ∧ (fixpoint = true → input = headerState s) ∧ started s'

theorem defaultFixPoint_lawful [DecidableEq D] : (defaultFixPoint (D := D)).Lawful id fun _ => True where
  first entries _ := ⟨entries,entries,rfl,le_refl _,rfl,trivial⟩
  again _ entries backs _ :=
    ⟨_,entries ⊔ backs,entries ⊔ backs,rfl,le_sup_right,rfl,fun same => of_decide_eq_true same,trivial⟩

theorem firstUnrollingFixPoint_lawful [DecidableEq D] :
    (firstUnrollingFixPoint (D := D)).Lawful UnrollingState.headerState fun s => 1 ≤ s.numIter where
  first entries _ := ⟨entries,_,rfl,le_refl _,rfl,Nat.le_refl 1⟩
  again := by
    rintro ⟨header,first,_ | _ | k⟩ entries backs started
    · cases started
    · exact ⟨_,backs,_,rfl,le_refl _,rfl,fun never => Bool.noConfusion never,Nat.le_succ 1⟩
    · exact ⟨_,backs ⊔ first,_,rfl,le_sup_left,rfl,fun same => of_decide_eq_true same,Nat.le_add_left 1 _⟩

/-- What is recorded and what is on the edges between two turns. -/
structure Sound (g : CFG n m) (dom : DominanceInfo n m) (p : Problem n D) (headerState : S → D) (started : S → Prop)
    (entdom : D) (st : State n m S D) : Prop where
  begun : st.mainEntry = false → entdom ∈ st.interpreted g.entry
  covered : ∀ e, ∀ i ∈ st.interpreted (g.source e), (∃ j ∈ st.interpreted (g.target e), p.update i (g.source e) ≤ j) ∨
    ∃ s, st.mark e = some s ∧ p.update i (g.source e) ≤ s
  entries : ∀ e s, isBackEdge g dom e = false → Open st (g.target e) → st.mark e = some s →
    ∃ j ∈ st.interpreted (g.target e), s ≤ j
  headers : ∀ h s, Open st h → st.fixPointState h = some s → started s ∧ headerState s ∈ st.interpreted h

variable {st st' : State n m S D} {done : Fin n → Prop} {rest : List (Fin n)} {b : Fin n} {e : Fin m}
variable {fp : FixPoint S D} {p : Problem n D} {headerState : S → D} {started : S → Prop} {entdom : D}

theorem unionMarks_spec (st : State n m S D) {edges : List (Fin m)} (present : ∀ e ∈ edges, (st.mark e).isSome) :
    ∃ union, unionMarks st edges = some union ∧ ∀ e ∈ edges, ∀ s, st.mark e = some s → s ≤ union := by
  suffices fold : ∀ start : D, ∃ union,
      edges.foldlM (fun result e => (st.mark e).map fun edgeState => result ⊔ edgeState) start = some union ∧
        start ≤ union ∧ ∀ e ∈ edges, ∀ s, st.mark e = some s → s ≤ union by
    obtain ⟨union,found,-,above⟩ := fold ⊥
    exact ⟨union,found,above⟩
  induction edges with
  | nil => exact fun start => ⟨start,rfl,le_refl _,by simp⟩
  | cons e edges ih =>
    intro start
    obtain ⟨s,mark⟩ := Option.isSome_iff_exists.mp (present e List.mem_cons_self)
    obtain ⟨union,found,more,above⟩ := ih (fun e' member => present e' (List.mem_cons_of_mem _ member)) (start ⊔ s)
    refine ⟨union,?_,le_sup_left.trans more,fun e' member s' mark' => ?_⟩
    · rw [List.foldlM_cons,mark]
      exact found
    · rcases List.mem_cons.mp member with rfl | member
      · obtain rfl := Option.some.inj (mark.symm.trans mark')
        exact le_sup_right.trans more
      · exact above e' member s' mark'

omit [OrderBot D] in
theorem Sound.covers (sound : Sound g dom p headerState started entdom st)
    (grows : ∀ c, ∀ i ∈ st.interpreted c, i ∈ st'.interpreted c)
    (sent : ∀ e, ∀ i ∈ st'.interpreted (g.source e), i ∈ st.interpreted (g.source e) ∨
      ∃ s, st'.mark e = some s ∧ p.update i (g.source e) ≤ s)
    (later : ∀ e s, st.mark e = some s → (∃ s', st'.mark e = some s' ∧ s ≤ s') ∨ ∃ j ∈ st'.interpreted (g.target e), s ≤ j)
    (e : Fin m) (i : D) (recorded : i ∈ st'.interpreted (g.source e)) :
    (∃ j ∈ st'.interpreted (g.target e), p.update i (g.source e) ≤ j) ∨
      ∃ s, st'.mark e = some s ∧ p.update i (g.source e) ≤ s := by
  rcases sent e i recorded with before | now
  · rcases sound.covered e i before with ⟨j,inside,below⟩ | ⟨s,mark,below⟩
    · exact Or.inl ⟨j,grows _ j inside,below⟩
    · rcases later e s mark with ⟨s',mark',more⟩ | ⟨j,inside,more⟩
      · exact Or.inr ⟨s',mark',below.trans more⟩
      · exact Or.inl ⟨j,inside,below.trans more⟩
  · exact Or.inr now

/-! ### The three turns -/

section Turns
variable (nest : Nested g dom info) (inv : Inv g dom info st done) (work : st.workList = b :: rest)
variable (sound : Sound g dom p headerState started entdom st)

omit [OrderBot D] in
theorem Sound.processed (sound : Sound g dom p headerState started entdom st) {input : D} (mid : Fin m → Option D)
    (passing : ∀ e, g.source e = b → isBackEdge g dom e = false → ¬ Open st' (g.target e))
    (interpreted : st'.interpreted = Function.update st.interpreted b (input :: st.interpreted b))
    (output : ∀ e, g.source e = b → ∃ s, st'.mark e = some s ∧ p.update input b ≤ s ∧ ∀ s', mid e = some s' → s' ≤ s)
    (kept : ∀ e, g.source e ≠ b → st'.mark e = mid e)
    (taken : ∀ e s, st.mark e = some s → mid e = some s ∨ g.target e = b ∧ s ≤ input)
    (left : ∀ e s, mid e = some s → st.mark e = some s)
    (opened : ∀ e s, isBackEdge g dom e = false → Open st' (g.target e) → st.mark e = some s →
      Open st (g.target e) ∨ g.target e = b ∧ s ≤ input)
    (begun : st'.mainEntry = false → st.mainEntry = false ∨ b = g.entry ∧ input = entdom)
    (headers : ∀ h s, Open st' h → st'.fixPointState h = some s →
      (Open st h ∧ st.fixPointState h = some s) ∨ h = b ∧ headerState s = input ∧ started s) :
    Sound g dom p headerState started entdom st' := by
  have new : input ∈ st'.interpreted b := by
    rw [interpreted,Function.update_self]
    exact List.mem_cons_self
  have grows (c : Fin n) (i : D) (recorded : i ∈ st.interpreted c) : i ∈ st'.interpreted c := by
    rw [interpreted]
    by_cases same : c = b
    · rw [same,Function.update_self]
      exact List.mem_cons_of_mem _ (same ▸ recorded)
    · rwa [Function.update_of_ne same]
  refine ⟨fun main => ?_,sound.covers grows ?_ ?_,fun e s front isOpen mark => ?_,fun h s isOpen state => ?_⟩
  · rcases begun main with before | ⟨rfl,rfl⟩
    · exact grows _ _ (sound.begun before)
    · exact new
  · intro e i recorded
    rw [interpreted] at recorded
    by_cases source : g.source e = b
    · rw [source,Function.update_self,List.mem_cons] at recorded
      rcases recorded with rfl | before
      · obtain ⟨s,mark,below,-⟩ := output e source
        exact Or.inr ⟨s,mark,source ▸ below⟩
      · exact Or.inl (source ▸ before)
    · rw [Function.update_of_ne source] at recorded
      exact Or.inl recorded
  · intro e s mark
    rcases taken e s mark with stays | ⟨target,below⟩
    · by_cases source : g.source e = b
      · obtain ⟨s',mark',-,above⟩ := output e source
        exact Or.inl ⟨s',mark',above s stays⟩
      · exact Or.inl ⟨s,(kept e source).trans stays,le_refl s⟩
    · exact Or.inr ⟨input,target ▸ new,below⟩
  · have source : g.source e ≠ b := fun source => passing e source front isOpen
    rw [kept e source] at mark
    have mark := left e s mark
    rcases opened e s front isOpen mark with before | ⟨target,below⟩
    · obtain ⟨j,inside,below⟩ := sound.entries e s front before mark
      exact ⟨j,grows _ j inside,below⟩
    · exact ⟨input,target ▸ new,below⟩
  · rcases headers h s isOpen state with ⟨before,state⟩ | ⟨rfl,same,started⟩
    · obtain ⟨started,inside⟩ := sound.headers h s before state
      exact ⟨started,grows _ _ inside⟩
    · exact ⟨started,same ▸ new⟩

theorem le_marked {mark : Option D} {s out : D} (before : mark = some s) : s ≤ mark.getD ⊥ ⊔ out := by
  rw [before]
  exact le_sup_left

theorem Passing.successors (nest : Nested g dom info) (passing : Passing g dom info b st done) (out : D) :
    Inv g dom info (addSuccessors g dom info st out b) done ∧
      Hai.Marks g dom info out (g.outs b) st (addSuccessors g dom info st out b) := by
  have flow : (g.outs b).filter (fun e => g.kind e ≠ .call) = g.outs b :=
    List.filter_eq_self.mpr fun e _ => decide_eq_true (nest.flow e)
  have marks : Hai.Marks g dom info out (g.outs b) st (addSuccessors g dom info st out b) := by
    rw [addSuccessors,flow]
    refine addSuccessor_fold (g.nodup_outs b) (fun e _ => nest.flow e) (fun e member => ?_) fun e member inside => ?_
    · exact passing.undone e (g.mem_outs.mp member)
    · exact ((passing.rest _).mp inside).2 e (g.mem_outs.mp member) rfl
  exact ⟨passing.inv nest marks,marks⟩

include nest inv work sound

theorem Inv.turn_simple (plain : ¬ g.IsHeader b) :
    ∃ st', processBlock g dom info st fp p entdom b rest = some st' ∧
      Inv g dom info st' (fun c => done c ∨ c = b) ∧ Sound g dom p headerState started entdom st' := by
  have loopHeader : dom.loopHeader b = false := by
    rw [← Bool.not_eq_true]
    exact fun header => plain ((header_iff nest).mp header)
  obtain ⟨active,undone,sent⟩ := inv.taken work
  have front {e : Fin m} (target : g.target e = b) : isBackEdge g dom e = false := by
    rw [← Bool.not_eq_true]
    exact fun back => plain (target ▸ header_of_back nest back)
  have present (e : Fin m) (target : g.target e = b) : (st.mark e).isSome := by
    refine inv.marked e id ?_ (sent e target (front target)) (Or.inr (target ▸ undone))
    rw [level_of_front (front target),target]
    exact active
  -- the input state and the edges to the block
  obtain ⟨input,processed,above,begun⟩ : ∃ input,
      inputProcessing g dom { st with workList := rest } fp p entdom b =
        some ({ st with
          workList := rest, mainEntry := false, mark := fun e => if e ∈ g.ins b then none else st.mark e },input,false) ∧
      (∀ e, g.target e = b → ∀ s, st.mark e = some s → s ≤ input) ∧
      (st.mainEntry = false ∨ b = g.entry ∧ input = entdom) := by
    cases main : st.mainEntry with
    | true =>
      have same := inv.main main
      rw [work] at same
      obtain rfl := (List.cons.inj same).1
      refine ⟨entdom,?_,fun e target => absurd target (target_ne_entry nest e),Or.inr ⟨rfl,rfl⟩⟩
      have none : g.ins g.entry = [] := List.eq_nil_iff_forall_not_mem.mpr fun e member =>
        target_ne_entry nest e (g.mem_ins.mp member).2
      simp [inputProcessing,none]
    | false =>
      obtain ⟨union,found,above⟩ := unionMarks_spec { st with workList := rest }
        fun (e : Fin m) (member : e ∈ g.ins b) => present e (g.mem_ins.mp member).2
      have inner : b ≠ g.entry := fun same => undone (same ▸ inv.started main)
      refine ⟨union,?_,fun e target => above e ((mem_ins nest.flow).mpr target),Or.inl rfl⟩
      simp only [main] at found
      simp [inputProcessing,inner,loopHeader,found,State.unmark]
  have turn : Simple g dom info b rest st done fun e => if e ∈ g.ins b then none else st.mark e :=
    ⟨nest,inv,work,plain,fun e => by simp only [mem_ins nest.flow]⟩
  have passing := turn.passing (Function.update st.interpreted b (input :: st.interpreted b))
  obtain ⟨next,marks⟩ := passing.successors nest (p.update input b)
  refine ⟨_,?_,next,?_⟩
  · rw [processBlock,processed]
    simp [outputProcessing,loopHeader]
  generalize addSuccessors g dom info _ (p.update input b) b = st' at next marks
  obtain ⟨mark,same,-,-⟩ := marks
  have first : st'.firstIter = st.firstIter := by rw [same]
  refine sound.processed (fun e => if e ∈ g.ins b then none else st.mark e) (fun e source front target => ?_) (by rw [same]) (fun e source => ?_) (fun e source => ?_)
    (fun e s mark => ?_) (fun e s mark => ?_) (fun e s _ isOpen _ => ?_) (fun _ => begun) fun h s isOpen state => ?_
  · refine passing.closed e source front ?_
    rwa [Open,first] at target
  · refine ⟨_,(mark e).trans (if_pos (g.mem_outs.mpr source)),le_sup_right,fun s' before => le_marked before⟩
  · exact (mark e).trans (if_neg fun member => source (g.mem_outs.mp member))
  · by_cases target : g.target e = b
    · exact Or.inr ⟨target,above e target s mark⟩
    · exact Or.inl ((if_neg fun member => target ((mem_ins nest.flow).mp member)).trans mark)
  · split at mark
    · cases mark
    · exact mark
  · rw [Open,first] at isOpen
    exact Or.inl isOpen
  · rw [Open,first] at isOpen
    rw [same] at state
    exact Or.inl ⟨isOpen,state⟩

omit sound in
theorem Inv.reads :
    (∃ union, entryEdgeUnion g dom { st with workList := rest } p b = some (p.enterContext union b) ∧
      ∀ e, g.target e = b → isBackEdge g dom e = false → ∀ s, st.mark e = some s → s ≤ union) ∧
    ∃ union, backEdgeUnion g dom { st with workList := rest } b = some union ∧
      (Open st b → ∀ e, g.target e = b → isBackEdge g dom e = true → ∀ s, st.mark e = some s → s ≤ union) := by
  obtain ⟨active,undone,sent⟩ := inv.taken work
  have mem_entry {e : Fin m} : e ∈ entryEdges g dom b ↔ g.target e = b ∧ isBackEdge g dom e = false := by
    rw [entryEdges,List.mem_filter,mem_ins nest.flow,Bool.not_eq_true']
  have mem_back {e : Fin m} : e ∈ backEdges g dom b ↔ g.target e = b ∧ isBackEdge g dom e = true := by
    rw [backEdges,List.mem_filter,mem_ins nest.flow]
  constructor
  · obtain ⟨union,found,above⟩ := unionMarks_spec { st with workList := rest }
      fun (e : Fin m) (member : e ∈ entryEdges g dom b) => by
        obtain ⟨target,front⟩ := mem_entry.mp member
        refine inv.marked e id ?_ (sent e target front) (Or.inr (target ▸ undone))
        rw [level_of_front front,target]
        exact active
    refine ⟨union,?_,fun e target front => above e (mem_entry.mpr ⟨target,front⟩)⟩
    rw [entryEdgeUnion,found]
    rfl
  · cases first : st.firstIter b with
    | true => exact ⟨⊥,if_pos first,fun isOpen => absurd (first.symm.trans isOpen) (by decide)⟩
    | false =>
      have sent : ∀ e, g.target e = b → isBackEdge g dom e = true → Sent g dom info done e := by
        rcases (inv.pending b).mp (by rw [work]; exact List.mem_cons_self) with ⟨-,-,closed,-⟩ | ⟨-,sent⟩
        · exact absurd first closed
        · exact sent
      obtain ⟨union,found,above⟩ := unionMarks_spec { st with workList := rest }
        fun (e : Fin m) (member : e ∈ backEdges g dom b) => by
          obtain ⟨target,back⟩ := mem_back.mp member
          refine inv.marked e id ?_ (sent e target back) (Or.inl back)
          rw [level_of_back back,target]
          exact first
      refine ⟨union,?_,fun _ e target back => above e (mem_back.mpr ⟨target,back⟩)⟩
      rw [backEdgeUnion,if_neg (by simp [first])]
      exact found

omit sound in
theorem Inv.input_header (header : g.IsHeader b) : inputProcessing g dom { st with workList := rest } fp p entdom b =
    processHeader g dom { st with workList := rest } fp p b := by
  have inner : b ≠ g.entry := by
    rintro rfl
    exact entry_plain nest header
  rw [inputProcessing,if_neg (by simp [inv.notMain nest work header]),if_neg inner,if_pos ((header_iff nest).mpr header)]

theorem Inv.turn_iteration (header : g.IsHeader b) {input : D} {s : S}
    (processed : processHeader g dom { st with workList := rest } fp p b =
      some ({ st with
        workList := rest, mark := fun e => if e ∈ backEdges g dom b then none else st.mark e
        firstIter := Function.update st.firstIter b false
        fixed := Function.update st.fixed b false
        fixPointState := Function.update st.fixPointState b (some s) },input,false))
    (backs : Open st b → ∀ e, g.target e = b → isBackEdge g dom e = true → ∀ s, st.mark e = some s → s ≤ input)
    (fronts : ¬ Open st b → ∀ e, g.target e = b → isBackEdge g dom e = false → ∀ s, st.mark e = some s → s ≤ input)
    (same : headerState s = input) (begins : started s) :
    ∃ st', processBlock g dom info st fp p entdom b rest = some st' ∧
      Inv g dom info st' (fun c => done c ∧ info.enclosing c ≠ some b) ∧ Sound g dom p headerState started entdom st' := by
  have loopHeader := (header_iff nest).mpr header
  have mem_back {e : Fin m} : e ∈ backEdges g dom b ↔ isBackEdge g dom e = true ∧ g.target e = b := by
    rw [backEdges,List.mem_filter,mem_ins nest.flow,and_comm]
  set mid : State n m S D := { st with
    workList := rest, mark := fun e => if e ∈ backEdges g dom b then none else st.mark e
    firstIter := Function.update st.firstIter b false
    fixed := Function.update st.fixed b false
    fixPointState := Function.update st.fixPointState b (some s)
    interpreted := Function.update st.interpreted b (input :: st.interpreted b) } with mid_eq
  have turn : Iteration g dom info b rest done st mid :=
    ⟨nest,inv,work,header,rfl,rfl,rfl,rfl,⟨s,rfl⟩,fun e => by simp only [mid_eq,mem_back]⟩
  have passing := turn.passing
  obtain ⟨next,marks⟩ := passing.successors nest (p.update input b)
  refine ⟨_,?_,next,?_⟩
  · rw [processBlock,inv.input_header nest work header,processed,Option.bind_eq_bind,Option.bind_some]
    simp only [outputProcessing,Bool.and_false,Bool.false_eq_true,if_false]
    rfl
  generalize addSuccessors g dom info mid (p.update input b) b = st' at next marks
  obtain ⟨mark,same',-,-⟩ := marks
  have first : st'.firstIter = Function.update st.firstIter b false := by rw [same']
  have other {c : Fin n} (differ : c ≠ b) (isOpen : Open st' c) : Open st c := by
    rwa [Open,first,Function.update_of_ne differ] at isOpen
  refine sound.processed mid.mark (fun e source front target => ?_) (by rw [same']) (fun e source => ?_) (fun e source => ?_)
    (fun e s before => ?_) (fun e s mark => ?_) (fun e s front isOpen before => ?_)
    (fun _ => Or.inl (inv.notMain nest work header)) fun h s' isOpen state => ?_
  · refine passing.closed e source front ?_
    rwa [Open,same'] at target
  · exact ⟨_,(mark e).trans (if_pos (g.mem_outs.mpr source)),le_sup_right,fun s' before => le_marked before⟩
  · exact (mark e).trans (if_neg fun member => source (g.mem_outs.mp member))
  · by_cases consumed : e ∈ backEdges g dom b
    · obtain ⟨back,target⟩ := mem_back.mp consumed
      have isOpen : Open st b := by
        have active := (inv.waiting e (by rw [before]; rfl)).1
        rwa [level_of_back back,target] at active
      exact Or.inr ⟨target,backs isOpen e target back s before⟩
    · exact Or.inl ((if_neg consumed).trans before)
  · rw [mid_eq] at mark
    dsimp only at mark
    split at mark
    · cases mark
    · exact mark
  · by_cases target : g.target e = b
    · by_cases before' : Open st b
      · exact Or.inl (target ▸ before')
      · exact Or.inr ⟨target,fronts before' e target front s before⟩
    · exact Or.inl (other target isOpen)
  · have state : Function.update st.fixPointState b (some s) h = some s' := by rwa [same'] at state
    by_cases here : h = b
    · rw [here,Function.update_self] at state
      obtain rfl := Option.some.inj state
      exact Or.inr ⟨here,same,begins⟩
    · rw [Function.update_of_ne here] at state
      exact Or.inl ⟨other here isOpen,state⟩

theorem Inv.turn_fixpoint (leave : ∀ d c, d ≤ p.leaveContext d c) (isOpen : Open st b) {input : D}
    (processed : processHeader g dom { st with workList := rest } fp p b =
      some ({ st with
        workList := rest
        mark := fun e => if e ∈ entryEdges g dom b then none else if e ∈ backEdges g dom b then none else st.mark e
        firstIter := Function.update st.firstIter b true
        fixed := Function.update st.fixed b true
        fixPointState := Function.update st.fixPointState b none
        reached := Function.update st.reached b (st.reached b + 1) },input,true))
    (backs : ∀ e, g.target e = b → isBackEdge g dom e = true → ∀ s, st.mark e = some s → s ≤ input)
    (recorded : input ∈ st.interpreted b) :
    ∃ st', processBlock g dom info st fp p entdom b rest = some st' ∧
      Inv g dom info st' (fun c => done c ∨ c = b) ∧ Sound g dom p headerState started entdom st' := by
  have header := (inv.opened b isOpen).1
  set mid : State n m S D := { st with
    workList := rest
    mark := fun e => if e ∈ entryEdges g dom b then none else if e ∈ backEdges g dom b then none else st.mark e
    firstIter := Function.update st.firstIter b true
    fixed := Function.update st.fixed b true
    fixPointState := Function.update st.fixPointState b none
    reached := Function.update st.reached b (st.reached b + 1) } with mid_eq
  have marks (e : Fin m) : mid.mark e = if g.target e = b then none else st.mark e := by
    simp only [mid_eq,entryEdges,backEdges,List.mem_filter,mem_ins nest.flow]
    cases isBackEdge g dom e <;> simp
  have turn : Fixpoint g dom info b rest done st mid := ⟨nest,inv,work,isOpen,rfl,rfl,rfl,rfl,rfl,marks⟩
  have leaving := turn.leaving
  obtain ⟨⟨st',added⟩,run,next,released,same⟩ := leaving.inv p nest
  refine ⟨st',?_,next,?_⟩
  · rw [processBlock,inv.input_header nest work header,processed,Option.bind_eq_bind,Option.bind_some]
    simp only [outputProcessing,(header_iff nest).mpr header,Bool.and_true,if_true,run]
    rfl
  dsimp only at released same
  have other {c : Fin n} (isOpen : Open st' c) : c ≠ b ∧ Open st c := by
    have isOpen : Function.update st.firstIter b true c = false := by rwa [Open,same] at isOpen
    by_cases here : c = b
    · rw [here,Function.update_self] at isOpen
      cases isOpen
    · exact ⟨here,by rwa [Function.update_of_ne here] at isOpen⟩
  have interpreted : st'.interpreted = st.interpreted := by rw [same]
  refine ⟨fun _ => ?_,sound.covers (fun c i inside => ?_) (fun e i inside => Or.inl ?_) (fun e s mark => ?_),
    fun e s front isOpen mark => ?_,fun h s isOpen state => ?_⟩
  · rw [interpreted]
    exact sound.begun (inv.notMain nest work header)
  · rwa [interpreted]
  · rwa [interpreted] at inside
  · by_cases target : g.target e = b
    · right
      rw [interpreted]
      cases direction : isBackEdge g dom e with
      | true => exact ⟨input,target ▸ recorded,backs e target direction s mark⟩
      | false => exact sound.entries e s direction (target ▸ isOpen) mark
    · left
      rw [released,marks,if_neg target,mark]
      split
      · exact ⟨_,rfl,leave s b⟩
      · exact ⟨s,rfl,le_refl s⟩
  · obtain ⟨apart,before⟩ := other isOpen
    rw [released,marks,if_neg apart] at mark
    split at mark
    next exit =>
      refine absurd ?_ (leaving.closed e exit front)
      rwa [Open,same] at isOpen
    next =>
      rw [interpreted]
      exact sound.entries e s front before mark
  · obtain ⟨apart,before⟩ := other isOpen
    have state : Function.update st.fixPointState b none h = some s := by rwa [same] at state
    rw [Function.update_of_ne apart] at state
    rw [interpreted]
    exact sound.headers h s before state

theorem Inv.turn (lawful : fp.Lawful headerState started) (enter : ∀ d c, d ≤ p.enterContext d c)
    (leave : ∀ d c, d ≤ p.leaveContext d c) :
    ∃ done' st', processBlock g dom info st fp p entdom b rest = some st' ∧
      Inv g dom info st' done' ∧ Sound g dom p headerState started entdom st' := by
  by_cases header : g.IsHeader b
  · obtain ⟨⟨entries,entries_eq,entries_above⟩,backs,backs_eq,backs_above⟩ := inv.reads nest work (p := p)
    cases first : st.firstIter b with
    | true =>
      have closed : ¬ Open st b := fun isOpen => Bool.noConfusion (first.symm.trans isOpen)
      obtain ⟨input,s,policy,above,same,begins⟩ := lawful.first (p.enterContext entries b) backs
      refine ⟨_,inv.turn_iteration nest work sound header ?_ (fun isOpen => absurd isOpen closed)
        (fun _ e target front d mark => ?_) same begins⟩
      · simp [processHeader,first,entries_eq,backs_eq,policy,State.unmark]
      · exact ((entries_above e target front d mark).trans (enter _ _)).trans above
    | false =>
      obtain ⟨s,state⟩ := Option.isSome_iff_exists.mp (inv.states b first)
      obtain ⟨goes,recorded⟩ := sound.headers b s first state
      obtain ⟨fixpoint,input,s',policy,above,same,stop,begins⟩ := lawful.again s (p.enterContext entries b) backs goes
      have above' (e : Fin m) (target : g.target e = b) (back : isBackEdge g dom e = true) (d : D)
          (mark : st.mark e = some d) : d ≤ input := (backs_above first e target back d mark).trans above
      cases fixpoint with
      | false =>
        refine ⟨_,inv.turn_iteration nest work sound header ?_ (fun _ => above') (fun closed => absurd first closed) same begins⟩
        simp [processHeader,first,state,entries_eq,backs_eq,policy,State.unmark]
      | true =>
        refine ⟨_,inv.turn_fixpoint nest work sound leave first ?_ above' (stop rfl ▸ recorded)⟩
        simp [processHeader,first,state,entries_eq,backs_eq,policy,State.unmark]
  · exact ⟨_,inv.turn_simple nest work sound header⟩

end Turns

omit [SemilatticeSup D] [OrderBot D] in
theorem Inv.start (nest : Nested g dom info) : Inv g dom info (State.start (S := S) (D := D) g) fun _ => False := by
  have closed (c : Fin n) : ¬ Open (State.start (S := S) (D := D) g) c := Bool.noConfusion
  refine ⟨⟨fun c isOpen => absurd isOpen (closed c),fun e _ after => ?_,fun h _ done => done.elim,fun h isOpen => absurd isOpen (closed h),
    fun e _ active sent _ => ?_,fun e present => ?_,fun e k _ _ isOpen => absurd isOpen (closed k),
    fun h isOpen => absurd isOpen (closed h)⟩,fun c => ?_,List.nodup_singleton _,fun _ => rfl,fun main => ?_⟩
  · exact after.elim False.elim fun isOpen => absurd isOpen (closed _)
  · rw [sent.resolve_right id] at active
    exact absurd active (closed _)
  · cases present
  · constructor
    · intro inside
      obtain rfl := List.mem_singleton.mp inside
      have none : info.enclosing g.entry = none := Option.eq_none_iff_forall_ne_some.mpr fun h => enclosing_entry nest
      refine Or.inl ⟨none ▸ trivial,id,closed _,fun e target => absurd target (target_ne_entry nest e)⟩
    · rintro (⟨active,-,-,sent⟩ | ⟨isOpen,-⟩)
      · by_contra outside
        obtain ⟨e,rfl,front⟩ := exists_front nest (b := c) fun same => outside (List.mem_singleton.mpr same)
        have own := (sent e rfl front).resolve_right id
        rw [level_of_front front] at own
        rw [own] at active
        exact closed _ active
      · exact absurd isOpen (closed c)
  · cases main

omit [OrderBot D] in
theorem Sound.start : Sound g dom p headerState started entdom (State.start g) where
  begun main := by cases main
  covered e i inside := by cases inside
  entries e s _ isOpen := by cases isOpen
  headers h s isOpen := by cases isOpen

theorem solveFrom_keeps (nest : Nested g dom info) (lawful : fp.Lawful headerState started)
    (enter : ∀ d c, d ≤ p.enterContext d c) (leave : ∀ d c, d ≤ p.leaveContext d c) {fuel : Nat}
    (inv : Inv g dom info st done) (sound : Sound g dom p headerState started entdom st)
    (run : solveFrom g dom info fp p entdom fuel st = some st') :
    st'.workList = [] ∧ (∃ done', Inv g dom info st' done') ∧ Sound g dom p headerState started entdom st' := by
  induction fuel generalizing st done with
  | zero =>
    rw [solveFrom] at run
    split at run
    next empty =>
      obtain rfl := Option.some.inj run
      exact ⟨empty,⟨done,inv⟩,sound⟩
    next => cases run
  | succ fuel ih =>
    rw [solveFrom] at run
    split at run
    next empty =>
      obtain rfl := Option.some.inj run
      exact ⟨empty,⟨done,inv⟩,sound⟩
    next b rest work =>
      obtain ⟨done',next,turn,inv',sound'⟩ := inv.turn nest work sound lawful enter leave
      rw [turn,Option.bind_some] at run
      exact ih inv' sound' run

section Finished
variable (nest : Nested g dom info) (reducible : FlowGraph.Reducible g.Flow g.entry)
variable (inv : Inv g dom info st done) (empty : st.workList = [])
include nest inv empty

omit [SemilatticeSup D] [OrderBot D]

include reducible in
theorem Inv.level_done {o : Option (Fin n)} (active : Active st o) (closed : ∀ c, info.enclosing c = o → ¬ Open st c)
    {c : Fin n} (inside : info.enclosing c = o) : done c := by
  by_contra undone
  obtain ⟨a,⟨inside,undone⟩,least⟩ := reducible.exists_first (p := fun c => info.enclosing c = o ∧ ¬ done c) ⟨inside,undone⟩
  have pending : Pending g dom info st done a := by
    refine Or.inl ⟨inside ▸ active,undone,closed a inside,fun e target front => ?_⟩
    have same : level g dom info e = o := by rw [level_of_front front,target,inside]
    rcases level_unit nest (e := e) with own | around
    · exact Or.inl own
    · refine Or.inr ?_
      by_contra waits
      refine least _ ⟨around.symm.trans same,waits⟩ ?_
      exact target ▸ forward_unit nest.scanned nest.picked ((isFront_iff nest).mp front)
  have inside := (inv.pending a).mpr pending
  rw [empty] at inside
  cases inside

include reducible in
theorem Inv.none_open (h : Fin n) : ¬ Open st h := by
  intro isOpen
  obtain ⟨h,isOpen,last⟩ := reducible.exists_last (p := Open st) isOpen
  have closed (c : Fin n) (inside : info.enclosing c = some h) : ¬ Open st c := by
    intro isOpen'
    have body := enclosing_body nest.picked inside
    rcases Relation.reflTransGen_iff_eq_or_transGen.mp (body.dominates.forward (nest.reachable c)) with same | path
    · exact body.ne same
    · exact last c isOpen' path
  have pending : Pending g dom info st done h := by
    refine Or.inr ⟨isOpen,fun e target back => ?_⟩
    have same : level g dom info e = some h := by rw [level_of_back back,target]
    rcases level_unit nest (e := e) with own | around
    · exact Or.inl own
    · exact Or.inr (inv.level_done nest reducible empty (o := some h) isOpen closed (around.symm.trans same))
  have inside := (inv.pending h).mpr pending
  rw [empty] at inside
  cases inside

include reducible in
theorem Inv.none_marked (e : Fin m) : st.mark e = none := by
  rw [← Option.not_isSome_iff_eq_none]
  intro present
  obtain ⟨active,waits,-⟩ := inv.waiting e present
  have closed := inv.none_open nest reducible empty
  cases direction : isBackEdge g dom e with
  | true =>
    rw [level_of_back direction] at active
    exact closed _ active
  | false =>
    rw [level_of_front direction] at active
    have top : info.enclosing (g.target e) = none := by
      cases around : info.enclosing (g.target e) with
      | none => rfl
      | some h =>
        rw [around] at active
        exact absurd active (closed h)
    refine (waits.resolve_left ?_) (inv.level_done nest reducible empty (o := none) trivial (fun c _ => closed c) top)
    rw [direction]
    exact Bool.false_ne_true

end Finished

/-- The state of a path from the entry to a block: the functions of its blocks but the last
    one, applied to the entry state. -/
inductive PathState (g : CFG n m) (p : Problem n D) (entdom : D) : Fin n → D → Prop
  | entry : PathState g p entdom g.entry entdom
  | step {e : Fin m} {d : D} : PathState g p entdom (g.source e) d → g.kind e ≠ .call →
      PathState g p entdom (g.target e) (p.update d (g.source e))

def State.result (st : State n m S D) (b : Fin n) : D := (st.interpreted b).foldr (fun input result => result ⊔ input) ⊥

theorem le_result {d : D} (recorded : d ∈ st.interpreted b) : d ≤ st.result b := by
  unfold State.result
  generalize st.interpreted b = inputs at recorded
  induction inputs with
  | nil => cases recorded
  | cons input inputs ih =>
    rcases List.mem_cons.mp recorded with rfl | recorded
    · exact le_sup_right
    · exact (ih recorded).trans le_sup_left

theorem solve_covers (nest : Nested g dom info) (reducible : FlowGraph.Reducible g.Flow g.entry)
    (lawful : fp.Lawful headerState started) (enter : ∀ d c, d ≤ p.enterContext d c) (leave : ∀ d c, d ≤ p.leaveContext d c)
    (monotone : ∀ c d d', d ≤ d' → p.update d c ≤ p.update d' c) {fuel : Nat}
    (run : solve g dom info fp p entdom fuel = some st) {d : D} (path : PathState g p entdom b d) : d ≤ st.result b := by
  obtain ⟨empty,⟨done,inv⟩,sound⟩ := solveFrom_keeps nest lawful enter leave (Inv.start nest) Sound.start run
  have main : st.mainEntry = false := by
    rw [← Bool.not_eq_true]
    intro main
    have some := inv.main main
    rw [empty] at some
    cases some
  suffices covered : ∃ i ∈ st.interpreted b, d ≤ i by
    obtain ⟨i,recorded,below⟩ := covered
    exact below.trans (le_result recorded)
  induction path with
  | entry => exact ⟨entdom,sound.begun main,le_refl _⟩
  | @step e d path flow ih =>
    obtain ⟨i,recorded,below⟩ := ih
    rcases sound.covered e i recorded with ⟨j,recorded',above⟩ | ⟨s,mark,-⟩
    · exact ⟨j,recorded',(monotone _ d i below).trans above⟩
    · rw [inv.none_marked nest reducible empty] at mark
      cases mark

end Otawa.Hai
