import Otawa.DelayedBuilder
import Otawa.Folds
import Mathlib.Logic.Relation

/-!
What the hardware executes and what the paths of the CFG that `DelayedBuilder` builds
read, when each delayed branch executes the next instruction in any case. The block of the branch
is extended by its slot, but the slot stays at the start of the sequential block, so
that it is read again on the way there (`paths_exact_iff`).
-/
namespace Otawa.Delayed
open Otawa.Cfg (CFG EdgeKind)
open Otawa.Folds
open Otawa.PathReads (LabelledGraph)

/-! ### The hardware -/

section
variable {n m k : Nat} (code : Code k) (g : Source n m k)

def Source.slot (bb : Fin n) : Option (Fin k) :=
  (g.controlInst code bb).bind fun control => if code.type control = .always then Code.nextInst control else none

/-- An edge in sequence after a delayed branch, or back from one that is a call: the slot
    at the start of its target has been executed with the branch. -/
def Source.Skips (e : Fin m) : Prop :=
  g.kind e = .notTaken ∧ (g.slot code (g.source e)).isSome = true ∨
    g.kind e = .virtualReturn ∧ ∃ b, g.slot code b = some (g.first (g.target e))

instance (e : Fin m) : Decidable (g.Skips code e) := inferInstanceAs (Decidable (_ ∨ _))

/-- The executions: a block, from its start or after its first instruction, and then the
    slot of its branch. -/
def Source.hardware : LabelledGraph (Fin n × Bool) (Executed k) where
  entry := (g.entry,false)
  exit := (g.exit,false)
  link := fun x y => ∃ e, g.kind e ≠ .call ∧ g.source e = x.1 ∧ g.target e = y.1 ∧ (y.2 = true ↔ g.Skips code e)
  label := fun x => (((g.insts code x.1).drop (if x.2 then 1 else 0)) ++ (g.slot code x.1).toList).map .inst

/-- The CFGs with one slot instruction for each delayed branch: instructions do not overlap,
    the blocks are made of whole ones, a branch is at the end of its block, and its slot is
    no branch and is at the start of the sequential block. -/
structure Delayable : Prop where
  ends : g.entry ≠ g.exit
  sized : ∀ i, 0 < code.size i
  ordered : ∀ i j : Fin k, i < j → code.topAddress i ≤ code.address j
  whole : ∀ b, g.isEnd b = false → ∃ last ∈ g.insts code b, code.topAddress last = code.address (g.first b) + g.size b
  branch : ∀ b, ∀ i ∈ g.insts code b, code.isControl i = true → code.topAddress i = code.address (g.first b) + g.size b
  always : ∀ b, ∀ i ∈ g.insts code b, code.type i = .none ∨
    code.type i = .always ∧ code.isControl i = true ∧ code.count i = 1 ∧
      ∃ slot, Code.nextInst i = some slot ∧ code.address slot = code.topAddress i ∧ code.isControl slot = false
  sequential : ∀ e, g.kind e = .notTaken → ∀ slot, g.slot code (g.source e) = some slot →
    g.isEnd (g.target e) = false ∧ g.first (g.target e) = slot
  inner : ∀ e, g.kind e = .virtualReturn → g.isEnd (g.target e) = false
  through : ∀ e, g.isEnd (g.source e) = false → g.kind e ≠ .call → g.kind e ≠ .notTaken →
    ∃ i ∈ g.insts code (g.source e), code.isControl i = true
  entered : ∀ e, g.kind e ≠ .call → g.target e ≠ g.entry
  left : ∀ e, g.kind e ≠ .call → g.source e ≠ g.exit

/-- The calls of other CFGs are delayed branches. -/
def Source.CallsDelayed : Prop :=
  ∀ e, g.kind e = .call → (g.slot code (g.source e)).isSome = true ∨ g.recursive e = true

/-- No instruction is in two blocks: no part of the CFG has been duplicated. -/
def Source.Disjoint : Prop := ∀ b c, ∀ i ∈ g.insts code b, i ∈ g.insts code c → b = c

end

/-! ### Blocks of instructions -/

namespace Code
variable {k : Nat} {code : Code k}

theorem drop_eq (i : Fin k) : (List.finRange k).drop i = i :: (List.finRange k).drop (i + 1) := by
  rw [List.drop_eq_getElem_cons (by simp)]
  simp

theorem drop_next (i : Fin k) : ((List.finRange k).drop (i + 1)).head? = nextInst i := by
  unfold nextInst
  split
  case isTrue bound => simp [List.head?_drop,bound]
  case isFalse bound => simp [List.head?_drop,Nat.le_of_not_lt bound]

theorem upTo_subset {top : Nat} {list : List (Fin k)} : code.upTo top list ⊆ list := by
  induction list with
  | nil => exact fun _ member => member
  | cons i rest ih =>
    unfold upTo
    split
    · simp
    · exact List.cons_subset_cons i ih

theorem upTo_sublist {top : Nat} {list : List (Fin k)} : (code.upTo top list).Sublist list := by
  induction list with
  | nil => exact .refl _
  | cons i rest ih =>
    unfold upTo
    split
    · simp
    · exact ih.cons_cons i

variable (code) in
theorem insts_head (first : Fin k) (size : Nat) : ∃ rest, code.insts first size = first :: rest := by
  unfold insts
  rw [drop_eq]
  exact ⟨_,rfl⟩

variable (code) in
theorem insts_nodup (first : Fin k) (size : Nat) : (code.insts first size).Nodup :=
  ((List.nodup_finRange k).sublist (List.drop_sublist _ _)).sublist upTo_sublist

theorem upTo_split {top : Nat} {pre post : List (Fin k)} {last : Fin k} (before : ∀ i ∈ pre, code.topAddress i < top) :
    code.upTo top (pre ++ last :: post) =
      pre ++ last :: if top ≤ code.topAddress last then [] else code.upTo top post := by
  induction pre with
  | nil => rfl
  | cons i rest ih =>
    obtain ⟨here,others⟩ := List.forall_mem_cons.mp before
    simp only [List.cons_append,upTo,ge_iff_le,Nat.not_le.mpr here,if_false,ih others]

theorem upTo_eq_nil {top : Nat} {list : List (Fin k)} : code.upTo top list = [] ↔ list = [] := by
  cases list <;> simp [upTo]

theorem drop_after {first last : Fin k} (pre : List (Fin k)) {post : List (Fin k)}
    (split : (List.finRange k).drop first = pre ++ last :: post) : post = (List.finRange k).drop (last + 1) := by
  have index : (last : Nat) = first + pre.length := by
    have known : ((List.finRange k).drop first)[pre.length]? = some last := by simp [split]
    rw [List.getElem?_drop,List.getElem?_eq_some_iff] at known
    obtain ⟨bound,same⟩ := known
    rw [← same]
    simp
  have rest : ((List.finRange k).drop first).drop (pre.length + 1) = post := by
    rw [split,← List.drop_drop]
    simp
  rw [← rest,List.drop_drop,index]
  rfl

end Code

section
variable {n m k : Nat} {code : Code k} {g : Source n m k} (delayable : Delayable code g) {b : Fin n}

theorem Source.insts_inner (inner : g.isEnd b = false) : g.insts code b = code.insts (g.first b) (g.size b) := by
  simp [Source.insts,inner]

theorem Source.insts_end (isEnd : g.isEnd b = true) : g.insts code b = [] := by simp [Source.insts,isEnd]

theorem Source.slot_end (isEnd : g.isEnd b = true) : g.slot code b = none := by
  simp [Source.slot,Source.controlInst,Source.insts_end isEnd]

section
include delayable

theorem Delayable.topAddress_lt {i j : Fin k} (less : i < j) : code.topAddress i < code.topAddress j := by
  have below := delayable.ordered i j less
  have sized := delayable.sized j
  unfold Code.topAddress at *
  omega

theorem Delayable.topAddress_inj {i j : Fin k} (same : code.topAddress i = code.topAddress j) : i = j := by
  rcases Nat.lt_trichotomy i j with less | equal | more
  · exact absurd same (Nat.ne_of_lt (delayable.topAddress_lt less))
  · exact Fin.ext equal
  · exact absurd same.symm (Nat.ne_of_lt (delayable.topAddress_lt more))

theorem Delayable.split (inner : g.isEnd b = false) : ∃ (pre : List (Fin k)) (last : Fin k),
    (List.finRange k).drop (g.first b) = pre ++ last :: (List.finRange k).drop (last + 1) ∧
      g.insts code b = pre ++ [last] ∧ code.topAddress last = code.address (g.first b) + g.size b ∧
      ∀ i ∈ pre, code.topAddress i < code.topAddress last := by
  obtain ⟨last,listed,top⟩ := delayable.whole b inner
  rw [Source.insts_inner inner] at listed ⊢
  obtain ⟨pre,post,split⟩ := List.append_of_mem (Code.upTo_subset listed)
  have sorted : ((List.finRange k).drop (g.first b)).Pairwise (· < ·) :=
    (List.pairwise_lt_finRange k).sublist (List.drop_sublist _ _)
  rw [split] at sorted
  have before : ∀ i ∈ pre, code.topAddress i < code.topAddress last := fun i member =>
    delayable.topAddress_lt ((List.pairwise_append.mp sorted).2.2 i member last List.mem_cons_self)
  refine ⟨pre,last,by rw [split,← Code.drop_after pre split],?_,top,before⟩
  unfold Code.insts
  rw [split,Code.upTo_split (fun i member => top ▸ before i member),if_pos (Nat.le_of_eq top.symm)]

theorem Delayable.controlInst (inner : g.isEnd b = false) : ∃ (pre : List (Fin k)) (last : Fin k),
    g.insts code b = pre ++ [last] ∧
    g.controlInst code b = some last ∧ code.topAddress last = code.address (g.first b) + g.size b ∧
    ((∃ i ∈ g.insts code b, code.isControl i = true) → code.isControl last = true) := by
  obtain ⟨pre,last,-,insts,top,before⟩ := delayable.split inner
  have only : ∀ i ∈ g.insts code b, code.isControl i = true → i = last := fun i member control =>
    delayable.topAddress_inj ((delayable.branch b i member control).trans top.symm)
  refine ⟨pre,last,insts,?_,top,?_⟩
  · have none : pre.filter code.isControl = [] := by
      refine List.filter_eq_nil_iff.mpr fun i member control => ?_
      have same := only i (insts ▸ List.mem_append_left _ member) control
      exact absurd (before i member) (by simp [same])
    unfold Source.controlInst
    rw [insts,List.filter_append,none]
    cases control : code.isControl last <;> simp [control]
  · rintro ⟨i,member,control⟩
    exact only i member control ▸ control

theorem Delayable.of_slot {slot : Fin k} (known : g.slot code b = some slot) :
    ∃ (pre : List (Fin k)) (branch : Fin k),
    g.isEnd b = false ∧ g.insts code b = pre ++ [branch] ∧ g.controlInst code b = some branch ∧
      code.topAddress branch = code.address (g.first b) + g.size b ∧ code.type branch = .always ∧
      code.count branch = 1 ∧ Code.nextInst branch = some slot ∧ code.address slot = code.topAddress branch ∧
      code.isControl slot = false := by
  have inner : g.isEnd b = false := by
    cases isEnd : g.isEnd b with
    | false => rfl
    | true => rw [Source.slot_end isEnd] at known; cases known
  obtain ⟨pre,branch,insts,control,top,-⟩ := delayable.controlInst inner
  unfold Source.slot at known
  rw [control,Option.bind_some] at known
  split at known
  case isFalse => cases known
  case isTrue type =>
    rcases delayable.always b branch (by simp [insts]) with none | ⟨-,-,count,slot',next,address,plain⟩
    · rw [none] at type
      cases type
    · obtain rfl := Option.some.inj (known.symm.trans next)
      exact ⟨pre,branch,inner,insts,control,top,type,count,known,address,plain⟩

theorem Delayable.extended {slot : Fin k} (known : g.slot code b = some slot) :
    ∃ (branch : Fin k) (extra : List (Fin k)),
    g.controlInst code b = some branch ∧ code.sizeOf branch (code.count branch) = some (code.size branch) ∧
      code.insts (g.first b) (g.size b + code.size branch) = g.insts code b ++ slot :: extra ∧
      (extra = [] ↔ code.size branch ≤ code.size slot ∨ Code.nextInst slot = none) := by
  obtain ⟨pre,branch,inner,insts,control,top,-,count,next,address,-⟩ := delayable.of_slot known
  obtain ⟨pre',last,split,insts',-,before⟩ := delayable.split inner
  obtain ⟨rfl,same⟩ := List.append_inj' (insts.symm.trans insts') rfl
  obtain rfl := (List.cons.inj same).1
  have rest : (List.finRange k).drop (branch + 1) = slot :: (List.finRange k).drop (slot + 1) := by
    cases after : (List.finRange k).drop (branch + 1) with
    | nil =>
      have none := Code.drop_next branch
      rw [after,next] at none
      cases none
    | cons i post =>
      have first := Code.drop_next branch
      rw [after,next,List.head?_cons] at first
      obtain rfl := Option.some.inj first
      have later := Code.drop_after [] (by rw [List.nil_append]; exact Code.drop_eq i)
      have bound : (i : Nat) = branch + 1 := by
        unfold Code.nextInst at next
        split at next
        · exact congrArg Fin.val (Option.some.inj next).symm
        · cases next
      rw [bound.symm,Code.drop_eq] at after
      rw [← after]
  refine ⟨branch,if code.size branch ≤ code.size slot then []
    else code.upTo (code.address (g.first b) + (g.size b + code.size branch)) ((List.finRange k).drop (slot + 1)),
    control,?_,?_,?_⟩
  · simp [count,Code.sizeOf,Code.following,next,address]
  · have above : ∀ i ∈ pre, code.topAddress i < code.address (g.first b) + (g.size b + code.size branch) := by
      intro i member
      have less := before i member
      omega
    have sized := delayable.sized branch
    have beyond : ¬ code.address (g.first b) + (g.size b + code.size branch) ≤ code.topAddress branch := by omega
    have here : code.address (g.first b) + (g.size b + code.size branch) ≤ code.topAddress slot ↔
        code.size branch ≤ code.size slot := by
      unfold Code.topAddress at address top ⊢
      omega
    unfold Code.insts
    rw [split,Code.upTo_split above,if_neg beyond,rest,insts]
    simp only [Code.upTo,ge_iff_le,here,List.append_assoc,List.singleton_append]
  · split
    case isTrue small => simp [small]
    case isFalse large =>
      have none : (List.finRange k).drop (slot + 1) = [] ↔ Code.nextInst slot = none := by
        rw [← Code.drop_next,List.head?_eq_none_iff]
      simp only [Code.upTo_eq_nil,none,large,false_or]

end

/-! ### The phases -/

def Source.extent (code : Code k) (g : Source n m k) (bb : Fin n) : Nat :=
  if (g.slot code bb).isSome then g.size bb + ((g.controlInst code bb).map code.size).getD 0 else g.size bb

theorem Source.slot_of_control {control : Fin k} (known : g.controlInst code b = some control) :
    g.slot code b = if code.type control = .always then Code.nextInst control else none := by
  simp [Source.slot,known]

include delayable in
theorem Delayable.mark : ∃ marks, mark code g = some marks ∧
    ∀ b, marks.action b = if (g.slot code b).isSome then .swallow else .nothing := by
  have marked : ∃ marks, Delayed.mark code g = some marks ∧
      ∀ b, marks.action b = if b ∈ g.blocks ∧ (g.slot code b).isSome then .swallow else .nothing := by
    refine foldlM_returns (f := markBlock code g) (fun seen (marks : Marks n k) => ∀ b,
      marks.action b = if b ∈ seen ∧ (g.slot code b).isSome then .swallow else .nothing)
      (fun seen bb rest _ marks known => ?_) (by simp)
    -- a block whose mark is the one it has had
    have kept : g.slot code bb = none → ∀ b, marks.action b =
        if b ∈ seen ++ [bb] ∧ (g.slot code b).isSome then .swallow else .nothing := by
      intro plain b
      rw [known]
      by_cases same : b = bb
      · simp [same,plain]
      · simp [same]
    cases control : g.controlInst code bb with
    | none => exact ⟨marks,by simp [markBlock,control],kept (by simp [Source.slot,control])⟩
    | some branch =>
      have inner : g.isEnd bb = false := by
        cases isEnd : g.isEnd bb with
        | false => rfl
        | true => simp [Source.controlInst,Source.insts_end isEnd] at control
      obtain ⟨pre,last,insts,control',-,-⟩ := delayable.controlInst inner
      obtain rfl := Option.some.inj (control.symm.trans control')
      rcases delayable.always bb branch (by simp [insts]) with none | ⟨always,-,-,slot,next,address,-⟩
      · exact ⟨marks,by simp [markBlock,control,none],kept (by simp [Source.slot_of_control control,none])⟩
      · have found : code.next branch 1 = some slot := by simp [Code.next,Code.following,next,address]
        refine ⟨_,(by simp only [markBlock,control,always,found,Option.map_some]; exact rfl),fun b => ?_⟩
        by_cases same : b = bb
        · simp [same,Source.slot_of_control control,always,next]
        · simp [same,known b]
  obtain ⟨marks,done,all⟩ := marked
  exact ⟨marks,done,by simpa using all⟩

def Built.Copy (s : Built n k) (code : Code k) (g : Source n m k) (b : Fin n) : Vertex → Prop
  | .entry => b = g.entry
  | .exit => b = g.exit
  | .called => False
  | .bb i => g.isEnd b = false ∧ s.blocks[i]? = some (.code (g.first b) (g.extent code b))

include delayable in
theorem Delayable.buildBB {marks : Marks n k}
    (actions : ∀ b, marks.action b = if (g.slot code b).isSome then .swallow else .nothing) :
    ∃ s, buildBB code g marks = some s ∧ s.edges = [] ∧ (∀ b, s.delayedTarget b = none) ∧
      ∀ b, ∃ v, s.map b = some v ∧ s.Copy code g b v := by
  have built : ∃ s, Delayed.buildBB code g marks = some s ∧ s.edges = [] ∧ (∀ b, s.delayedTarget b = none) ∧
      ∀ b ∈ g.blocks, ∃ v, s.map b = some v ∧ s.Copy code g b v := by
    refine foldlM_returns (f := buildBlock code g marks) (fun seen (s : Built n k) => s.edges = [] ∧ (∀ b, s.delayedTarget b = none) ∧
      ∀ b ∈ seen, ∃ v, s.map b = some v ∧ s.Copy code g b v)
      (fun seen bb rest _ s ⟨edges,targets,known⟩ => ?_) (by simp)
    have put : ∀ t : Built n k, (∀ b v, s.Copy code g b v → t.Copy code g b v) → ∀ v, t.Copy code g bb v →
        ∀ b ∈ seen ++ [bb], ∃ v', Function.update s.map bb (some v) b = some v' ∧ t.Copy code g b v' := by
      intro t more v copy b member
      by_cases same : b = bb
      · exact ⟨v,by simp [same],same ▸ copy⟩
      · obtain ⟨v',found,copy'⟩ := known b (by simpa [same] using member)
        exact ⟨v',by simp [same,found],more b v' copy'⟩
    by_cases entry : bb = g.entry
    · refine ⟨{s with map := Function.update s.map bb (some .entry)},?_,edges,targets,?_⟩
      · simp [buildBlock,entry]
      · exact put {s with map := Function.update s.map bb (some .entry)} (fun _ _ copy => copy) .entry entry
    by_cases exit : bb = g.exit
    · refine ⟨{s with map := Function.update s.map bb (some .exit)},?_,edges,targets,?_⟩
      · simp [buildBlock,exit,delayable.ends.symm]
      · exact put {s with map := Function.update s.map bb (some .exit)} (fun _ _ copy => copy) .exit exit
    have inner : g.isEnd bb = false := by simp [Source.isEnd,entry,exit]
    refine ⟨{(s.addBB (.code (g.first bb) (g.extent code bb))).1 with
      map := Function.update s.map bb (some (.bb s.blocks.length))},?_,edges,targets,?_⟩
    · cases slot : g.slot code bb with
      | none => simp [buildBlock,entry,exit,actions bb,slot,Source.extent,Built.addBB]
      | some i =>
        obtain ⟨branch,-,control,sized,-,-⟩ := delayable.extended slot
        simp [buildBlock,entry,exit,actions bb,slot,Source.extent,Built.addBB,control,sized]
    · refine put {(s.addBB (.code (g.first bb) (g.extent code bb))).1 with
        map := Function.update s.map bb (some (.bb s.blocks.length))} (fun b v copy => ?_) (.bb s.blocks.length)
        ⟨inner,by simp [Built.addBB]⟩
      cases v with
      | bb i =>
        obtain ⟨inner,block⟩ := copy
        have bound := (List.getElem?_eq_some_iff.mp block).1
        exact ⟨inner,by simpa [Built.addBB,List.getElem?_append_left bound] using block⟩
      | entry | exit | called => exact copy
  obtain ⟨s,done,edges,targets,all⟩ := built
  exact ⟨s,done,edges,targets,by simpa using all⟩

variable {s : Built n k} {read : List (Executed k)}

theorem Built.linked_addEdge {source target x y : Vertex} {kind : EdgeKind} :
    (s.addEdge source target kind).Linked x y ↔ s.Linked x y ∨ kind ≠ .call ∧ source = x ∧ target = y := by
  simp only [Built.Linked,Built.addEdge,List.mem_append,List.mem_singleton]
  constructor
  · rintro ⟨e,member | rfl,linked⟩
    · exact .inl ⟨e,member,linked⟩
    · exact .inr linked
  · rintro (⟨e,member,linked⟩ | linked)
    · exact ⟨e,.inl member,linked⟩
    · exact ⟨_,.inr rfl,linked⟩

structure Copied (g : Source n m k) (first : Built n k) (done : Fin m → Prop) (s : Built n k) : Prop where
  blocks : s.blocks = first.blocks
  map : s.map = first.map
  delayedTarget : s.delayedTarget = first.delayedTarget
  linked : ∀ x y, s.Linked x y ↔ ∃ e, done e ∧ g.kind e ≠ .call ∧
    first.map (g.source e) = some x ∧ first.map (g.target e) = some y

variable (code) in
theorem Copied.buildEdge {marks : Marks n k} {first s : Built n k} {done : Fin m → Prop} {bb : Fin n} {vbb : Vertex}
    (edge : Fin m) (actions : marks.action bb = .nothing ∨ marks.action bb = .swallow)
    (own : g.kind edge = .call → marks.action bb = .swallow ∨ g.recursive edge = true)
    (targets : ∀ b, first.delayedTarget b = none) (mapped : ∀ b, ∃ v, first.map b = some v)
    (source : g.source edge = bb) (known : first.map bb = some vbb) (copied : Copied g first done s) :
    ∃ t, buildEdge code g marks bb vbb s edge = some t ∧ Copied g first (fun e => done e ∨ e = edge) t := by
  obtain ⟨target,found⟩ := mapped (g.target edge)
  by_cases call : g.kind edge = .call
  · have returns : ∃ callee, Delayed.buildEdge code g marks bb vbb s edge = some (s.addEdge vbb callee .call) := by
      rcases actions with action | action
      · have recursive : g.recursive edge = true := (own call).resolve_left (by simp [action])
        exact ⟨.entry,by simp [Delayed.buildEdge,action,cloneEdge,Built.targetOf,call,recursive]⟩
      · exact ⟨_,by simp only [Delayed.buildEdge,action,call,if_true]; rfl⟩
    obtain ⟨callee,returns⟩ := returns
    refine ⟨s.addEdge vbb callee .call,returns,copied.blocks,copied.map,copied.delayedTarget,fun x y => ?_⟩
    · simp only [Built.linked_addEdge,ne_eq,not_true_eq_false,false_and,or_false,copied.linked]
      constructor
      · rintro ⟨e,earlier,linked⟩
        exact ⟨e,.inl earlier,linked⟩
      · rintro ⟨e,earlier | rfl,flow,linked⟩
        · exact ⟨e,earlier,flow,linked⟩
        · exact absurd call flow
  · refine ⟨s.addEdge vbb target (g.kind edge),?_,copied.blocks,copied.map,copied.delayedTarget,fun x y => ?_⟩
    · rcases actions with action | action <;>
        simp [Delayed.buildEdge,action,cloneEdge,Built.targetOf,call,copied.map,copied.delayedTarget,targets,found]
    · simp only [Built.linked_addEdge,copied.linked]
      constructor
      · rintro (⟨e,earlier,linked⟩ | ⟨flow,rfl,rfl⟩)
        · exact ⟨e,.inl earlier,linked⟩
        · exact ⟨edge,.inr rfl,flow,by rw [source,known],found⟩
      · rintro ⟨e,earlier | rfl,flow,linked⟩
        · exact .inl ⟨e,earlier,flow,linked⟩
        · rw [source,known,found] at linked
          exact .inr ⟨flow,Option.some.inj linked.1,Option.some.inj linked.2⟩

include delayable in
theorem Delayable.build (calls : g.CallsDelayed code) : ∃ s, build code g = some s ∧ (∀ b, ∃ v, s.map b = some v ∧ s.Copy code g b v) ∧
    ∀ x y, s.Linked x y ↔ ∃ b c, g.Flow b c ∧ s.map b = some x ∧ s.map c = some y := by
  obtain ⟨marks,marked,actions⟩ := delayable.mark
  obtain ⟨first,blocks,none,targets,copies⟩ := delayable.buildBB actions
  have edges : ∃ s, g.blocks.foldlM (buildEdges code g marks) first = some s ∧
      Copied g first (fun e => g.source e ∈ g.blocks) s := by
    refine foldlM_returns (fun seen s => Copied g first (fun e => g.source e ∈ seen) s)
      (fun seen bb rest _ s copied => ?_) ⟨rfl,rfl,rfl,by simp [Built.Linked,none]⟩
    obtain ⟨vbb,known,-⟩ := copies bb
    have outs : ∃ t, (g.outs bb).foldlM (buildEdge code g marks bb vbb) s = some t ∧
        Copied g first (fun e => g.source e ∈ seen ∨ e ∈ g.outs bb) t := by
      refine foldlM_returns (fun listed t => Copied g first (fun e => g.source e ∈ seen ∨ e ∈ listed) t)
        (fun listed e others same t copied => ?_) (by simpa using copied)
      have source : g.source e = bb := (g.mem_outs).mp (same ▸ List.mem_append_right _ List.mem_cons_self)
      obtain ⟨u,one,more⟩ := copied.buildEdge code e
        (show marks.action bb = .nothing ∨ marks.action bb = .swallow by rw [actions]; split <;> simp)
        (fun call => (calls e call).imp_left fun slot => by rw [actions,← source,if_pos slot]) targets
        (fun b => (copies b).imp fun v found => found.1) source known
      exact ⟨u,one,by simpa [or_assoc] using more⟩
    obtain ⟨t,done,copied'⟩ := outs
    refine ⟨t,by simp [buildEdges,copied.map,known,done],?_⟩
    simpa using copied'
  obtain ⟨s,done,copied⟩ := edges
  refine ⟨s,by simp [Delayed.build,marked,blocks,done],fun b => ?_,fun x y => ?_⟩
  · obtain ⟨v,known,copy⟩ := copies b
    refine ⟨v,copied.map ▸ known,?_⟩
    cases v with
    | bb i => exact ⟨copy.1,copied.blocks ▸ copy.2⟩
    | entry | exit | called => exact copy
  · rw [copied.linked,copied.map]
    constructor
    · rintro ⟨e,-,flow,source,target⟩
      exact ⟨_,_,⟨e,flow,rfl,rfl⟩,source,target⟩
    · rintro ⟨-,-,⟨e,flow,rfl,rfl⟩,source,target⟩
      exact ⟨e,by simp,flow,source,target⟩

theorem cloneEdge_map {source : Vertex} {kind : EdgeKind} {s t : Built n k} {edge : Fin m}
    (done : cloneEdge g source kind s edge = some t) : t.map = s.map := by
  obtain ⟨target,-,rfl⟩ := Option.map_eq_some_iff.mp done
  rfl

theorem buildEdges_map {marks : Marks n k} {s t : Built n k} {bb : Fin n}
    (actions : marks.action bb = .nothing ∨ marks.action bb = .swallow)
    (done : buildEdges code g marks s bb = some t) : t.map = s.map := by
  unfold buildEdges at done
  cases known : s.map bb with
  | none => rw [known] at done; exact Option.some.inj done ▸ rfl
  | some vbb =>
    rw [known] at done
    refine foldlM_keeps (fun u => u.map = s.map) (fun u edge _ v turn kept => ?_) done rfl
    refine Eq.trans ?_ kept
    rcases actions with action | action
    · simp only [buildEdge,action] at turn
      exact cloneEdge_map turn
    · simp only [buildEdge,action] at turn
      split at turn
      · exact Option.some.inj turn ▸ rfl
      split at turn
      · exact cloneEdge_map turn
      · exact foldlM_keeps (fun w => w.map = u.map) (fun w out _ x made same => (cloneEdge_map made).trans same) turn rfl

include delayable in
/-- The build ends without failed assertion only when the calls of other CFGs are delayed. -/
theorem Delayable.callsDelayed (done : Delayed.build code g = some s) : g.CallsDelayed code := by
  obtain ⟨marks,marked,actions⟩ := delayable.mark
  obtain ⟨first,blocks,-,-,copies⟩ := delayable.buildBB actions
  have edges : g.blocks.foldlM (buildEdges code g marks) first = some s := by
    simpa [Delayed.build,marked,blocks] using done
  intro e call
  obtain ⟨u,v,one,kept⟩ := foldlM_each (fun u => u.map = first.map) (fun u bb _ v turn kept =>
    (buildEdges_map (by rw [actions]; split <;> simp) turn).trans kept) edges rfl (g.source e) (by simp)
  obtain ⟨vbb,known,-⟩ := copies (g.source e)
  have outs : (g.outs (g.source e)).foldlM (buildEdge code g marks (g.source e) vbb) u = some v := by
    simpa [buildEdges,kept,known] using one
  obtain ⟨w,x,turn,-⟩ := foldlM_each (fun _ => True) (fun _ _ _ _ _ _ => trivial) outs trivial e (by simp)
  cases slot : g.slot code (g.source e) with
  | some _ => exact .inl rfl
  | none =>
    right
    by_contra other
    simp [buildEdge,actions,slot,cloneEdge,Built.targetOf,call,other] at turn

/-- The paths of the CFG with the extended blocks. -/
def Source.extended (code : Code k) (g : Source n m k) : LabelledGraph (Fin n) (Executed k) where
  entry := g.entry
  exit := g.exit
  link := g.Flow
  label := fun b => if g.isEnd b then [] else (code.insts (g.first b) (g.extent code b)).map .inst

theorem Built.Copy.label {v : Vertex} (copy : s.Copy code g b v) :
    (g.extended code).label b = (s.graph code).label v := by
  cases v with
  | entry => simp [Source.extended,Built.graph,Source.isEnd,show b = g.entry from copy]
  | exit => simp [Source.extended,Built.graph,Source.isEnd,show b = g.exit from copy]
  | called => exact copy.elim
  | bb i => simp [Source.extended,Built.graph,copy.1,copy.2,Body.executed]

theorem Built.Copy.entry {v : Vertex} (delayable : Delayable code g) (copy : s.Copy code g g.entry v) :
    v = .entry := by
  cases v with
  | entry => rfl
  | exit => exact absurd copy delayable.ends
  | called => exact copy.elim
  | bb i => exact absurd copy.1 (by simp [Source.isEnd])

theorem Built.Copy.exit {v : Vertex} (delayable : Delayable code g) (copy : s.Copy code g g.exit v) :
    v = .exit := by
  cases v with
  | entry => exact absurd copy.symm delayable.ends
  | exit => rfl
  | called => exact copy.elim
  | bb i => exact absurd copy.1 (by simp [Source.isEnd])

theorem Source.first_mem (inner : g.isEnd b = false) : g.first b ∈ g.insts code b := by
  obtain ⟨rest,insts⟩ := Code.insts_head code (g.first b) (g.size b)
  simp [Source.insts_inner inner,insts]

theorem Source.Disjoint.first {c : Fin n} (disjoint : g.Disjoint code) (inner : g.isEnd b = false)
    (inner' : g.isEnd c = false) (same : g.first b = g.first c) : b = c :=
  disjoint b c (g.first b) (Source.first_mem inner) (same ▸ Source.first_mem inner')

theorem Built.Copy.inj {v : Vertex} {c : Fin n} (disjoint : g.Disjoint code) (copy : s.Copy code g b v)
    (copy' : s.Copy code g c v) : b = c := by
  cases v with
  | entry | exit => exact Eq.trans copy copy'.symm
  | called => exact copy.elim
  | bb i =>
    have same := Option.some.inj (copy.2.symm.trans copy'.2)
    exact disjoint.first copy.1 copy'.1 (Body.code.inj same).1

include delayable in
theorem Delayable.language (copies : ∀ b, ∃ v, s.map b = some v ∧ s.Copy code g b v)
    (linked : ∀ x y, s.Linked x y ↔ ∃ b c, g.Flow b c ∧ s.map b = some x ∧ s.map c = some y) :
    (∀ read, (g.extended code).Language read → (s.graph code).Language read) ∧
      (g.Disjoint code → ∀ read, (s.graph code).Language read → (g.extended code).Language read) := by
  have copy : ∀ b v, s.map b = some v → s.Copy code g b v := by
    intro b v known
    obtain ⟨v',known',copy⟩ := copies b
    exact Option.some.inj (known'.symm.trans known) ▸ copy
  have entry : s.map g.entry = some .entry := by
    obtain ⟨v,known,copy⟩ := copies g.entry
    exact copy.entry delayable ▸ known
  constructor
  · intro read path
    refine path.transfer (h := s.graph code) (fun b v => s.map b = some v) (fun b v known => (copy b v known).label)
      (fun b v next known flow => ?_) (fun v known => (copy g.exit v known).exit delayable) .entry entry
    obtain ⟨v',known',-⟩ := copies next
    exact ⟨v',known',(linked v v').mpr ⟨b,next,flow,known,known'⟩⟩
  · intro disjoint read path
    refine path.transfer (h := g.extended code) (fun v b => s.map b = some v) (fun v b known => (copy b v known).label.symm)
      (fun v b next known link => ?_) (fun b known => copy b .exit known) g.entry entry
    obtain ⟨b',c,flow,source,target⟩ := (linked v next).mp link
    obtain rfl := (copy b' v source).inj disjoint (copy b v known)
    exact ⟨c,target,flow⟩

theorem Source.label_extended (delayable : Delayable code g) (b : Fin n) : ∃ extra : List (Fin k),
    (g.extended code).label b = (g.hardware code).label (b,false) ++ extra.map .inst ∧
      (extra = [] ↔ ∀ slot branch, g.slot code b = some slot → g.controlInst code b = some branch →
        code.size branch ≤ code.size slot ∨ Code.nextInst slot = none) := by
  cases isEnd : g.isEnd b with
  | true =>
    refine ⟨[],?_,by simp [Source.slot_end isEnd]⟩
    simp [Source.extended,Source.hardware,isEnd,Source.insts_end isEnd,Source.slot_end isEnd]
  | false =>
    cases known : g.slot code b with
    | none =>
      refine ⟨[],?_,by simp⟩
      simp [Source.extended,Source.hardware,isEnd,Source.insts_inner isEnd,Source.extent,known]
    | some slot =>
      obtain ⟨branch,extra,control,-,insts,whole⟩ := delayable.extended known
      refine ⟨extra,?_,by simpa [control] using whole⟩
      simp [Source.extended,Source.hardware,isEnd,Source.extent,known,control,insts]

theorem Source.Skips.inner {e : Fin m} (delayable : Delayable code g) (skips : g.Skips code e) :
    g.isEnd (g.target e) = false := by
  rcases skips with ⟨kind,slot⟩ | ⟨kind,-⟩
  · obtain ⟨i,known⟩ := Option.isSome_iff_exists.mp slot
    exact (delayable.sequential e kind i known).1
  · exact delayable.inner e kind

theorem Source.Skips.first {e : Fin m} (delayable : Delayable code g) (skips : g.Skips code e) :
    ∃ b, g.slot code b = some (g.first (g.target e)) := by
  rcases skips with ⟨kind,slot⟩ | ⟨-,known⟩
  · obtain ⟨i,known⟩ := Option.isSome_iff_exists.mp slot
    exact ⟨_,(delayable.sequential e kind i known).2 ▸ known⟩
  · exact known

def Source.Executes (code : Code k) (g : Source n m k) (b : Fin n) : Prop :=
  Relation.ReflTransGen (g.hardware code).link (g.entry,false) (b,false) ∧ ∃ read, (g.hardware code).Reads (b,false) read

/-- The executions read each instruction once in the extended blocks: the size of a branch does
    not exceed the one of its slot, and when its slot is skipped in a block, the block is only
    made of it and the block of the branch has also edges to the blocks that follow. -/
def Source.ReadsOnce (code : Code k) (g : Source n m k) : Prop :=
  ∀ b, g.Executes code b →
    (∀ slot branch, g.slot code b = some slot → g.controlInst code b = some branch →
      code.size branch ≤ code.size slot ∨ Code.nextInst slot = none) ∧
    ∀ e, g.kind e ≠ .call → g.source e = b → g.Skips code e → (∃ read, (g.hardware code).Reads (g.target e,true) read) →
      g.insts code (g.target e) = [g.first (g.target e)] ∧
      ∀ next, g.Flow (g.target e) next → (∃ read, (g.hardware code).Reads (next,false) read) → g.Flow b next

theorem Delayable.single {e : Fin m} (delayable : Delayable code g) (skips : g.Skips code e)
    (single : g.insts code (g.target e) = [g.first (g.target e)]) :
    (g.hardware code).label (g.target e,true) = [] ∧
      ∀ y, (g.hardware code).link (g.target e,true) y → y.2 = false ∧ g.Flow (g.target e) y.1 := by
  obtain ⟨b,known⟩ := skips.first delayable
  obtain ⟨-,-,-,-,-,-,-,-,-,-,plain⟩ := delayable.of_slot known
  have none : g.slot code (g.target e) = none := by
    cases slot : g.slot code (g.target e) with
    | none => rfl
    | some i =>
      obtain ⟨pre,branch,-,insts,-,-,always,-,-,-,-⟩ := delayable.of_slot slot
      rw [single] at insts
      obtain ⟨-,same⟩ := List.append_inj' (show [] ++ [_] = _ from insts) rfl
      obtain rfl := (List.cons.inj same).1
      rcases delayable.always (g.target e) (g.first (g.target e)) (by simp [single]) with type | ⟨-,control,-⟩
      · rw [type] at always
        cases always
      · rw [plain] at control
        cases control
  refine ⟨by simp [Source.hardware,single,none],?_⟩
  rintro ⟨next,skip⟩ ⟨e',flow,source,target,known'⟩
  refine ⟨?_,e',flow,source,target⟩
  have notTaken : g.kind e' = .notTaken := by
    by_contra other
    obtain ⟨i,member,control⟩ := delayable.through e' (by rw [source]; exact skips.inner delayable) flow other
    rw [source,single,List.mem_singleton] at member
    rw [member,plain] at control
    cases control
  simp [Source.Skips,notTaken,source,none] at known'
  exact known'

theorem Delayable.reads_of_once (delayable : Delayable code g) (once : g.ReadsOnce code) {x : Fin n × Bool}
    (path : (g.hardware code).Reads x read) :
    Relation.ReflTransGen (g.hardware code).link (g.entry,false) x →
      (x.2 = false → (g.extended code).Reads x.1 read) ∧
      (x.2 = true → ∀ e, g.kind e ≠ .call → g.Skips code e → g.target e = x.1 → g.Executes code (g.source e) →
        ∃ next, g.Flow (g.source e) next ∧ (g.extended code).Reads next read) := by
  induction path with
  | exit => exact fun _ => ⟨fun _ => .exit,fun skip => nomatch skip⟩
  | @step x y read linked rest ih =>
    intro reached
    obtain ⟨plain,skipped⟩ := ih (reached.tail linked)
    obtain ⟨c,skip⟩ := x
    cases skip with
    | false =>
      refine ⟨fun _ => ?_,fun skip => nomatch skip⟩
      have executes : g.Executes code c := ⟨reached,_,.step linked rest⟩
      obtain ⟨extra,label,whole⟩ := Source.label_extended delayable c
      rw [whole.mpr (once c executes).1,List.map_nil,List.append_nil] at label
      rw [← label]
      obtain ⟨e,flow,source,target,known⟩ := linked
      cases skip : y.2 with
      | false => exact .step ⟨e,flow,source,target⟩ (plain skip)
      | true =>
        obtain ⟨next,follows,reads⟩ := skipped skip e flow (known.mp skip) target (by rw [source]; exact executes)
        exact .step (source ▸ follows) reads
    | true =>
      refine ⟨fun skip => (nomatch skip),fun _ e flow skips target executes => ?_⟩
      obtain rfl : g.target e = c := target
      obtain ⟨single,successors⟩ := (once _ executes).2 e flow rfl skips ⟨_,.step linked rest⟩
      obtain ⟨label,others⟩ := delayable.single skips single
      obtain ⟨again,follows⟩ := others y linked
      rw [label]
      exact ⟨y.1,successors y.1 follows ⟨read,again ▸ rest⟩,plain again⟩

/-! ### The condition is exact -/

theorem Delayable.executes_less (delayable : Delayable code g) {b : Fin n}
    (path : (g.extended code).Reads b read) : ∀ skip, (skip = true → g.isEnd b = false) →
      ∃ executed, (g.hardware code).Reads (b,skip) executed ∧
        executed.length + ((g.extended code).label b).length ≤ read.length + ((g.hardware code).label (b,skip)).length := by
  induction path with
  | exit =>
    intro skip inner
    cases skip with
    | false => exact ⟨[],.exit,by simp [Source.extended,Source.isEnd]⟩
    | true => exact absurd (inner rfl) (by simp [Source.extended,Source.isEnd])
  | @step b c read linked _ ih =>
    intro skip _
    obtain ⟨e,flow,source,target⟩ := linked
    obtain ⟨executed,path,less⟩ := ih (decide (g.Skips code e)) (fun skips => by
      rw [← target]
      exact Source.Skips.inner delayable (of_decide_eq_true skips))
    refine ⟨_,.step ⟨e,flow,source,target,decide_eq_true_iff⟩ path,?_⟩
    obtain ⟨extra,label,-⟩ := Source.label_extended delayable c
    have less' : ((g.hardware code).label (c,decide (g.Skips code e))).length ≤ ((g.extended code).label c).length := by
      rw [label]
      simp only [Source.hardware,List.length_append,List.length_map,List.length_drop,Bool.false_eq_true,if_false]
      omega
    simp only [List.length_append]
    omega

theorem Source.ne_exit (inner : g.isEnd b = false) : b ≠ g.exit := by
  rintro rfl
  simp [Source.isEnd] at inner

theorem Source.head_hardware (inner : g.isEnd b = false)
    (path : (g.hardware code).Reads (b,false) read) : ∃ more, read = .inst (g.first b) :: more := by
  obtain ⟨next,rest,-,-,rfl⟩ := path.of_ne_exit (by simp [Source.hardware,Source.ne_exit inner])
  obtain ⟨others,insts⟩ := Code.insts_head code (g.first b) (g.size b)
  exact ⟨_,by simp [Source.hardware,Source.insts_inner inner,insts]; rfl⟩

theorem Source.head_extended (inner : g.isEnd b = false)
    (path : (g.extended code).Reads b read) : ∃ more, read = .inst (g.first b) :: more := by
  obtain ⟨next,rest,-,-,rfl⟩ := path.of_ne_exit (Source.ne_exit inner)
  obtain ⟨others,insts⟩ := Code.insts_head code (g.first b) (g.extent code b)
  exact ⟨_,by simp [Source.extended,inner,insts]; rfl⟩

theorem Delayable.hardware_exit (delayable : Delayable code g)
    (path : (g.hardware code).Reads (g.exit,false) read) : read = [] :=
  LabelledGraph.Reads.of_exit (g := g.hardware code) (fun _ ⟨e,flow,source,_⟩ => delayable.left e flow source) path

theorem Delayable.extended_exit (delayable : Delayable code g)
    (path : (g.extended code).Reads g.exit read) : read = [] :=
  LabelledGraph.Reads.of_exit (g := g.extended code) (fun _ ⟨e,flow,source,_⟩ => delayable.left e flow source) path

theorem Delayable.determined (delayable : Delayable code g) (disjoint : g.Disjoint code) {c d : Fin n}
    (path : (g.hardware code).Reads (d,false) read) (path' : (g.extended code).Reads c read)
    (entered : d ≠ g.entry) (entered' : c ≠ g.entry) : c = d := by
  have isExit : ∀ b, b ≠ g.entry → g.isEnd b = true → b = g.exit := by
    intro b other isEnd
    simpa [Source.isEnd,other] using isEnd
  cases inner : g.isEnd d with
  | true =>
    obtain rfl := isExit d entered inner
    cases inner' : g.isEnd c with
    | true => exact isExit c entered' inner'
    | false =>
      obtain ⟨more,known⟩ := Source.head_extended inner' path'
      rw [delayable.hardware_exit path] at known
      cases known
  | false =>
    obtain ⟨more,known⟩ := Source.head_hardware inner path
    cases inner' : g.isEnd c with
    | true =>
      obtain rfl := isExit c entered' inner'
      rw [delayable.extended_exit path'] at known
      cases known
    | false =>
      obtain ⟨more',known'⟩ := Source.head_extended inner' path'
      have same := (List.cons.inj (known.symm.trans known')).1
      exact disjoint.first inner' inner (Executed.inst.inj same).symm

/-- What is executed from a block is read from it in the extended blocks. -/
def Source.Reread (code : Code k) (g : Source n m k) (b : Fin n) : Prop :=
  ∀ read, (g.hardware code).Reads (b,false) read → (g.extended code).Reads b read

theorem Delayable.whole_of_reread (delayable : Delayable code g) (reread : g.Reread code b)
    (completes : ∃ read, (g.hardware code).Reads (b,false) read) :
    (g.extended code).label b = (g.hardware code).label (b,false) ∧
      ∀ slot branch, g.slot code b = some slot → g.controlInst code b = some branch →
        code.size branch ≤ code.size slot ∨ Code.nextInst slot = none := by
  have lengths : ∃ length, ∃ read, (g.hardware code).Reads (b,false) read ∧ read.length = length := by
    obtain ⟨read,path⟩ := completes
    exact ⟨_,read,path,rfl⟩
  classical
  obtain ⟨read,path,length⟩ := Nat.find_spec lengths
  obtain ⟨executed,path',less⟩ := delayable.executes_less (reread read path) false (fun skip => nomatch skip)
  have shortest : read.length ≤ executed.length := length ▸ Nat.find_min' lengths ⟨executed,path',rfl⟩
  obtain ⟨extra,label,whole⟩ := Source.label_extended delayable b
  have none : extra = [] := by
    rw [label] at less
    simp only [List.length_append,List.length_map] at less
    exact List.eq_nil_of_length_eq_zero (by omega)
  exact ⟨by simpa [none] using label,whole.mp none⟩

theorem Delayable.reread_next (delayable : Delayable code g) (reread : g.Reread code b) {y : Fin n × Bool}
    (linked : (g.hardware code).link (b,false) y) (path : (g.hardware code).Reads y read) :
    ∃ c, g.Flow b c ∧ (g.extended code).Reads c read := by
  obtain ⟨label,-⟩ := delayable.whole_of_reread reread ⟨_,.step linked path⟩
  have other : b ≠ g.exit := by
    obtain ⟨e,flow,source,-⟩ := linked
    exact (show g.source e = b from source) ▸ delayable.left e flow
  obtain ⟨c,rest,follows,path',same⟩ := (reread _ (.step linked path)).of_ne_exit other
  rw [label,List.append_cancel_left_eq] at same
  exact ⟨c,follows,same ▸ path'⟩

theorem Delayable.flow_ne_entry (delayable : Delayable code g) {c : Fin n} (flow : g.Flow b c) : c ≠ g.entry := by
  obtain ⟨e,flow,-,rfl⟩ := flow
  exact delayable.entered e flow

theorem Delayable.single_of_reread (delayable : Delayable code g) (disjoint : g.Disjoint code) {e : Fin m}
    (reread : g.Reread code (g.source e)) (flow : g.kind e ≠ .call) (skips : g.Skips code e)
    (completes : ∃ read, (g.hardware code).Reads (g.target e,true) read) :
    g.insts code (g.target e) = [g.first (g.target e)] := by
  obtain ⟨read,path⟩ := completes
  have inner := skips.inner delayable
  obtain ⟨c,follows,path'⟩ := delayable.reread_next reread ⟨e,flow,rfl,rfl,by simpa using skips⟩ path
  obtain ⟨others,insts⟩ := Code.insts_head code (g.first (g.target e)) (g.size (g.target e))
  rw [← Source.insts_inner inner] at insts
  obtain ⟨-,rest,-,-,rfl⟩ := path.of_ne_exit (by simp [Source.hardware])
  cases others with
  | nil => exact insts
  | cons i others =>
    -- the second instruction would be the first one of the next block
    have label : (g.hardware code).label (g.target e,true) =
        .inst i :: (others ++ (g.slot code (g.target e)).toList).map .inst := by simp [Source.hardware,insts]
    rw [label] at path'
    have inner' : g.isEnd c = false := by
      cases isEnd : g.isEnd c with
      | false => rfl
      | true =>
        have exit : c = g.exit := by simpa [Source.isEnd,delayable.flow_ne_entry follows] using isEnd
        cases delayable.extended_exit (exit ▸ path')
    obtain ⟨more,known⟩ := Source.head_extended inner' path'
    have first : i = g.first c := Executed.inst.inj (List.cons.inj known).1
    have same := disjoint c (g.target e) i (first ▸ Source.first_mem inner') (by simp [insts])
    have nodup := Code.insts_nodup code (g.first (g.target e)) (g.size (g.target e))
    rw [← Source.insts_inner inner,insts,first,same] at nodup
    simp at nodup

theorem Delayable.reread (delayable : Delayable code g) (disjoint : g.Disjoint code)
    (exact : ∀ read, (g.hardware code).Language read → (g.extended code).Language read) {x : Fin n × Bool}
    (reached : Relation.ReflTransGen (g.hardware code).link (g.entry,false) x) :
    (∃ read, (g.hardware code).Reads x read) → (x.2 = false → g.Reread code x.1) ∧
      (x.2 = true → ∃ e, g.kind e ≠ .call ∧ g.Skips code e ∧ g.target e = x.1 ∧ g.Reread code (g.source e)) := by
  induction reached with
  | refl => exact fun _ => ⟨fun _ => exact,fun skip => nomatch skip⟩
  | @tail x y _ linked ih =>
    rintro ⟨read,path⟩
    obtain ⟨plain,skipped⟩ := ih ⟨_,.step linked path⟩
    obtain ⟨c,skip⟩ := x
    obtain ⟨d,skip'⟩ := y
    obtain ⟨e,flow,source,target,skips⟩ := id linked
    have entered : d ≠ g.entry := (show g.target e = d from target) ▸ delayable.entered e flow
    cases skip with
    | false =>
      refine ⟨fun again read path => ?_,fun again => ⟨e,flow,skips.mp again,target,source ▸ plain rfl⟩⟩
      obtain rfl : skip' = false := again
      obtain ⟨next,follows,path'⟩ := delayable.reread_next (plain rfl) linked path
      exact delayable.determined disjoint path path' entered (delayable.flow_ne_entry follows) ▸ path'
    | true =>
      obtain ⟨e',flow',skips',target',reread⟩ := skipped rfl
      obtain rfl : g.target e' = c := target'
      have single := delayable.single_of_reread disjoint reread flow' skips' ⟨_,.step linked path⟩
      obtain ⟨label,others⟩ := delayable.single skips' single
      obtain ⟨again,-⟩ := others (d,skip') linked
      obtain rfl : skip' = false := again
      refine ⟨fun _ read path => ?_,fun skip => nomatch skip⟩
      obtain ⟨next,follows,path'⟩ := delayable.reread_next reread ⟨e',flow',rfl,rfl,by simpa using skips'⟩
        (.step linked path)
      rw [label,List.nil_append] at path'
      exact delayable.determined disjoint path path' entered (delayable.flow_ne_entry follows) ▸ path'

theorem Delayable.once_of_reads (delayable : Delayable code g) (disjoint : g.Disjoint code)
    (exact : ∀ read, (g.hardware code).Language read → (g.extended code).Language read) : g.ReadsOnce code := by
  rintro b ⟨reached,completes⟩
  have reread : g.Reread code b := (delayable.reread disjoint exact reached completes).1 rfl
  refine ⟨(delayable.whole_of_reread reread completes).2,?_⟩
  rintro e flow rfl skips completes
  have single := delayable.single_of_reread disjoint reread flow skips completes
  refine ⟨single,?_⟩
  rintro next follows ⟨read,path⟩
  obtain ⟨label,others⟩ := delayable.single skips single
  obtain ⟨e',flow',source',target'⟩ := id follows
  have linked : (g.hardware code).link (g.target e,true) (next,false) := by
    refine ⟨e',flow',source',target',?_⟩
    have skips : ¬ g.Skips code e' := fun skips =>
      absurd (others (next,true) ⟨e',flow',source',target',by simpa using skips⟩).1 (by simp)
    simpa using skips
  obtain ⟨c,follows',path'⟩ := delayable.reread_next reread ⟨e,flow,rfl,rfl,by simpa using skips⟩ (.step linked path)
  rw [label,List.nil_append] at path'
  have same := delayable.determined disjoint path path' (delayable.flow_ne_entry follows)
    (delayable.flow_ne_entry follows')
  exact same ▸ follows'

/-- What the hardware executes is read along the paths of the built CFG when the calls of
    other CFGs are delayed and each slot is read once in the extended blocks; and only then,
    when the blocks have no instruction in common. -/
theorem paths_exact_iff (delayable : Delayable code g) :
    (g.CallsDelayed code ∧ g.ReadsOnce code → ∃ s, build code g = some s ∧
      ∀ read, (g.hardware code).Language read → (s.graph code).Language read) ∧
    (g.Disjoint code → (∃ s, build code g = some s ∧
      ∀ read, (g.hardware code).Language read → (s.graph code).Language read) →
        g.CallsDelayed code ∧ g.ReadsOnce code) := by
  constructor
  · rintro ⟨calls,once⟩
    obtain ⟨s,done,copies,linked⟩ := delayable.build calls
    have toBuilt := (delayable.language copies linked).1
    exact ⟨s,done,fun read path => toBuilt read ((delayable.reads_of_once once path .refl).1 rfl)⟩
  · rintro disjoint ⟨s,done,exact⟩
    have calls := delayable.callsDelayed done
    obtain ⟨s',done',copies,linked⟩ := delayable.build calls
    obtain rfl := Option.some.inj (done'.symm.trans done)
    have fromBuilt := (delayable.language copies linked).2 disjoint
    exact ⟨calls,delayable.once_of_reads disjoint fun read path => fromBuilt read (exact read path)⟩

end

def jump : Code 4 where
  address := fun i => 4 * i
  size := fun _ => 4
  isControl := fun i => match i with | 2 => false | _ => true
  type := fun i => match i with | 1 => .always | _ => .none
  count := fun _ => 1

def jumpGraph : Source 6 6 4 where
  entry := 0
  exit := 5
  source := fun e => match e with | 0 => 0 | 1 => 1 | 2 => 1 | 3 => 2 | 4 => 3 | 5 => 4
  target := fun e => match e with | 0 => 1 | 1 => 2 | 2 => 3 | 3 => 4 | 4 => 4 | 5 => 5
  kind := fun e => match e with | 0 => .virtual | 1 => .notTaken | 2 => .taken | 3 => .taken | 4 => .notTaken | 5 => .taken
  recursive := fun _ => false
  first := fun b => match b with | 0 => 0 | 1 => 0 | 2 => 1 | 3 => 2 | 4 => 3 | 5 => 0
  size := fun _ => 4

theorem paths_exact_iff_jump : ∃ s, build jump jumpGraph = some s ∧
    ∀ read, (jumpGraph.hardware jump).Language read → (s.graph jump).Language read := by
  have never : ∀ e, ¬ jumpGraph.Skips jump e := by decide
  refine (paths_exact_iff (show Delayable jump jumpGraph from
    ⟨by decide,by decide,by decide,by decide,by decide,by decide,by decide,by decide,by decide,by decide,by decide⟩)).1
      ⟨by unfold Source.CallsDelayed; decide,fun b _ => ⟨fun _ _ _ _ => .inl (Nat.le_refl 4),?_⟩⟩
  exact fun e _ _ skips => absurd skips (never e)

/-- A delayed branch, its slot, the instruction after it and a return. -/
def conditional : Code 4 where
  address := fun i => 4 * i
  size := fun _ => 4
  isControl := fun i => match i with | 0 | 3 => true | _ => false
  type := fun i => match i with | 0 => .always | _ => .none
  count := fun _ => 1

attribute [local instance] Cfg.neZero_four Cfg.neZero_five

/-- The branch may be taken to the last block. -/
def conditionalGraph : Source 5 5 4 where
  entry := 0
  exit := 4
  source := fun e => match e with | 0 => 0 | 1 => 1 | 2 => 1 | 3 => 2 | 4 => 3
  target := fun e => match e with | 0 => 1 | 1 => 2 | 2 => 3 | 3 => 3 | 4 => 4
  kind := fun e => match e with | 0 => .virtual | 1 => .notTaken | 2 => .taken | 3 => .notTaken | 4 => .taken
  recursive := fun _ => false
  first := fun b => match b with | 0 => 0 | 1 => 0 | 2 => 1 | 3 => 3 | 4 => 0
  size := fun b => match b with | 2 => 8 | _ => 4

/-- Not taken, the branch reads its slot twice. -/
theorem slot_read_twice : ¬ ∀ (n m k : Nat) (code : Code k) (g : Source n m k), Delayable code g →
    ∃ s, build code g = some s ∧ ∀ read, (g.hardware code).Language read → (s.graph code).Language read := by
  intro always
  have delayable : Delayable conditional conditionalGraph :=
    ⟨by decide,by decide,by decide,by decide,by decide,by decide,by decide,by decide,by decide,by decide,by decide⟩
  have disjoint : conditionalGraph.Disjoint conditional := by
    unfold Source.Disjoint
    decide
  obtain ⟨s,done,exact⟩ := always 5 5 4 conditional conditionalGraph delayable
  obtain ⟨s',done',copies,linked⟩ := delayable.build (by unfold Source.CallsDelayed; decide)
  obtain rfl := Option.some.inj (done'.symm.trans done)
  have once := delayable.once_of_reads disjoint fun read path =>
    (delayable.language copies linked).2 disjoint read (exact read path)
  have last : ∃ read, (conditionalGraph.hardware conditional).Reads (3,false) read :=
    ⟨_,.step ⟨4,by decide⟩ .exit⟩
  have after : ∃ read, (conditionalGraph.hardware conditional).Reads (2,true) read :=
    ⟨_,.step ⟨3,by decide⟩ last.choose_spec⟩
  have taken : ∃ read, (conditionalGraph.hardware conditional).Reads (1,false) read :=
    ⟨_,.step ⟨2,by decide⟩ last.choose_spec⟩
  have executes : conditionalGraph.Executes conditional 1 := ⟨.single ⟨0,by decide⟩,taken⟩
  exact absurd ((once 1 executes).2 1 (by decide) rfl (by decide) after).1 (by decide)

end Otawa.Delayed
