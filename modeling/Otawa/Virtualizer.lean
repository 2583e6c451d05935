import Otawa.Cfg
import Otawa.PathReads
import Mathlib.Logic.Relation
import Mathlib.Data.Fintype.Card

/-!
`Virtualizer`: each call is replaced by a copy of the called CFG, whose returns lead to the
block after the call, or to the exit of the caller's own copy when the call is the last
thing done. A copy is known by the sites of the calls that lead to it. The virtual CFG
reads exactly the valid interprocedural paths (`virtualize_language`).
-/
namespace Otawa.Virtualizer
open Otawa.Cfg (EdgeKind)
open Otawa.PathReads (LabelledGraph)
open Relation (ReflTransGen TransGen)

/-! ### The program -/

/-- An edge that leaves a block: a call, or an edge to a block or to the exit (`none`). -/
inductive OutEdge (C B : Type) where
  | call (called : C)
  | flow (kind : EdgeKind) (target : Option B)

/-- A CFG: its blocks without the entry and the exit, and the targets of the entry. -/
structure SourceCFG (C B : Type) where
  blocks : List B
  entries : List B
  outs : B → List (OutEdge C B)

/-- The CFGs of a program; all the calls are resolved and are to be inlined. -/
structure Program (C B : Type) where
  cfg : C → SourceCFG C B
  main : C
  entries_mem : ∀ c, ∀ e ∈ (cfg c).entries, e ∈ (cfg c).blocks
  target_mem : ∀ c, ∀ b ∈ (cfg c).blocks, ∀ kind t, .flow kind (some t) ∈ (cfg c).outs b → t ∈ (cfg c).blocks

/-- The called CFGs of a block, `called_cfgs`. -/
def called {C B : Type} (outs : List (OutEdge C B)) : List C :=
  outs.filterMap fun
    | .call c => some c
    | .flow _ _ => none

/-- A call: the block, and the rank of the called CFG in its `called_cfgs`. -/
abbrev Site (B : Type) := B × Nat

/-- The blocks of the virtual CFG: its ends, and the copies of a block, each for a stack of calls. -/
inductive VirtualBlock (C B : Type) where
  | vcfgEntry
  | vcfgExit
  | block (path : List (Site B)) (c : C) (bb : B)
  deriving DecidableEq

structure VirtualEdge (C B : Type) where
  source : VirtualBlock C B
  target : VirtualBlock C B
  kind : EdgeKind

/-- The blocks and edges of a `VirtualCFG`, in the order in which they are made. -/
structure VirtualCFG (C B : Type) where
  blocks : List (VirtualBlock C B)
  edges : List (VirtualEdge C B)

def VirtualCFG.append {C B : Type} (v w : VirtualCFG C B) : VirtualCFG C B :=
  ⟨v.blocks ++ w.blocks,v.edges ++ w.edges⟩

def VirtualCFG.graph {C B : Type} (v : VirtualCFG C B) : LabelledGraph (VirtualBlock C B) (C × B) where
  entry := .vcfgEntry
  exit := .vcfgExit
  link a b := ∃ kind, ⟨a,b,kind⟩ ∈ v.edges
  label
    | .block _ c bb => [(c,bb)]
    | _ => []

/-- `call_t`. -/
structure Call (C B : Type) where
  cfg : C
  entry : Option (VirtualBlock C B)

section Virtualize
variable {C B : Type} [DecidableEq C]

/-- One edge in "generate the edges": what is known of `called_exit`, and the new edges. -/
def generateEdge (src exit : VirtualBlock C B) (map : B → VirtualBlock C B) (calls : Bool)
    (state : Option (VirtualBlock C B) × List (VirtualEdge C B)) (edge : OutEdge C B) :
    Option (VirtualBlock C B) × List (VirtualEdge C B) :=
  match edge with
  | .call _ => state
  | .flow _ none =>
    if calls then (some exit,state.2) else (some exit,state.2 ++ [⟨src,exit,.virtualReturn⟩])
  | .flow kind (some t) =>
    if kind = .notTaken ∧ calls = true then (some (map t),state.2)
    else (state.1,state.2 ++ [⟨src,map t,kind⟩])

/-- A call of a block: an edge back to the entry of the called CFG if it is being inlined, or
    the called CFG inlined between the block and `called_exit`. -/
def processCall (inline : List (Call C B) → List (Site B) → C → VirtualBlock C B → VirtualBlock C B →
      Option (VirtualCFG C B))
    (stack : List (Call C B)) (path : List (Site B)) (c : C) (bb : B) (calledExit : Option (VirtualBlock C B))
    (site : C × Nat) : Option (VirtualCFG C B) :=
  match stack.find? fun cur => cur.cfg = site.1 with
  | some cur => do
    let entry ← cur.entry
    some ⟨[],[⟨.block path c bb,entry,.virtualCall⟩]⟩
  | none => do
    let exit ← calledExit
    inline stack ((bb,site.2) :: path) site.1 (.block path c bb) exit

def processBlock (inline : List (Call C B) → List (Site B) → C → VirtualBlock C B → VirtualBlock C B →
      Option (VirtualCFG C B))
    (p : Program C B) (stack : List (Call C B)) (path : List (Site B)) (c : C) (exit : VirtualBlock C B) (bb : B) :
    Option (VirtualCFG C B) := do
  let outs := (p.cfg c).outs bb
  let state := outs.foldl (generateEdge (.block path c bb) exit (.block path c) !(called outs).isEmpty) (none,[])
  let calls ← (called outs).zipIdx.mapM (processCall inline stack path c bb state.1)
  some (calls.foldl .append ⟨[],state.2⟩)

/-- `virtualize`, for at most k nested calls. -/
def virtualize (p : Program C B) : Nat → List (Call C B) → List (Site B) → C → VirtualBlock C B →
    VirtualBlock C B → Option (VirtualCFG C B)
  | 0, _, _, _, _, _ => none
  | k + 1, back, path, c, entry, exit => do
    let cfg := p.cfg c
    let call : Call C B := ⟨c,cfg.entries.getLast?.map (.block path c)⟩
    let parts ← cfg.blocks.mapM (processBlock (virtualize p k) p (call :: back) path c exit)
    some (parts.foldl .append
      ⟨cfg.blocks.map (.block path c),cfg.entries.map fun e => ⟨entry,.block path c e,.virtualCall⟩⟩)

/-- `virtualizeCFG` of the entry CFG, in `processWorkSpace`. -/
def processWorkSpace [Fintype C] (p : Program C B) : Option (VirtualCFG C B) := do
  let v ← virtualize p (Fintype.card C) [] [] p.main .vcfgEntry .vcfgExit
  some ⟨[.vcfgEntry] ++ v.blocks ++ [.vcfgExit],v.edges⟩

end Virtualize

namespace Program
variable {C B : Type} (p : Program C B)

def Calls (c d : C) : Prop := ∃ bb ∈ (p.cfg c).blocks, d ∈ called ((p.cfg c).outs bb)

def Flow (c : C) (bb : B) (t : Option B) : Prop := ∃ kind, .flow kind t ∈ (p.cfg c).outs bb

/-- No recursion; a call block always performs a call, then goes to the block after the call,
    by its not-taken edge, or to the exit. -/
structure Inlinable : Prop where
  no_recursion : ∀ c, ¬TransGen p.Calls c c
  sequel : ∀ c, ∀ bb ∈ (p.cfg c).blocks, called ((p.cfg c).outs bb) ≠ [] →
    ∃ after, p.Flow c bb after ∧
      ∀ kind t, .flow kind t ∈ (p.cfg c).outs bb → t = after ∧ (t = none ∨ kind = .notTaken)

/-- The blocks from a block, or from the exit, to the exit of a CFG: a block without call is
    followed by one of its successors, a call block by a path of a called CFG, then by the
    block after the call. -/
inductive Valid : C → Option B → List (C × B) → Prop
  | exit {c : C} : Valid c none []
  | step {c : C} {bb : B} {t : Option B} {path : List (C × B)} : called ((p.cfg c).outs bb) = [] →
      p.Flow c bb t → Valid c t path → Valid c (some bb) ((c,bb) :: path)
  | call {c d : C} {bb e : B} {t : Option B} {inner path : List (C × B)} : d ∈ called ((p.cfg c).outs bb) →
      e ∈ (p.cfg d).entries → Valid d (some e) inner → p.Flow c bb t → Valid c t path →
      Valid c (some bb) ((c,bb) :: (inner ++ path))

def ValidPath (path : List (C × B)) : Prop := ∃ e ∈ (p.cfg p.main).entries, p.Valid p.main (some e) path

end Program

variable {C B : Type}

/-- The copy of a CFG in the virtual CFG, between two blocks of it. -/
structure Frame (C B : Type) where
  path : List (Site B)
  c : C
  entry : VirtualBlock C B
  exit : VirtualBlock C B

namespace Frame
variable (p : Program C B) (f : Frame C B)

/-- The copy of a block, or what stands for the exit. -/
def node : Option B → VirtualBlock C B
  | none => f.exit
  | some bb => .block f.path f.c bb

/-- The copy of a called CFG, which returns to `t`. -/
def inner (bb : B) (i : Nat) (d : C) (t : Option B) : Frame C B :=
  ⟨(bb,i) :: f.path,d,.block f.path f.c bb,f.node t⟩

/-- The second frame is a call of the first one. -/
def Nested (f g : Frame C B) : Prop :=
  ∃ bb i d t, bb ∈ (p.cfg f.c).blocks ∧ (called ((p.cfg f.c).outs bb))[i]? = some d ∧ p.Flow f.c bb t ∧
    g = f.inner bb i d t

/-- The edges made for a frame by itself. -/
inductive Own : VirtualBlock C B → VirtualBlock C B → Prop
  | start {e : B} : e ∈ (p.cfg f.c).entries → Own f.entry (.block f.path f.c e)
  | flow {bb : B} {t : Option B} : bb ∈ (p.cfg f.c).blocks → called ((p.cfg f.c).outs bb) = [] →
      p.Flow f.c bb t → Own (.block f.path f.c bb) (f.node t)

def main : Frame C B := ⟨[],p.main,.vcfgEntry,.vcfgExit⟩

end Frame

/-! ### The edges of the virtual CFG -/

def Linked (edges : List (VirtualEdge C B)) (s t : VirtualBlock C B) : Prop := ∃ kind, ⟨s,t,kind⟩ ∈ edges

private theorem linked_append {first second : List (VirtualEdge C B)} {s t : VirtualBlock C B} :
    Linked (first ++ second) s t ↔ Linked first s t ∨ Linked second s t := by
  simp only [Linked,List.mem_append,exists_or]

private theorem linked_singleton {src target s t : VirtualBlock C B} {kind : EdgeKind} :
    Linked [⟨src,target,kind⟩] s t ↔ s = src ∧ t = target := by
  simp [Linked]

private theorem linked_foldl (parts : List (VirtualCFG C B)) (v : VirtualCFG C B) (s t : VirtualBlock C B) :
    Linked (parts.foldl .append v).edges s t ↔ Linked v.edges s t ∨ ∃ part ∈ parts, Linked part.edges s t := by
  induction parts generalizing v with
  | nil => simp
  | cons part parts ih =>
    rw [List.foldl_cons,ih,VirtualCFG.append,linked_append,or_assoc]
    simp

private theorem mapM_spec {A D : Type} {l : List A} {f : A → Option D} (each : ∀ a ∈ l, ∃ d, f a = some d) :
    ∃ ds, l.mapM f = some ds ∧ ∀ d, d ∈ ds ↔ ∃ a ∈ l, f a = some d := by
  induction l with
  | nil => exact ⟨[],rfl,by simp⟩
  | cons a l ih =>
    obtain ⟨⟨d,first⟩,rest⟩ := List.forall_mem_cons.mp each
    obtain ⟨ds,done,members⟩ := ih rest
    refine ⟨d :: ds,by simp [first,done],fun x => ?_⟩
    rw [List.mem_cons,members,List.exists_mem_cons_iff,first,Option.some.injEq,eq_comm]

section Edges
variable (f : Frame C B) {outs : List (OutEdge C B)} {bb : B}

private theorem generate_flow (outs : List (OutEdge C B)) (src : VirtualBlock C B) (state : Option (VirtualBlock C B) × List (VirtualEdge C B))
    (s t : VirtualBlock C B) :
    Linked (outs.foldl (generateEdge src f.exit (.block f.path f.c) false) state).2 s t ↔
      Linked state.2 s t ∨ ∃ target, (∃ kind, .flow kind target ∈ outs) ∧ s = src ∧ t = f.node target := by
  induction outs generalizing state with
  | nil => simp
  | cons edge outs ih =>
    rw [List.foldl_cons,ih]
    cases edge with
    | call d => simp [generateEdge]
    | flow kind target =>
      have first : Linked (generateEdge src f.exit (.block f.path f.c) false state (.flow kind target)).2 s t ↔
          Linked state.2 s t ∨ s = src ∧ t = f.node target := by
        cases target with
        | none =>
          show Linked (state.2 ++ [_]) s t ↔ _
          rw [linked_append,linked_singleton]
          rfl
        | some b =>
          rw [generateEdge,if_neg (by simp),linked_append,linked_singleton]
          rfl
      rw [first,or_assoc]
      refine or_congr_right ⟨?_,?_⟩
      · rintro (same | ⟨u,⟨k,member⟩,same⟩)
        · exact ⟨target,⟨kind,List.mem_cons_self⟩,same⟩
        · exact ⟨u,⟨k,List.mem_cons_of_mem _ member⟩,same⟩
      · rintro ⟨u,⟨k,member⟩,same⟩
        rcases List.mem_cons.mp member with here | later
        · cases here; exact Or.inl same
        · exact Or.inr ⟨u,⟨k,later⟩,same⟩

private theorem generate_call (src : VirtualBlock C B) {after : Option B}
    (sequel : ∀ kind t, .flow kind t ∈ outs → t = after ∧ (t = none ∨ kind = .notTaken))
    (state : Option (VirtualBlock C B) × List (VirtualEdge C B)) :
    (outs.foldl (generateEdge src f.exit (.block f.path f.c) true) state).2 = state.2 ∧
      ((state.1 = some (f.node after) ∨ ∃ kind, .flow kind after ∈ outs) →
        (outs.foldl (generateEdge src f.exit (.block f.path f.c) true) state).1 = some (f.node after)) := by
  induction outs generalizing state with
  | nil => simp
  | cons edge outs ih =>
    rw [List.foldl_cons]
    have rest := fun kind t (member : OutEdge.flow kind t ∈ outs) => sequel kind t (List.mem_cons_of_mem _ member)
    cases edge with
    | call d =>
      obtain ⟨edges,known⟩ := ih rest state
      refine ⟨edges,fun have_ => known (have_.imp_right ?_)⟩
      rintro ⟨kind,member⟩
      exact ⟨kind,by simpa using member⟩
    | flow kind target =>
      obtain ⟨rfl,exit⟩ := sequel kind target List.mem_cons_self
      have first : generateEdge src f.exit (.block f.path f.c) true state (.flow kind target) =
          (some (f.node target),state.2) := by
        cases target with
        | none => rfl
        | some b =>
          have notTaken : kind = .notTaken := exit.resolve_left (by simp)
          rw [generateEdge,if_pos ⟨notTaken,rfl⟩]
          rfl
      rw [first]
      obtain ⟨edges,known⟩ := ih rest (some (f.node target),state.2)
      exact ⟨edges,fun _ => known (Or.inl rfl)⟩

variable [DecidableEq C] {p : Program C B}

private theorem processCall_inline
    {inline : List (Call C B) → List (Site B) → C → VirtualBlock C B → VirtualBlock C B → Option (VirtualCFG C B)}
    {stack : List (Call C B)} {d : C} (new : ∀ cur ∈ stack, cur.cfg ≠ d) (i : Nat) (target : Option B) :
    processCall inline stack f.path f.c bb (some (f.node target)) (d,i) =
      inline stack (f.inner bb i d target).path (f.inner bb i d target).c (f.inner bb i d target).entry
        (f.inner bb i d target).exit := by
  have fresh : stack.find? (fun cur => cur.cfg = d) = none := by simpa using new
  rw [processCall]
  dsimp only
  rw [fresh]
  rfl

private theorem processBlock_spec (inlinable : p.Inlinable)
    {inline : List (Call C B) → List (Site B) → C → VirtualBlock C B → VirtualBlock C B → Option (VirtualCFG C B)}
    {stack : List (Call C B)} (member : bb ∈ (p.cfg f.c).blocks)
    (new : ∀ d ∈ called ((p.cfg f.c).outs bb), ∀ cur ∈ stack, cur.cfg ≠ d)
    (inner : ∀ g, Frame.Nested p f g → ∃ v, inline stack g.path g.c g.entry g.exit = some v ∧
      ∀ s t, Linked v.edges s t ↔ ∃ h, ReflTransGen (Frame.Nested p) g h ∧ h.Own p s t) :
    ∃ v, processBlock inline p stack f.path f.c f.exit bb = some v ∧ ∀ s t, Linked v.edges s t ↔
      (called ((p.cfg f.c).outs bb) = [] ∧ ∃ target, p.Flow f.c bb target ∧
        s = .block f.path f.c bb ∧ t = f.node target) ∨
      ∃ i d target, (called ((p.cfg f.c).outs bb))[i]? = some d ∧ p.Flow f.c bb target ∧
        ∃ h, ReflTransGen (Frame.Nested p) (f.inner bb i d target) h ∧ h.Own p s t := by
  by_cases none : called ((p.cfg f.c).outs bb) = []
  · have edges := generate_flow f ((p.cfg f.c).outs bb) (.block f.path f.c bb) (Option.none,[])
    refine ⟨⟨[],_⟩,by rw [processBlock,none]; rfl,fun s t => ?_⟩
    refine (edges s t).trans ⟨?_,?_⟩
    · rintro (⟨_,empty⟩ | ⟨target,flow,same⟩)
      · cases empty
      · exact Or.inl ⟨none,target,flow,same⟩
    · rintro (⟨-,target,flow,same⟩ | ⟨i,d,-,call,-⟩)
      · exact Or.inr ⟨target,flow,same⟩
      · rw [none] at call
        cases call
  · obtain ⟨after,flow,sequel⟩ := inlinable.sequel f.c bb member none
    have unique : ∀ target, p.Flow f.c bb target → target = after := fun target ⟨kind,edge⟩ => (sequel kind target edge).1
    obtain ⟨noEdge,known⟩ := generate_call f (.block f.path f.c bb) sequel (Option.none,[])
    have some_ : (!(called ((p.cfg f.c).outs bb)).isEmpty) = true := by simpa using none
    have one : ∀ i d, (called ((p.cfg f.c).outs bb))[i]? = some d → ∃ v,
        processCall inline stack f.path f.c bb (some (f.node after)) (d,i) = some v ∧ ∀ s t, Linked v.edges s t ↔
          ∃ h, ReflTransGen (Frame.Nested p) (f.inner bb i d after) h ∧ h.Own p s t := by
      intro i d call
      rw [processCall_inline f (new d (List.mem_of_getElem? call))]
      exact inner _ ⟨bb,i,d,after,member,call,flow,rfl⟩
    have each : ∀ site ∈ (called ((p.cfg f.c).outs bb)).zipIdx, ∃ v,
        processCall inline stack f.path f.c bb (some (f.node after)) site = some v := by
      rintro ⟨d,i⟩ here
      obtain ⟨v,done,-⟩ := one i d (List.mem_zipIdx_iff_getElem?.mp here)
      exact ⟨v,done⟩
    obtain ⟨calls,done,members⟩ := mapM_spec each
    refine ⟨calls.foldl .append ⟨[],[]⟩,?_,fun s t => ?_⟩
    · rw [processBlock,some_,noEdge,known (Or.inr flow),done]
      rfl
    · rw [linked_foldl]
      constructor
      · rintro (⟨_,empty⟩ | ⟨v,made,link⟩)
        · cases empty
        · obtain ⟨⟨d,i⟩,here,run⟩ := (members v).mp made
          have call := List.mem_zipIdx_iff_getElem?.mp here
          obtain ⟨w,done,links⟩ := one i d call
          rw [run] at done
          cases done
          exact Or.inr ⟨i,d,after,call,flow,(links s t).mp link⟩
      · rintro (⟨empty,-⟩ | ⟨i,d,target,call,next,below⟩)
        · exact absurd empty none
        · rw [unique target next] at below
          obtain ⟨w,done,links⟩ := one i d call
          exact Or.inr ⟨w,(members w).mpr ⟨(d,i),List.mem_zipIdx_iff_getElem?.mpr call,done⟩,(links s t).mpr below⟩

omit [DecidableEq C] in
private theorem own_nested {s t : VirtualBlock C B} :
    (∃ h, ReflTransGen (Frame.Nested p) f h ∧ h.Own p s t) ↔
      f.Own p s t ∨ ∃ g, Frame.Nested p f g ∧ ∃ h, ReflTransGen (Frame.Nested p) g h ∧ h.Own p s t := by
  constructor
  · rintro ⟨h,below,own⟩
    rcases ReflTransGen.cases_head below with same | ⟨g,first,rest⟩
    · exact Or.inl (same ▸ own)
    · exact Or.inr ⟨g,first,h,rest,own⟩
  · rintro (own | ⟨g,first,h,rest,own⟩)
    · exact ⟨f,.refl,own⟩
    · exact ⟨h,.head first rest,own⟩

theorem virtualize_spec [Fintype C] (inlinable : p.Inlinable) (k : Nat) (back : List (Call C B)) (f : Frame C B)
    (callers : ∀ cur ∈ back, TransGen p.Calls cur.cfg f.c) (distinct : (f.c :: back.map (·.cfg)).Nodup)
    (enough : Fintype.card C ≤ k + back.length) :
    ∃ v, virtualize p k back f.path f.c f.entry f.exit = some v ∧
      ∀ s t, Linked v.edges s t ↔ ∃ h, ReflTransGen (Frame.Nested p) f h ∧ h.Own p s t := by
  induction k generalizing back f with
  | zero =>
    have short := distinct.length_le_card
    rw [List.length_cons,List.length_map] at short
    omega
  | succ k ih =>
    let call : Call C B := ⟨f.c,(p.cfg f.c).entries.getLast?.map (.block f.path f.c)⟩
    have new : ∀ bb ∈ (p.cfg f.c).blocks, ∀ d ∈ called ((p.cfg f.c).outs bb), ∀ cur ∈ call :: back, cur.cfg ≠ d := by
      rintro bb member d calls cur on rfl
      have last : p.Calls f.c cur.cfg := ⟨bb,member,calls⟩
      rcases List.mem_cons.mp on with rfl | before
      · exact inlinable.no_recursion _ (.single last)
      · exact inlinable.no_recursion _ ((callers cur before).tail last)
    have inner : ∀ g, Frame.Nested p f g → ∃ v, virtualize p k (call :: back) g.path g.c g.entry g.exit = some v ∧
        ∀ s t, Linked v.edges s t ↔ ∃ h, ReflTransGen (Frame.Nested p) g h ∧ h.Own p s t := by
      rintro g ⟨bb,i,d,target,member,calls,-,rfl⟩
      have calledBy : d ∈ called ((p.cfg f.c).outs bb) := List.mem_of_getElem? calls
      have edge : p.Calls f.c d := ⟨bb,member,calledBy⟩
      refine ih (call :: back) (f.inner bb i d target) (fun cur on => ?_) (List.nodup_cons.mpr ⟨?_,distinct⟩) ?_
      · rcases List.mem_cons.mp on with rfl | before
        · exact .single edge
        · exact (callers cur before).tail edge
      · intro again
        obtain ⟨cur,on,same⟩ := List.mem_map.mp (show d ∈ (call :: back).map (·.cfg) from again)
        exact new bb member d calledBy cur on same
      · rw [List.length_cons]
        omega
    have each := fun bb member => processBlock_spec f inlinable member (new bb member) inner
    obtain ⟨parts,done,members⟩ := mapM_spec fun bb member =>
      let ⟨v,made,_⟩ := each bb member
      ⟨v,made⟩
    refine ⟨_,by rw [virtualize,done]; rfl,fun s t => ?_⟩
    rw [linked_foldl,own_nested]
    have starts : Linked ((p.cfg f.c).entries.map fun e => ⟨f.entry,.block f.path f.c e,.virtualCall⟩) s t ↔
        ∃ e ∈ (p.cfg f.c).entries, s = f.entry ∧ t = .block f.path f.c e := by
      simp only [Linked,List.mem_map,VirtualEdge.mk.injEq]
      constructor
      · rintro ⟨_,e,member,rfl,rfl,-⟩; exact ⟨e,member,rfl,rfl⟩
      · rintro ⟨e,member,rfl,rfl⟩; exact ⟨_,e,member,rfl,rfl,rfl⟩
    rw [starts]
    constructor
    · rintro (⟨e,member,rfl,rfl⟩ | ⟨v,made,link⟩)
      · exact Or.inl (.start member)
      · obtain ⟨bb,member,run⟩ := (members v).mp made
        obtain ⟨w,done,links⟩ := each bb member
        rw [run] at done
        cases done
        rcases (links s t).mp link with ⟨none,target,flow,rfl,rfl⟩ | ⟨i,d,target,calls,flow,below⟩
        · exact Or.inl (.flow member none flow)
        · exact Or.inr ⟨_,⟨bb,i,d,target,member,calls,flow,rfl⟩,below⟩
    · rintro (own | ⟨g,⟨bb,i,d,target,member,calls,flow,rfl⟩,below⟩)
      · cases own with
        | start member => exact Or.inl ⟨_,member,rfl,rfl⟩
        | flow member none flow =>
          obtain ⟨w,done,links⟩ := each _ member
          exact Or.inr ⟨w,(members w).mpr ⟨_,member,done⟩,(links _ _).mpr (Or.inl ⟨none,_,flow,rfl,rfl⟩)⟩
      · obtain ⟨w,done,links⟩ := each bb member
        exact Or.inr ⟨w,(members w).mpr ⟨bb,member,done⟩,
          (links s t).mpr (Or.inr ⟨i,d,target,calls,flow,below⟩)⟩

end Edges

section Paths
variable {p : Program C B}

private theorem Program.Inlinable.flow_unique (inlinable : p.Inlinable) {c : C} {bb : B} {t u : Option B}
    (member : bb ∈ (p.cfg c).blocks) (calls : called ((p.cfg c).outs bb) ≠ []) (first : p.Flow c bb t)
    (second : p.Flow c bb u) : t = u := by
  obtain ⟨after,-,sequel⟩ := inlinable.sequel c bb member calls
  obtain ⟨kind,edge⟩ := first
  obtain ⟨kind',edge'⟩ := second
  rw [(sequel kind t edge).1,(sequel kind' u edge').1]

/-- A copy of a CFG in the virtual CFG of the program. -/
def Instance (p : Program C B) (f : Frame C B) : Prop := ReflTransGen (Frame.Nested p) (Frame.main p) f

theorem Instance.unique (inlinable : p.Inlinable) {f g : Frame C B} (left : Instance p f) (right : Instance p g)
    (same : f.path = g.path) : f = g := by
  induction left generalizing g with
  | refl =>
    rcases ReflTransGen.cases_tail right with rfl | ⟨h,-,bb,i,d,t,-,-,-,rfl⟩
    · rfl
    · cases same
  | tail before last ih =>
    obtain ⟨bb,i,d,t,member,call,flow,rfl⟩ := last
    rcases ReflTransGen.cases_tail right with rfl | ⟨h,outer,bb',i',d',t',member',call',flow',rfl⟩
    · cases same
    · obtain ⟨site,path⟩ := List.cons.inj same
      obtain ⟨rfl,rfl⟩ := Prod.mk.inj site
      obtain rfl := ih outer path
      rw [call] at call'
      cases call'
      have some_ : called ((p.cfg _).outs bb) ≠ [] := List.ne_nil_of_mem (List.mem_of_getElem? call)
      rw [inlinable.flow_unique member some_ flow flow']

variable {v : VirtualCFG C B}
  (links : ∀ s t, v.graph.link s t ↔ ∃ f, Instance p f ∧ f.Own p s t)
include links

variable {x : VirtualBlock C B}

private theorem link_block (inlinable : p.Inlinable) {f : Frame C B} (here : Instance p f) {bb : B}
    :
    v.graph.link (.block f.path f.c bb) x ↔ bb ∈ (p.cfg f.c).blocks ∧
      ((called ((p.cfg f.c).outs bb) = [] ∧ ∃ t, p.Flow f.c bb t ∧ x = f.node t) ∨
      ∃ i d t e, (called ((p.cfg f.c).outs bb))[i]? = some d ∧ p.Flow f.c bb t ∧
        e ∈ (p.cfg d).entries ∧ x = (f.inner bb i d t).node (some e)) := by
  rw [links]
  constructor
  · rintro ⟨g,there,own⟩
    generalize source : VirtualBlock.block f.path f.c bb = s at own
    cases own with
    | @start e entry =>
      rcases ReflTransGen.cases_tail there with main | ⟨h,outer,bb',i,d,t,member,call,flow,rfl⟩
      · subst main
        cases source
      · injection source with path c block
        have same := Instance.unique inlinable here outer path
        subst same block
        exact ⟨member,Or.inr ⟨i,d,t,e,call,flow,entry,rfl⟩⟩
    | @flow bb' t member none flow =>
      injection source with path c block
      have same := Instance.unique inlinable here there path
      subst same block
      exact ⟨member,Or.inl ⟨none,t,flow,rfl⟩⟩
  · rintro ⟨member,⟨none,t,flow,rfl⟩ | ⟨i,d,t,e,call,flow,entry,rfl⟩⟩
    · exact ⟨f,here,.flow member none flow⟩
    · exact ⟨f.inner bb i d t,here.tail ⟨bb,i,d,t,member,call,flow,rfl⟩,.start entry⟩

private theorem link_entry :
    v.graph.link .vcfgEntry x ↔ ∃ e ∈ (p.cfg p.main).entries, x = (Frame.main p).node (some e) := by
  rw [links]
  constructor
  · rintro ⟨g,there,own⟩
    generalize source : VirtualBlock.vcfgEntry = s at own
    cases own with
    | @start e entry =>
      rcases ReflTransGen.cases_tail there with main | ⟨h,outer,bb',i,d,t,member,call,flow,rfl⟩
      · subst main
        exact ⟨e,entry,rfl⟩
      · cases source
    | flow => cases source
  · rintro ⟨e,entry,rfl⟩
    exact ⟨Frame.main p,.refl,.start entry⟩

private theorem link_exit : ¬v.graph.link .vcfgExit x := by
  rw [links]
  rintro ⟨g,there,own⟩
  generalize source : VirtualBlock.vcfgExit = s at own
  cases own with
  | @start e entry =>
    rcases ReflTransGen.cases_tail there with main | ⟨h,outer,bb',i,d,t,member,call,flow,rfl⟩
    · subst main
      cases source
    · cases source
  | flow => cases source

omit links

/-- What may be read once a frame has been left: the end of each frame that called it. -/
inductive Rest (p : Program C B) : Frame C B → List (C × B) → Prop
  | main : Rest p (Frame.main p) []
  | inner {f : Frame C B} {bb : B} {i : Nat} {d : C} {t : Option B} {path rest : List (C × B)} :
      Instance p f → p.Flow f.c bb t → p.Valid f.c t path → Rest p f rest →
      Rest p (f.inner bb i d t) (path ++ rest)

/-- The end of the frame, then what is left. -/
def Ends (p : Program C B) (f : Frame C B) (t : Option B) (read : List (C × B)) : Prop :=
  ∃ path rest, read = path ++ rest ∧ p.Valid f.c t path ∧ Rest p f rest

private theorem rest_of_exit {read : List (C × B)}
    (block : ∀ f bb, Instance p f → x = f.node (some bb) → Ends p f (some bb) read)
    (done : x = .vcfgExit → read = []) {f : Frame C B} (here : Instance p f) (atExit : x = f.exit) :
    Rest p f read := by
  induction here with
  | refl =>
    rw [done atExit]
    exact .main
  | tail before last ih =>
    obtain ⟨bb,i,d,t,-,-,flow,rfl⟩ := last
    cases t with
    | none => exact .inner before flow .exit (ih atExit)
    | some after =>
      obtain ⟨path,rest,rfl,valid,left⟩ := block _ after before atExit
      exact .inner before flow valid left

include links

theorem reads_valid (inlinable : p.Inlinable) {read : List (C × B)} (reads : v.graph.Reads x read)
    {f : Frame C B} (here : Instance p f) {bb : B} (source : x = f.node (some bb)) : Ends p f (some bb) read := by
  induction reads generalizing f bb with
  | exit => cases source
  | @step a b read link tail ih =>
    subst source
    have next := (link_block links inlinable here).mp link
    -- what the successor reads, should it be the exit of a frame
    have atExit : ∀ {g}, Instance p g → b = g.exit → Rest p g read := by
      intro g there target
      refine rest_of_exit (fun f bb here source => ih here source) (fun exit => ?_) there target
      subst exit
      cases tail with
      | exit => rfl
      | step link _ => exact absurd link (link_exit links)
    have continues : ∀ {t}, b = f.node t → Ends p f t read := by
      intro t target
      cases t with
      | none => exact ⟨[],read,rfl,.exit,atExit here target⟩
      | some c => exact ih here target
    obtain ⟨member,⟨none,t,flow,target⟩ | ⟨i,d,t,e,call,flow,entry,target⟩⟩ := next
    · obtain ⟨path,rest,rfl,valid,left⟩ := continues target
      exact ⟨_,rest,rfl,.step none flow valid,left⟩
    · have inner : Instance p (f.inner bb i d t) := here.tail ⟨bb,i,d,t,member,call,flow,rfl⟩
      obtain ⟨path,rest,rfl,valid,left⟩ := ih inner target
      generalize frame : f.inner bb i d t = g at left
      cases left with
      | main => cases frame
      | @inner f' bb' i' d' t' after rest there flow' valid' left =>
        obtain ⟨site,_,source⟩ : (bb,i) :: f.path = (bb',i') :: f'.path ∧ d = d' ∧
            VirtualBlock.block f.path f.c bb = .block f'.path f'.c bb' := by
          injection frame with path c source _
          exact ⟨path,c,source⟩
        injection source with outer _ block
        obtain rfl := Instance.unique inlinable here there outer
        subst block
        obtain rfl := inlinable.flow_unique member (List.ne_nil_of_mem (List.mem_of_getElem? call)) flow flow'
        refine ⟨(f.c,bb) :: (path ++ after),rest,?_,.call (List.mem_of_getElem? call) entry valid flow valid',left⟩
        simp [VirtualCFG.graph,Frame.node]

theorem valid_reads (inlinable : p.Inlinable) {c : C} {t : Option B} {path : List (C × B)} (valid : p.Valid c t path)
    {f : Frame C B} (here : Instance p f) (same : f.c = c) (inside : ∀ bb, t = some bb → bb ∈ (p.cfg c).blocks)
    {rest : List (C × B)} (after : v.graph.Reads f.exit rest) : v.graph.Reads (f.node t) (path ++ rest) := by
  induction valid generalizing f rest with
  | exit => exact after
  | @step c bb t path none flow _ ih =>
    subst same
    have member := inside bb rfl
    refine .step ((link_block links inlinable here).mpr ⟨member,Or.inl ⟨none,t,flow,rfl⟩⟩)
      (ih here rfl (fun b target => ?_) after)
    subst target
    obtain ⟨kind,edge⟩ := flow
    exact p.target_mem _ bb member kind b edge
  | @call c d bb e t inner path call entry _ flow _ ihInner ihPath =>
    subst same
    have member := inside bb rfl
    obtain ⟨i,here_⟩ := List.getElem?_of_mem call
    have frame : Instance p (f.inner bb i d t) := here.tail ⟨bb,i,d,t,member,here_,flow,rfl⟩
    have back : v.graph.Reads (f.node t) (path ++ rest) := by
      refine ihPath here rfl (fun b target => ?_) after
      subst target
      obtain ⟨kind,edge⟩ := flow
      exact p.target_mem _ bb member kind b edge
    have into : v.graph.Reads ((f.inner bb i d t).node (some e)) (inner ++ (path ++ rest)) := by
      refine ihInner frame rfl (fun b target => ?_) back
      cases target
      exact p.entries_mem d e entry
    have whole := LabelledGraph.Reads.step
      ((link_block links inlinable here).mpr ⟨member,Or.inr ⟨i,d,t,e,here_,flow,entry,rfl⟩⟩) into
    simpa [VirtualCFG.graph,Frame.node] using whole

end Paths

/-- The entry CFG (`false`) calls the other one in block 0, then goes to block 1. -/
def oneCall : Program Bool Nat where
  main := false
  cfg
    | false => ⟨[0,1],[0],fun bb => if bb = 0 then [.flow .notTaken (some 1),.call true] else [.flow .virtual none]⟩
    | true => ⟨[2],[2],fun _ => [.flow .virtual none]⟩
  entries_mem c := by cases c <;> simp
  target_mem c := by cases c <;> simp

private theorem oneCall_calls {c d : Bool} (calls : oneCall.Calls c d) : c = false ∧ d = true := by
  obtain ⟨bb,member,call⟩ := calls
  cases c with
  | false =>
    by_cases first : bb = 0
    · simp [oneCall,called,first] at call
      exact ⟨rfl,call⟩
    · simp [oneCall,called,first] at call
  | true => simp [oneCall,called] at call

theorem oneCall_inlinable : oneCall.Inlinable where
  no_recursion c loop := by
    obtain ⟨d,first,last⟩ := TransGen.head'_iff.mp loop
    have forward := (oneCall_calls first).1
    rcases ReflTransGen.cases_tail last with same | ⟨e,-,back⟩
    · subst same
      exact absurd (forward.symm.trans (oneCall_calls first).2) (by decide)
    · exact absurd (forward.symm.trans (oneCall_calls back).2) (by decide)
  sequel c bb member calls := by
    cases c with
    | false =>
      by_cases first : bb = 0
      · refine ⟨some 1,⟨.notTaken,by simp [oneCall,first]⟩,?_⟩
        simp [oneCall,first]
      · simp [oneCall,called,first] at calls
    | true => simp [oneCall,called] at calls

end Otawa.Virtualizer
