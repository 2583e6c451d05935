import Otawa.ParExeGraph
import Mathlib.Algebra.BigOperators.Group.List.Basic

/-!
The changes that `EdgeTimeBuilder` makes to an execution graph for the events of an edge: `apply` adds
their costs, `rollback` takes them back, and the loop on the masks does both for the events that
differ from one mask to the next. Only the last edge of a branch event is remembered, so the loop is
right when at most one branch event is ever rolled back (`turns_iff`).
-/
namespace Otawa.EventGraph
open Otawa.ParExe (ParExeEdge EdgeType)

variable {count : Nat}

/-! ### Events and their instructions -/

inductive Kind
  | none | fetch | mem | branch | stage | fu
  deriving DecidableEq

inductive Occurrence
  | never | sometimes | always
  deriving DecidableEq

structure SeqInst (count : Nat) where
  inst : Nat
  fetchNode : Fin count
  nodes : List (Fin count)

structure Located (count : Nat) where
  kind : Kind
  occurrence : Occurrence
  cost : Int
  inst : SeqInst count

/-- The sequence of an edge: its source, with its control instruction, and the units of the nodes. -/
structure Sequence (count : Nat) where
  source : Option (Option Nat)
  insts : List (SeqInst count)
  isMem : Fin count → Bool
  isBranch : Fin count → Bool

/-- The graph, with its edges numbered as they are allocated, and the fields `bnode` and `bedge`. -/
structure State (count : Nat) where
  latency : Fin count → Int
  edges : List (Nat × ParExeEdge count)
  made : Nat
  bnode : Option (Fin count)
  bedge : Option Nat

section
variable (q : Sequence count)

/-- The node that `getBranchNode` looks for in the sequence; none for a null pointer. -/
def Sequence.branchNode : Option (Fin count) := do
  let control ← q.source
  let binst ← control
  let pinst ← q.insts.find? fun pinst => pinst.inst = binst
  return (pinst.nodes.find? q.isBranch).getD pinst.fetchNode

/-- `getBranchNode`, where the null pointer cannot be used either. -/
def getBranchNode (s : State count) : Option (Fin count × State count) :=
  match q.source with
  | none => none
  | some _ =>
    match s.bnode with
    | some node => some (node,s)
    | none => q.branchNode.map fun node => (node,{ s with bnode := some node })

def State.setLatency (s : State count) (node : Fin count) (latency : Int) : State count :=
  { s with latency := Function.update s.latency node latency }

/-- `new ParExeEdge`, with the assertion of its constructor. -/
def State.newEdge (s : State count) (source target : Fin count) (latency : Int) : Option (State count) :=
  if distinct : source ≠ target then
    some { s with edges := s.edges ++ [(s.made,⟨source,target,.solid,latency,distinct⟩)], made := s.made + 1, bedge := some s.made }
  else none

/-- `Graph::remove` of an edge, which has to be in the graph. -/
def State.remove (s : State count) (edge : Nat) : Option (State count) :=
  if (s.edges.map Prod.fst).contains edge then some { s with edges := s.edges.filter fun e => e.1 ≠ edge } else none

def apply (s : State count) (e : Located count) : Option (State count) :=
  match e.kind with
  | .fetch => some (s.setLatency e.inst.fetchNode (s.latency e.inst.fetchNode + e.cost))
  | .mem =>
    match e.inst.nodes.find? q.isMem with
    | some node => some (s.setLatency node (s.latency node + e.cost - 1))
    | none => some s
  | .branch => do
    let (node,s) ← getBranchNode q s
    s.newEdge node e.inst.fetchNode e.cost
  | .none | .stage | .fu => none

def rollback (s : State count) (e : Located count) : Option (State count) :=
  match e.kind with
  | .fetch => some (s.setLatency e.inst.fetchNode (s.latency e.inst.fetchNode - e.cost))
  | .mem =>
    match e.inst.nodes.find? q.isMem with
    | some node => some (s.setLatency node (s.latency node - e.cost + 1))
    | none => some s
  | .branch => do
    let bedge ← s.bedge
    let s ← s.remove bedge
    return { s with bedge := none }
  | .none | .stage | .fu => none

def staticEvent : State count × List (Located count) → Located count → Option (State count × List (Located count))
  | (s,events), e =>
    match e.occurrence with
    | .never => some (s,events)
    | .sometimes => some (s,events ++ [e])
    | .always => (apply q s e).map fun s => (s,events)

/-- The loop on all the events: the dynamic ones are kept, the permanent ones are applied. -/
def staticEvents (s : State count) (all : List (Located count)) : Option (State count × List (Located count)) :=
  all.foldlM (staticEvent q) (s,[])

/-- The part of a turn for an event: it is applied or rolled back when it differs in the masks. -/
def toggle (events : List (Located count)) (prev mask : Nat) (s : State count) (i : Nat) : Option (State count) :=
  if prev.testBit i = mask.testBit i then some s
  else do
    let e ← events[i]?
    if mask.testBit i then apply q s e else rollback q s e

def turn (events : List (Located count)) (prev mask : Nat) (s : State count) : Option (State count) :=
  (List.range events.length).foldlM (toggle q events prev mask) s

/-- The graph that is analyzed for a mask, after the turns of the masks before it. -/
def turns (events : List (Located count)) (start : State count) : Nat → Option (State count)
  | 0 => turn q events 0 0 start
  | mask + 1 => (turns events start mask).bind (turn q events mask (mask + 1))

end

def chosen (events : List (Located count)) (on : Nat → Bool) : List (Located count) :=
  ((List.range events.length).filter on).filterMap (events[·]?)

/-! ### What an event changes -/

section
variable (q : Sequence count)

/-- What an event adds to the latency of a node. -/
def Sequence.shift (e : Located count) (n : Fin count) : Int :=
  match e.kind with
  | .fetch => if n = e.inst.fetchNode then e.cost else 0
  | .mem => if e.inst.nodes.find? q.isMem = some n then e.cost - 1 else 0
  | _ => 0

def Sequence.edgeOf (e : Located count) : Option (ParExeEdge count) :=
  if e.kind = .branch then
    q.branchNode.bind fun node =>
      if distinct : node ≠ e.inst.fetchNode then some ⟨node,e.inst.fetchNode,.solid,e.cost,distinct⟩ else none
  else none

/-- An event that the builder can apply: a branch event needs a node of resolution, apart from the one
    where the instruction is fetched. -/
def Sequence.applicable (e : Located count) : Bool :=
  match e.kind with
  | .fetch | .mem => true
  | .branch => (q.edgeOf e).isSome
  | _ => false

structure Holds (base s : State count) (active : List (Located count)) : Prop where
  latency : ∀ n, s.latency n = base.latency n + (active.map (q.shift · n)).sum
  edges : (s.edges.map Prod.snd).Perm (base.edges.map Prod.snd ++ active.filterMap q.edgeOf)
  nodup : (s.edges.map Prod.fst).Nodup
  fresh : ∀ e ∈ s.edges, e.1 < s.made
  bnode : ∀ n, s.bnode = some n → q.branchNode = some n

def Remembered (s : State count) (e : Located count) : Prop :=
  ∃ id edge, s.bedge = some id ∧ (id,edge) ∈ s.edges ∧ q.edgeOf e = some edge

variable {q} {base s s' : State count} {e : Located count} {active rest : List (Located count)}

theorem Holds.perm (holds : Holds q base s active) (perm : active.Perm rest) : Holds q base s rest :=
  ⟨fun n => by rw [holds.latency,(perm.map _).sum_eq],holds.edges.trans (.append_left _ (perm.filterMap _)),
    holds.nodup,holds.fresh,holds.bnode⟩

private theorem perm_filter_key {edges : List (Nat × ParExeEdge count)} {id : Nat} {edge : ParExeEdge count}
    (nodup : (edges.map Prod.fst).Nodup) (inside : (id,edge) ∈ edges) :
    edges.Perm ((id,edge) :: edges.filter fun e => e.1 ≠ id) := by
  induction edges with
  | nil => cases inside
  | cons head tail ih =>
    rw [List.map_cons,List.nodup_cons] at nodup
    rcases List.mem_cons.1 inside with rfl | inside
    · have others : tail.filter (fun e => decide (e.1 ≠ id)) = tail :=
        List.filter_eq_self.2 fun other mem => by
          have := List.mem_map_of_mem (f := Prod.fst) mem
          simp only [decide_eq_true_eq]
          exact fun same => nodup.1 (same ▸ this)
      rw [List.filter_cons_of_neg (by simp),others]
    · have away : head.1 ≠ id := fun same => nodup.1 (same ▸ List.mem_map_of_mem (f := Prod.fst) inside)
      rw [List.filter_cons_of_pos (by simpa using away)]
      exact ((ih nodup.2 inside).cons head).trans (.swap ..)

private theorem Holds.setLatency (holds : Holds q base s active) {node : Fin count} {latency : Int}
    (sums : ∀ n, Function.update s.latency node latency n = base.latency n + (rest.map (q.shift · n)).sum)
    (edges : rest.filterMap q.edgeOf = active.filterMap q.edgeOf) : Holds q base (s.setLatency node latency) rest :=
  ⟨sums,by rw [edges]; exact holds.edges,holds.nodup,holds.fresh,holds.bnode⟩

theorem getBranchNode_eq (holds : Holds q base s active) :
    ∃ s', (∀ n, s'.bnode = some n → q.branchNode = some n) ∧ s'.latency = s.latency ∧ s'.edges = s.edges ∧ s'.made = s.made ∧
      getBranchNode q s = q.branchNode.map fun node => (node,s') := by
  rw [getBranchNode]
  cases source : q.source with
  | none =>
    have missing : q.branchNode = none := by simp [Sequence.branchNode,source]
    exact ⟨s,holds.bnode,rfl,rfl,rfl,by rw [missing]; rfl⟩
  | some control =>
    cases known : s.bnode with
    | some node => exact ⟨s,holds.bnode,rfl,rfl,rfl,by rw [holds.bnode node known]; rfl⟩
    | none =>
      refine ⟨{ s with bnode := q.branchNode },fun n => id,rfl,rfl,rfl,?_⟩
      cases q.branchNode <;> rfl

theorem apply_none (holds : Holds q base s active) (impossible : q.applicable e = false) : apply q s e = none := by
  rw [Sequence.applicable] at impossible
  rw [apply]
  cases kind : e.kind with
  | fetch | mem => simp [kind] at impossible
  | none | stage | fu => rfl
  | branch =>
    rw [kind] at impossible
    obtain ⟨s',-,-,-,-,got⟩ := getBranchNode_eq holds
    simp only [got,Option.bind_eq_bind]
    cases node : q.branchNode with
    | none => rfl
    | some n =>
      rw [Option.map_some,Option.bind_some]
      by_cases distinct : n ≠ e.inst.fetchNode
      · simp [Sequence.edgeOf,kind,node,distinct] at impossible
      · rw [State.newEdge,dif_neg distinct]

private theorem Holds.newEdge (holds : Holds q base s active) {edge : ParExeEdge count} (made : q.edgeOf e = some edge)
    (still : ∀ n, q.shift e n = 0) (bnode : Option (Fin count)) (known : ∀ n, bnode = some n → q.branchNode = some n) :
    Holds q base ⟨s.latency,s.edges ++ [(s.made,edge)],s.made + 1,bnode,some s.made⟩ (e :: active) := by
  refine ⟨fun n => ?_,?_,?_,fun other mem => ?_,known⟩
  · rw [List.map_cons,List.sum_cons,still,zero_add]
    exact holds.latency n
  · have moved := (holds.edges.append_right [edge]).trans (List.perm_append_singleton edge _)
    rw [List.filterMap_cons_some made,List.map_append]
    exact moved.trans List.perm_middle.symm
  · rw [List.map_append,List.nodup_append]
    refine ⟨holds.nodup,by simp,fun id mem other same => ?_⟩
    obtain ⟨known,inside,rfl⟩ := List.mem_map.1 mem
    obtain rfl : other = s.made := by simpa using same
    exact (holds.fresh known inside).ne
  · rcases List.mem_append.1 mem with mem | mem
    · exact (holds.fresh other mem).trans (Nat.lt_succ_self _)
    · obtain rfl : other = (s.made,edge) := by simpa using mem
      exact Nat.lt_succ_self _

theorem apply_some (holds : Holds q base s active) (possible : q.applicable e = true) :
    ∃ s', apply q s e = some s' ∧ Holds q base s' (e :: active) ∧ (e.kind = .branch → Remembered q s' e) ∧
      (e.kind ≠ .branch → s'.bedge = s.bedge ∧ s'.edges = s.edges) := by
  rw [Sequence.applicable] at possible
  rw [apply]
  cases kind : e.kind with
  | none | stage | fu => simp [kind] at possible
  | fetch =>
    refine ⟨_,rfl,holds.setLatency (fun n => ?_) (by simp [Sequence.edgeOf,kind]),by simp,fun _ => ⟨rfl,rfl⟩⟩
    rw [List.map_cons,List.sum_cons,Function.update_apply,Sequence.shift,kind]
    split
    case isTrue here => rw [here,holds.latency]; simp only; omega
    case isFalse => rw [holds.latency]; simp
  | mem =>
    dsimp only
    cases found : e.inst.nodes.find? q.isMem with
    | none =>
      refine ⟨s,rfl,⟨fun n => ?_,?_,holds.nodup,holds.fresh,holds.bnode⟩,by simp,fun _ => ⟨rfl,rfl⟩⟩
      · rw [holds.latency]; simp [Sequence.shift,kind,found]
      · rw [List.filterMap_cons_none (by simp [Sequence.edgeOf,kind])]; exact holds.edges
    | some node =>
      refine ⟨_,rfl,holds.setLatency (fun n => ?_) (by simp [Sequence.edgeOf,kind]),by simp,fun _ => ⟨rfl,rfl⟩⟩
      rw [List.map_cons,List.sum_cons,Function.update_apply,Sequence.shift,kind]
      dsimp only
      rw [found]
      split
      case isTrue here => rw [here,holds.latency]; simp only [if_pos]; omega
      case isFalse away => rw [holds.latency]; simp [Ne.symm away]
  | branch =>
    rw [kind] at possible
    obtain ⟨edge,made⟩ := Option.isSome_iff_exists.1 possible
    have edgeOf := made
    obtain ⟨s₁,known,latency,edges,count,got⟩ := getBranchNode_eq holds
    rw [Sequence.edgeOf,if_pos kind] at made
    obtain ⟨node,resolves,made⟩ := Option.bind_eq_some_iff.1 made
    obtain ⟨distinct,same⟩ : ∃ distinct : node ≠ e.inst.fetchNode, (⟨node,e.inst.fetchNode,.solid,e.cost,distinct⟩ : ParExeEdge _) = edge := by
      simpa [Option.dite_none_right_eq_some] using made
    simp only [got,resolves,Option.map_some,Option.bind_eq_bind,Option.bind_some,State.newEdge,dif_pos distinct,same,latency,edges,count]
    exact ⟨_,rfl,holds.newEdge edgeOf (by simp [Sequence.shift,kind]) s₁.bnode known,
      fun _ => ⟨s.made,edge,rfl,by simp,edgeOf⟩,by simp⟩

theorem rollback_some (holds : Holds q base s active) (perm : active.Perm (e :: rest)) (possible : q.applicable e = true)
    (last : e.kind = .branch → Remembered q s e) :
    ∃ s', rollback q s e = some s' ∧ Holds q base s' rest ∧ (e.kind ≠ .branch → s'.bedge = s.bedge ∧ s'.edges = s.edges) := by
  replace holds := holds.perm perm
  rw [Sequence.applicable] at possible
  rw [rollback]
  cases kind : e.kind with
  | none | stage | fu => simp [kind] at possible
  | fetch =>
    refine ⟨_,rfl,holds.setLatency (fun n => ?_) (by simp [Sequence.edgeOf,kind]),fun _ => ⟨rfl,rfl⟩⟩
    have sum := holds.latency n
    rw [List.map_cons,List.sum_cons,Sequence.shift,kind] at sum
    rw [Function.update_apply]
    split
    case isTrue here => simp only [here,if_pos] at sum ⊢; omega
    case isFalse away => simp only [away,if_false] at sum; omega
  | mem =>
    dsimp only
    cases found : e.inst.nodes.find? q.isMem with
    | none =>
      refine ⟨s,rfl,⟨fun n => ?_,?_,holds.nodup,holds.fresh,holds.bnode⟩,fun _ => ⟨rfl,rfl⟩⟩
      · rw [holds.latency]; simp [Sequence.shift,kind,found]
      · rw [← List.filterMap_cons_none (a := e) (by simp [Sequence.edgeOf,kind])]; exact holds.edges
    | some node =>
      refine ⟨_,rfl,holds.setLatency (fun n => ?_) (by simp [Sequence.edgeOf,kind]),fun _ => ⟨rfl,rfl⟩⟩
      have sum := holds.latency n
      rw [List.map_cons,List.sum_cons,Sequence.shift,kind] at sum
      dsimp only at sum
      rw [found] at sum
      rw [Function.update_apply]
      split
      case isTrue here => simp only [here,if_pos] at sum ⊢; omega
      case isFalse away => simp only [Option.some.injEq,Ne.symm away,if_false] at sum; omega
  | branch =>
    obtain ⟨id,edge,remembered,inside,made⟩ := last kind
    have known : (s.edges.map Prod.fst).contains id = true := by simpa using ⟨edge,inside⟩
    simp only [remembered,State.remove,known,if_true,Option.bind_eq_bind,Option.bind_some]
    have apart : s.edges.Perm ((id,edge) :: s.edges.filter fun e => e.1 ≠ id) := perm_filter_key holds.nodup inside
    refine ⟨_,rfl,⟨fun n => ?_,?_,holds.nodup.sublist (List.filter_sublist.map _),
      fun other mem => holds.fresh other (List.mem_of_mem_filter mem),holds.bnode⟩,by simp⟩
    · rw [holds.latency,List.map_cons,List.sum_cons]; simp [Sequence.shift,kind]
    · have before := (apart.map Prod.snd).symm.trans holds.edges
      rw [List.filterMap_cons_some made] at before
      exact (before.trans List.perm_middle).cons_inv

end

/-! ### The turns of the loop -/

section
variable {q : Sequence count}

private theorem two_pow_dvd {mask i : Nat} (differ : mask.testBit i ≠ (mask + 1).testBit i) : 2 ^ i ∣ mask + 1 := by
  by_contra other
  refine differ ?_
  rw [Nat.testBit_eq_decide_div_mod_eq,Nat.testBit_eq_decide_div_mod_eq,Nat.succ_div,if_neg other,Nat.add_zero]

private theorem clear_of_dvd {mask i j : Nat} (divides : 2 ^ i ∣ mask) (lower : j < i) : mask.testBit j = false := by
  obtain ⟨c,rfl⟩ := divides
  simp [Nat.testBit_two_pow_mul,Nat.not_le.2 lower]

private theorem last_stays {mask n : Nat} (inside : mask + 1 < 2 ^ (n + 1)) (set : mask.testBit n = true) :
    (mask + 1).testBit n = true := by
  by_contra clear
  have differ : mask.testBit n ≠ (mask + 1).testBit n := by simp [set,clear]
  obtain ⟨c,counted⟩ := two_pow_dvd differ
  obtain rfl : c = 1 := by
    have positive := Nat.two_pow_pos n
    have least : c ≠ 0 := by rintro rfl; simp at counted
    have most : c < 2 := by
      by_contra large
      have := Nat.mul_le_mul_left (2 ^ n) (Nat.not_lt.1 large)
      rw [pow_succ] at inside
      omega
    omega
  rw [counted,Nat.mul_one,Nat.testBit_two_pow_self] at clear
  exact clear rfl

theorem chosen_update {events : List (Located count)} {on : Nat → Bool} {i : Nat} {e : Located count}
    (got : events[i]? = some e) (off : on i = false) :
    (chosen events (Function.update on i true)).Perm (e :: chosen events on) := by
  have inside : i < events.length := (List.getElem?_eq_some_iff.1 got).1
  have more : ((List.range events.length).filter (Function.update on i true)).Perm (i :: (List.range events.length).filter on) := by
    refine (List.perm_ext_iff_of_nodup (List.nodup_range.filter _) (List.nodup_cons.2 ⟨by simp [off],List.nodup_range.filter _⟩)).2 fun j => ?_
    rw [List.mem_filter,List.mem_cons,List.mem_filter,List.mem_range,Function.update_apply]
    split
    case isTrue same => simp [same,inside]
    case isFalse other => simp [other]
  have perm := more.filterMap (events[·]?)
  rwa [List.filterMap_cons_some got] at perm

/-- The events that are applied once those before i have been looked at. -/
def mixed (prev mask i j : Nat) : Bool := if j < i then mask.testBit j else prev.testBit j

theorem mixed_zero (prev mask : Nat) : mixed prev mask 0 = prev.testBit := by
  funext j
  simp [mixed]

theorem mixed_succ (prev mask i : Nat) :
    mixed prev mask (i + 1) = Function.update (mixed prev mask i) i (mask.testBit i) := by
  funext j
  rw [Function.update_apply,mixed,mixed]
  rcases Nat.lt_trichotomy j i with lower | rfl | higher
  · simp [lower,lower.ne,Nat.lt_succ_of_lt lower]
  · simp
  · simp [higher.ne',Nat.not_lt.2 higher.le,Nat.not_lt.2 (Nat.succ_le_of_lt higher)]

theorem chosen_mixed (events : List (Located count)) (prev mask : Nat) :
    chosen events (mixed prev mask events.length) = chosen events mask.testBit := by
  rw [chosen,chosen]
  congr 1
  refine List.filter_congr fun j mem => ?_
  rw [mixed,if_pos (List.mem_range.1 mem)]

def SingleBranch (events : List (Located count)) : Prop :=
  ∀ i j e f, i < j → j + 1 < events.length → events[i]? = some e → events[j]? = some f → ¬(e.kind = .branch ∧ f.kind = .branch)

/-- During the turns the events that are on have been applied, and the edge of the branch event that can
    be rolled back is remembered. -/
structure TurnInv (q : Sequence count) (events : List (Located count)) (start s : State count) (on : Nat → Bool) : Prop where
  holds : Holds q start s (chosen events on)
  last : ∀ j e, events[j]? = some e → e.kind = .branch → on j = true → j + 1 < events.length → Remembered q s e

theorem SingleBranch.other {events : List (Located count)} (single : SingleBranch events) {i j : Nat} {e f : Located count}
    (ne : i ≠ j) (before : i + 1 < events.length) (before' : j + 1 < events.length) (gotI : events[i]? = some e)
    (gotJ : events[j]? = some f) (branch : e.kind = .branch) : f.kind ≠ .branch := by
  intro branch'
  rcases Nat.lt_or_gt_of_ne ne with lower | higher
  · exact single i j e f lower before' gotI gotJ ⟨branch,branch'⟩
  · exact single j i f e higher before gotJ gotI ⟨branch',branch⟩

theorem Remembered.congr {s s' : State count} {e : Located count} (remembered : Remembered q s e) (bedge : s'.bedge = s.bedge)
    (edges : s'.edges = s.edges) : Remembered q s' e := by
  rw [Remembered,bedge,edges]
  exact remembered

section
variable {events : List (Located count)} {start s : State count} {on : Nat → Bool} {i mask : Nat} {e : Located count}

theorem TurnInv.apply (inv : TurnInv q events start s on) (got : events[i]? = some e) (off : on i = false)
    (possible : q.applicable e = true)
    (alone : e.kind = .branch → ∀ j f, events[j]? = some f → f.kind = .branch → on j = true → j + 1 < events.length → False) :
    ∃ s', EventGraph.apply q s e = some s' ∧ TurnInv q events start s' (Function.update on i true) := by
  obtain ⟨s',applied,holds,remembered,same⟩ := apply_some inv.holds possible
  refine ⟨s',applied,holds.perm (chosen_update got off).symm,fun j f gotJ branch set before => ?_⟩
  rw [Function.update_apply] at set
  by_cases here : j = i
  · obtain rfl : e = f := by rw [here,got] at gotJ; exact Option.some.inj gotJ
    exact remembered branch
  · rw [if_neg here] at set
    by_cases kind : e.kind = .branch
    · exact (alone kind j f gotJ branch set before).elim
    · exact (inv.last j f gotJ branch set before).congr (same kind).1 (same kind).2

theorem TurnInv.rollback (inv : TurnInv q events start s on) (single : SingleBranch events) (got : events[i]? = some e)
    (set : on i = true) (before : i + 1 < events.length) (possible : q.applicable e = true) :
    ∃ s', EventGraph.rollback q s e = some s' ∧ TurnInv q events start s' (Function.update on i false) := by
  have perm := chosen_update got (Function.update_self i false on)
  rw [Function.update_idem,← set,Function.update_eq_self] at perm
  obtain ⟨s',undone,holds,same⟩ := rollback_some inv.holds perm possible fun branch => inv.last i e got branch set before
  refine ⟨s',undone,holds,fun j f gotJ branch set before' => ?_⟩
  rw [Function.update_apply] at set
  by_cases here : j = i
  · simp [here] at set
  · rw [if_neg here] at set
    have kind := single.other here before' before gotJ got branch
    exact (inv.last j f gotJ branch set before').congr (same kind).1 (same kind).2

theorem TurnInv.toggle (inv : TurnInv q events start s (mixed mask (mask + 1) i)) (single : SingleBranch events)
    (possible : ∀ e ∈ events, q.applicable e = true) (bounded : mask + 1 < 2 ^ events.length) (inside : i < events.length) :
    ∃ s', EventGraph.toggle q events mask (mask + 1) s i = some s' ∧ TurnInv q events start s' (mixed mask (mask + 1) (i + 1)) := by
  have bit : mixed mask (mask + 1) i i = mask.testBit i := by simp [mixed]
  rw [mixed_succ,EventGraph.toggle]
  by_cases same : mask.testBit i = (mask + 1).testBit i
  · rw [if_pos same]
    refine ⟨s,rfl,?_⟩
    rwa [← same,← bit,Function.update_eq_self]
  · have got := List.getElem?_eq_getElem inside
    have known := possible _ (List.getElem_mem inside)
    simp only [if_neg same,got,Option.bind_eq_bind,Option.bind_some]
    cases after : (mask + 1).testBit i with
    | true =>
      have off : mask.testBit i = false := by simpa [after] using same
      rw [if_pos rfl]
      refine inv.apply got (bit.trans off) known fun branch j f gotJ branch' set before => ?_
      -- no lower event is left, and a higher one would come after the last event
      rcases Nat.lt_trichotomy j i with lower | rfl | higher
      · rw [mixed,if_pos lower,clear_of_dvd (two_pow_dvd same) lower] at set
        cases set
      · rw [bit,off] at set
        cases set
      · exact single i j _ f higher before got gotJ ⟨branch,branch'⟩
    | false =>
      have set : mask.testBit i = true := by simpa [after] using same
      rw [if_neg (by simp)]
      refine inv.rollback single got (bit.trans set) ?_ known
      by_contra final
      obtain length : events.length = i + 1 := by omega
      rw [last_stays (length ▸ bounded) set] at after
      cases after

theorem TurnInv.turn (inv : TurnInv q events start s mask.testBit) (single : SingleBranch events)
    (possible : ∀ e ∈ events, q.applicable e = true) (bounded : mask + 1 < 2 ^ events.length) :
    ∃ s', EventGraph.turn q events mask (mask + 1) s = some s' ∧ TurnInv q events start s' (mask + 1).testBit := by
  have partway : ∀ i ≤ events.length, ∃ s', (List.range i).foldlM (EventGraph.toggle q events mask (mask + 1)) s = some s' ∧
      TurnInv q events start s' (mixed mask (mask + 1) i) := by
    intro i inside
    induction i with
    | zero => exact ⟨s,rfl,by rwa [mixed_zero]⟩
    | succ i ih =>
      obtain ⟨s₁,ran,inv⟩ := ih (by omega)
      obtain ⟨s₂,toggled,inv⟩ := inv.toggle single possible bounded inside
      refine ⟨s₂,?_,inv⟩
      rw [List.range_succ,List.foldlM_append,ran]
      simpa using toggled
  obtain ⟨s',ran,inv⟩ := partway events.length le_rfl
  refine ⟨s',ran,by rw [← chosen_mixed]; exact inv.holds,fun j e got branch set before => ?_⟩
  exact inv.last j e got branch (by rw [mixed,if_pos (by omega)]; exact set) before

theorem turn_zero (start : State count) : EventGraph.turn q events 0 0 start = some start := by
  rw [EventGraph.turn]
  induction List.range events.length with
  | nil => rfl
  | cons i rest ih => simpa [EventGraph.toggle] using ih

theorem turns_some (holds : Holds q start start []) (single : SingleBranch events)
    (possible : ∀ e ∈ events, q.applicable e = true) (bounded : mask < 2 ^ events.length) :
    ∃ s, turns q events start mask = some s ∧ TurnInv q events start s mask.testBit := by
  induction mask with
  | zero =>
    refine ⟨start,turn_zero start,?_,by simp⟩
    rwa [show chosen events (Nat.testBit 0) = [] by simp [chosen]]
  | succ mask ih =>
    obtain ⟨s,ran,inv⟩ := ih (by omega)
    obtain ⟨s',turned,inv⟩ := inv.turn single possible bounded
    exact ⟨s',by rw [turns,ran]; exact turned,inv⟩

end

section
variable {events : List (Located count)} {start s s' : State count} {i j prev mask : Nat} {e : Located count}

private theorem partTurn_succ (s : State count) (i : Nat) :
    (List.range (i + 1)).foldlM (toggle q events prev mask) s =
      ((List.range i).foldlM (toggle q events prev mask) s).bind fun s => toggle q events prev mask s i := by
  rw [List.range_succ,List.foldlM_append]
  cases (List.range i).foldlM (toggle q events prev mask) s with
  | none => rfl
  | some s' =>
    rw [Option.bind_some,Option.bind_eq_bind,Option.bind_some,List.foldlM_cons]
    cases toggle q events prev mask s' i <;> rfl

private theorem partTurn_none (failed : (List.range i).foldlM (toggle q events prev mask) s = none) (more : i ≤ j) :
    (List.range j).foldlM (toggle q events prev mask) s = none := by
  induction j,more using Nat.le_induction with
  | base => exact failed
  | succ j more ih => rw [partTurn_succ,ih]; rfl

private theorem toggle_off (got : events[i]? = some e) (set : prev.testBit i = true) (clear : mask.testBit i = false) :
    toggle q events prev mask s i = rollback q s e := by
  simp [toggle,set,clear,got]

private theorem rollback_bedge (ran : rollback q s e = some s') (lost : e.kind = .branch ∨ s.bedge = none) :
    s'.bedge = none := by
  rw [rollback] at ran
  cases kind : e.kind with
  | none | stage | fu => simp [kind] at ran
  | fetch =>
    simp only [kind,Option.some.injEq] at ran
    rw [← ran]
    simpa [kind,State.setLatency] using lost
  | mem =>
    rw [kind] at ran
    dsimp only at ran
    split at ran <;> cases ran <;> simpa [kind,State.setLatency] using lost
  | branch =>
    simp only [kind,Option.bind_eq_bind,Option.bind_eq_some_iff] at ran
    obtain ⟨id,-,after,-,same⟩ := ran
    rw [← Option.some.inj same]

private theorem rollback_none (branch : e.kind = .branch) (lost : s.bedge = none) : rollback q s e = none := by
  rw [rollback,branch]
  simp [lost]

theorem turn_none {f : Located count} (lower : i < j) (inside : j < events.length) (gotI : events[i]? = some e) (gotJ : events[j]? = some f)
    (branchI : e.kind = .branch) (branchJ : f.kind = .branch) (set : ∀ l ≤ j, prev.testBit l = true)
    (clear : ∀ l ≤ j, mask.testBit l = false) : turn q events prev mask s = none := by
  refine partTurn_none (i := j + 1) ?_ inside
  have lost : ∀ n, i < n → n ≤ j → ∀ s', (List.range n).foldlM (toggle q events prev mask) s = some s' → s'.bedge = none := by
    intro n after
    induction n,after using Nat.le_induction with
    | base =>
      intro before s' ran
      rw [Nat.succ_eq_add_one,partTurn_succ] at ran
      obtain ⟨s₁,-,ran⟩ := Option.bind_eq_some_iff.1 ran
      rw [toggle_off gotI (set i lower.le) (clear i lower.le)] at ran
      exact rollback_bedge ran (.inl branchI)
    | succ n after ih =>
      intro before s' ran
      rw [partTurn_succ] at ran
      obtain ⟨s₁,part,ran⟩ := Option.bind_eq_some_iff.1 ran
      rw [toggle_off (List.getElem?_eq_getElem (by omega)) (set n (by omega)) (clear n (by omega))] at ran
      exact rollback_bedge ran (.inr (ih (by omega) s₁ part))
  rw [partTurn_succ]
  cases part : (List.range j).foldlM (toggle q events prev mask) s with
  | none => rfl
  | some s₁ =>
    rw [Option.bind_some,toggle_off gotJ (set j le_rfl) (clear j le_rfl)]
    exact rollback_none branchJ (lost j lower le_rfl s₁ part)

theorem singleBranch_of_turns (ran : ∀ mask < 2 ^ events.length, turns q events start mask ≠ none) : SingleBranch events := by
  intro i j e f lower before gotI gotJ branches
  have bounded : 2 ^ (j + 1) < 2 ^ events.length := Nat.pow_lt_pow_right (by omega) before
  obtain ⟨prev,next⟩ : ∃ prev, 2 ^ (j + 1) = prev + 1 := ⟨2 ^ (j + 1) - 1,(Nat.succ_pred_eq_of_pos (Nat.two_pow_pos _)).symm⟩
  refine ran _ bounded ?_
  rw [next,turns]
  cases turns q events start prev with
  | none => rfl
  | some s =>
    refine turn_none lower (by omega) gotI gotJ branches.1 branches.2 (fun l least => ?_) fun l least => ?_
    · obtain rfl : prev = 2 ^ (j + 1) - 1 := by omega
      simp [Nat.testBit_two_pow_sub_one,Nat.lt_succ_of_le least]
    · rw [← next]
      exact clear_of_dvd dvd_rfl (Nat.lt_succ_of_le least)

end

def always (all : List (Located count)) : List (Located count) := all.filter fun e => e.occurrence = .always

def dynamic (all : List (Located count)) : List (Located count) := all.filter fun e => e.occurrence = .sometimes

/-- The graph that `make` has built; `bedge` is still the one of the edge processed before. -/
def initial (edges : List (ParExeEdge count)) (latency : Fin count → Int) (bedge : Option Nat) : State count :=
  ⟨latency,edges.zipIdx.map Prod.swap,edges.length,none,bedge⟩

structure SameGraph (s s' : State count) : Prop where
  latency : s.latency = s'.latency
  edges : (s.edges.map Prod.snd).Perm (s'.edges.map Prod.snd)

/-- For this mask the loop analyzes the graph of the permanent events and of these of the mask. -/
def RightMask (q : Sequence count) (init : State count) (all : List (Located count)) (mask : Nat) : Prop :=
  ∃ start s direct, staticEvents q init all = some (start,dynamic all) ∧ turns q (dynamic all) start mask = some s ∧
    (always all ++ chosen (dynamic all) mask.testBit).foldlM (apply q) init = some direct ∧ SameGraph s direct

theorem staticEvents_eq (init : State count) (all : List (Located count)) :
    staticEvents q init all = ((always all).foldlM (apply q) init).map (·,dynamic all) := by
  have kept : ∀ (events : List (Located count)) (s : State count),
      all.foldlM (staticEvent q) (s,events) = ((always all).foldlM (apply q) s).map (·,events ++ dynamic all) := by
    induction all with
    | nil => intro events s; simp [always,dynamic]
    | cons e rest ih =>
      intro events s
      rw [List.foldlM_cons,staticEvent]
      rw [always,dynamic] at ih
      cases occurrence : e.occurrence with
      | never | sometimes => simp [ih,always,dynamic,occurrence]
      | always =>
        cases applied : apply q s e with
        | none => simp [always,occurrence,applied]
        | some s' => simp [ih,always,dynamic,occurrence,applied]
  rw [staticEvents,kept [] init,List.nil_append]

theorem initial_holds (edges : List (ParExeEdge count)) (latency : Fin count → Int) (bedge : Option Nat) :
    Holds q (initial edges latency bedge) (initial edges latency bedge) [] := by
  refine ⟨by simp,by simp,?_,fun e mem => ?_,by simp [initial]⟩
  · simpa [initial,Function.comp_def] using List.nodup_range'
  · obtain ⟨⟨edge,id⟩,inside,rfl⟩ := List.mem_map.1 mem
    exact (List.mem_zipIdx' inside).1

section
variable {base start s s' : State count} {active more l : List (Located count)} {e : Located count}

theorem Holds.restart (holds : Holds q base s active) : Holds q s s [] :=
  ⟨by simp,by simp,holds.nodup,holds.fresh,holds.bnode⟩

theorem Holds.trans (first : Holds q base start active) (second : Holds q start s more) : Holds q base s (active ++ more) := by
  refine ⟨fun n => ?_,?_,second.nodup,second.fresh,second.bnode⟩
  · rw [second.latency,first.latency,List.map_append,List.sum_append]
    omega
  · rw [List.filterMap_append,← List.append_assoc]
    exact second.edges.trans (first.edges.append_right _)

theorem Holds.same (holds : Holds q base s active) (holds' : Holds q base s' active) : SameGraph s s' :=
  ⟨funext fun n => (holds.latency n).trans (holds'.latency n).symm,holds.edges.trans holds'.edges.symm⟩

theorem foldlM_apply (holds : Holds q base s active) (possible : ∀ e ∈ l, q.applicable e = true) :
    ∃ s', l.foldlM (apply q) s = some s' ∧ Holds q base s' (active ++ l) := by
  induction l generalizing s active with
  | nil => exact ⟨s,rfl,by simpa using holds⟩
  | cons e rest ih =>
    obtain ⟨s₁,applied,holds,-⟩ := apply_some holds (possible e (by simp))
    obtain ⟨s₂,ran,holds⟩ := ih holds fun e mem => possible e (.tail _ mem)
    exact ⟨s₂,by simp [applied,ran],holds.perm List.perm_middle.symm⟩

theorem applicable_of_foldlM (holds : Holds q base s active) (ran : l.foldlM (apply q) s = some s') :
    ∀ e ∈ l, q.applicable e = true := by
  induction l generalizing s active with
  | nil => simp
  | cons e rest ih =>
    obtain ⟨s₁,applied,ran⟩ := Option.bind_eq_some_iff.1 (by simpa using ran)
    cases possible : q.applicable e with
    | false => rw [apply_none holds possible] at applied; cases applied
    | true =>
      obtain ⟨s₂,again,holds,-⟩ := apply_some holds possible
      obtain rfl : s₂ = s₁ := Option.some.inj (again.symm.trans applied)
      intro f mem
      rcases List.mem_cons.1 mem with rfl | mem
      · exact possible
      · exact ih holds ran f mem

end

theorem mem_chosen {events : List (Located count)} {on : Nat → Bool} {e : Located count} :
    e ∈ chosen events on ↔ ∃ i, on i = true ∧ events[i]? = some e := by
  rw [chosen,List.mem_filterMap]
  refine ⟨fun ⟨i,mem,got⟩ => ⟨i,(List.mem_filter.1 mem).2,got⟩,fun ⟨i,set,got⟩ => ⟨i,?_,got⟩⟩
  exact List.mem_filter.2 ⟨List.mem_range.2 (List.getElem?_eq_some_iff.1 got).1,set⟩

/-- Whatever graph `make` has built, the loop analyzes the right graph for every mask when its events can
    be applied and at most one of the branch events comes before the last event, and only then. -/
theorem turns_iff (q : Sequence count) (edges : List (ParExeEdge count)) (latency : Fin count → Int) (bedge : Option Nat)
    (all : List (Located count)) :
    (∀ mask < 2 ^ (dynamic all).length, RightMask q (initial edges latency bedge) all mask) ↔
      (∀ e ∈ all, e.occurrence ≠ .never → q.applicable e = true) ∧ SingleBranch (dynamic all) := by
  have holds : Holds q _ _ [] := initial_holds edges latency bedge
  constructor
  · intro right
    have applied : ∀ mask < 2 ^ (dynamic all).length, ∀ e ∈ always all ++ chosen (dynamic all) mask.testBit, q.applicable e = true :=
      fun mask bounded => by
        obtain ⟨-,-,direct,-,-,ran,-⟩ := right mask bounded
        exact applicable_of_foldlM holds ran
    obtain ⟨start,-,-,static,-⟩ := right 0 (Nat.two_pow_pos _)
    have turned : ∀ mask < 2 ^ (dynamic all).length, turns q (dynamic all) start mask ≠ none := by
      intro mask bounded
      obtain ⟨start',s,-,static',turned,-⟩ := right mask bounded
      obtain ⟨rfl,-⟩ := Prod.ext_iff.1 (Option.some.inj (static.symm.trans static'))
      rw [turned]
      exact Option.some_ne_none _
    refine ⟨fun e mem occurs => ?_,singleBranch_of_turns turned⟩
    · cases occurrence : e.occurrence with
      | never => exact absurd occurrence occurs
      | always =>
        refine applied 0 (Nat.two_pow_pos _) e (List.mem_append_left _ ?_)
        exact List.mem_filter.2 ⟨mem,by simp [occurrence]⟩
      | sometimes =>
        have inside : e ∈ dynamic all := List.mem_filter.2 ⟨mem,by simp [occurrence]⟩
        obtain ⟨i,got⟩ := List.mem_iff_getElem?.1 inside
        have bounded := Nat.pow_lt_pow_right (a := 2) (by omega) (List.getElem?_eq_some_iff.1 got).1
        refine applied (2 ^ i) bounded e (List.mem_append_right _ ?_)
        exact mem_chosen.2 ⟨i,Nat.testBit_two_pow_self,got⟩
  · rintro ⟨possible,single⟩ mask bounded
    have fixed : ∀ e ∈ always all, q.applicable e = true := fun e mem => by
      obtain ⟨mem,occurs⟩ := List.mem_filter.1 mem
      exact possible e mem (by simp [of_decide_eq_true occurs])
    have varying : ∀ e ∈ dynamic all, q.applicable e = true := fun e mem => by
      obtain ⟨mem,occurs⟩ := List.mem_filter.1 mem
      exact possible e mem (by simp [of_decide_eq_true occurs])
    obtain ⟨start,ran,first⟩ := foldlM_apply holds fixed
    obtain ⟨s,turned,inv⟩ := turns_some first.restart single varying bounded
    obtain ⟨direct,applied,whole⟩ := foldlM_apply (l := always all ++ chosen (dynamic all) mask.testBit) holds fun e mem => by
      rcases List.mem_append.1 mem with mem | mem
      · exact fixed e mem
      · obtain ⟨i,-,got⟩ := mem_chosen.1 mem
        exact varying e (List.mem_of_getElem? got)
    refine ⟨start,s,direct,by rw [staticEvents_eq,ran]; rfl,turned,applied,?_⟩
    exact (first.trans inv.holds).same whole

/-- Two branch events before an event of fetch: the second edge is rolled back for the first event, and
    no edge is remembered for the second one. -/
theorem turns_two_branches :
    let q : Sequence 3 := ⟨some (some 0),[⟨0,0,[0]⟩,⟨1,1,[1]⟩,⟨2,2,[2]⟩],fun _ => false,fun _ => false⟩
    let all : List (Located 3) := [⟨.branch,.sometimes,5,⟨1,1,[1]⟩⟩,⟨.branch,.sometimes,5,⟨2,2,[2]⟩⟩,⟨.fetch,.sometimes,10,⟨2,2,[2]⟩⟩]
    ¬∀ mask < 2 ^ (dynamic all).length, RightMask q (initial [] (fun _ => 1) none) all mask := by
  intro q all right
  obtain ⟨start,s,-,static,turned,-⟩ := right 4 (by decide)
  have static' : staticEvents q (initial [] (fun _ => 1) none) all = some (initial [] (fun _ => 1) none,dynamic all) := rfl
  obtain ⟨rfl,-⟩ := Prod.ext_iff.1 (Option.some.inj (static.symm.trans static'))
  have failed : turns q (dynamic all) (initial [] (fun _ => 1) none) 4 = none := rfl
  rw [failed] at turned
  cases turned

end

end Otawa.EventGraph
