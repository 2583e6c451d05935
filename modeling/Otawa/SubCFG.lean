import Otawa.AbsIntLite
import Otawa.Cfg
import Otawa.PathReads
import Mathlib.Logic.Relation
import Mathlib.Data.Fin.VecNotation

/-!
`SubCFGBuilder`: the blocks between a start address and stop addresses are found by two
floods, forward from the start and backward from the stops, each cut by the marks of the
other one. The backward flood starts at the exit of the graph and stops at the start block,
so a block that reaches a stop only through the start block is lost (`reads_iff`).
-/
namespace Otawa.SubCFG
open Otawa.Cfg
open Otawa.AbsIntLite (Graph Domain)
open Otawa.PathReads (LabelledGraph)
open Relation (ReflTransGen)

/-! ### The graph and the marks -/

structure FlatCFG (n m : Nat) extends CFG n m where
  exit : Fin n
  address : Fin n → Nat
  size : Fin n → Nat
  no_call : ∀ e, kind e ≠ .call
  entry_first : ∀ e, target e ≠ entry
  exit_last : ∀ e, source e ≠ exit

namespace FlatCFG
variable {n m : Nat} (cfg : FlatCFG n m)

def isEnd (bb : Fin n) : Bool := bb = cfg.entry || bb = cfg.exit

/-- The start address. The offset 0, also that of a missing `CFG_START`, is replaced by the
    address of the first block after the entry, which must be another one. -/
def fixStart (start : Nat) : Option Nat :=
  if start = 0 then
    ((cfg.outs cfg.entry).head?.map fun next => cfg.address (cfg.target next)).filter (· ≠ 0)
  else some start

def fixStops (stops : List Nat) : List Nat :=
  if stops = [] then (cfg.ins cfg.exit).map fun prev => cfg.address (cfg.source prev) else stops

def holds (bb : Fin n) (addr : Nat) : Bool :=
  !cfg.isEnd bb && (cfg.address bb ≤ addr && addr < cfg.address bb + cfg.size bb)

end FlatCFG

/-- `IS_START` and `IS_STOP`, with what the domains ask of a block. -/
structure Marks (n : Nat) where
  isEnd : Fin n → Bool
  isStart : Fin n → Bool
  isStop : Fin n → Bool

def FlatCFG.mark {n m : Nat} (cfg : FlatCFG n m) (start : Nat) (stops : List Nat) : Marks n where
  isEnd := cfg.isEnd
  isStart bb := cfg.holds bb start
  isStop bb := stops.any (cfg.holds bb)

/-- The values of `Domain`. -/
inductive Flag where
  | bottom
  | no
  | yes
  deriving DecidableEq

def Flag.toInt : Flag → Int
  | bottom => -1
  | no => 0
  | yes => 1

def Flag.join (d s : Flag) : Flag := if d.toInt < s.toInt then s else d

variable {n m : Nat}

def StartDomain (marks : Marks n) : Domain n Flag where
  initial := .no
  bottom := .bottom
  join := Flag.join
  update bb d :=
    if marks.isEnd bb then d
    else
      let d := if marks.isStart bb then Flag.yes else d
      if marks.isStop bb then .no else d

def StopDomain (marks : Marks n) : Domain n Flag where
  initial := .no
  bottom := .bottom
  join := Flag.join
  update bb d :=
    if marks.isEnd bb then d
    else
      let d := if marks.isStop bb then Flag.yes else d
      if marks.isStart bb then .no else d

/-- `ForwardCFGAdapter`. -/
def FlatCFG.forward (cfg : FlatCFG n m) : Graph n where
  entry := cfg.entry
  successors := cfg.successors
  predecessors := cfg.predecessors

/-- `BackwardCFGAdapter`. -/
def FlatCFG.backward (cfg : FlatCFG n m) : Graph n where
  entry := cfg.exit
  successors := cfg.predecessors
  predecessors := cfg.successors

/-- The blocks of the virtual graph; a virtual block is known by its original block. -/
inductive VirtualBlock (n : Nat) where
  | entry
  | exit
  | block (bb : Fin n)
  deriving DecidableEq

structure VirtualEdge (n : Nat) where
  source : VirtualBlock n
  target : VirtualBlock n
  kind : EdgeKind
  deriving DecidableEq

structure VirtualCFG (n : Nat) where
  blocks : List (VirtualBlock n)
  edges : List (VirtualEdge n)
  deriving DecidableEq

def VirtualCFG.graph (v : VirtualCFG n) : LabelledGraph (VirtualBlock n) (Fin n) where
  entry := .entry
  exit := .exit
  link a b := ∃ kind, ⟨a,b,kind⟩ ∈ v.edges
  label
    | .block bb => [bb]
    | _ => []

def orgs (cfg : FlatCFG n m) (marks : Marks n) (start_vals stop_vals : Fin n → Flag) : List (Fin n) :=
  cfg.blocks.filter fun bb => !marks.isEnd bb && (marks.isStart bb || marks.isStop bb ||
    (AbsIntLite.input cfg.forward (StartDomain marks) start_vals bb == Flag.yes &&
      AbsIntLite.input cfg.backward (StopDomain marks) stop_vals bb == Flag.yes))

/-- The edges that leave the virtual block of `src`. -/
def virtualEdges (cfg : FlatCFG n m) (marks : Marks n) (orgs : List (Fin n)) (src : Fin n) : List (VirtualEdge n) :=
  (if marks.isStart src then [⟨.entry,.block src,.virtualCall⟩] else []) ++
  if marks.isStop src then [⟨.block src,.exit,.virtualReturn⟩]
  else (cfg.outs src).filterMap fun edge =>
    if orgs.contains (cfg.target edge) then some ⟨.block src,.block (cfg.target edge),cfg.kind edge⟩ else none

def turns (n : Nat) : Nat := n + n * (n * 2)

def processWorkSpace (cfg : FlatCFG n m) (cfgStart : Nat) (cfgStops : List Nat) : Option (VirtualCFG n) := do
  let start ← cfg.fixStart cfgStart
  let marks := cfg.mark start (cfg.fixStops cfgStops)
  let start_ai ← AbsIntLite.process cfg.forward (StartDomain marks) (turns n)
  let stop_ai ← AbsIntLite.process cfg.backward (StopDomain marks) (turns n)
  let orgs := orgs cfg marks start_ai.vals stop_ai.vals
  some {
    blocks := [.entry] ++ orgs.map .block ++ [.exit]
    edges := orgs.flatMap (virtualEdges cfg marks orgs) }

section Paths
variable (cfg : FlatCFG n m) (marks : Marks n)

inductive ToStop : List (Fin n) → Prop
  | stop {t : Fin n} : marks.isStop t = true → ToStop [t]
  | step {b c : Fin n} {path : List (Fin n)} : marks.isStop b = false → cfg.Flow b c → ToStop (c :: path) →
      ToStop (b :: c :: path)

def FromStart (path : List (Fin n)) : Prop := ∃ s rest, path = s :: rest ∧ marks.isStart s = true

def SubPath (path : List (Fin n)) : Prop := FromStart marks path ∧ ToStop cfg marks path

/-- The forward flood: from a start block that the entry reaches, around the stops. -/
def FloodedFromStart (b : Fin n) : Prop :=
  ∃ s, marks.isStart s = true ∧ marks.isStop s = false ∧ ReflTransGen cfg.Flow cfg.entry s ∧
    ReflTransGen (fun a c => cfg.Flow a c ∧ marks.isStop c = false) s b

/-- The backward flood: from a stop block that reaches the exit, around the start. -/
def FloodedFromStop (b : Fin n) : Prop :=
  ∃ t, marks.isStop t = true ∧ marks.isStart t = false ∧ ReflTransGen cfg.Flow t cfg.exit ∧
    ReflTransGen (fun a c => cfg.Flow a c ∧ marks.isStart a = false) b t

end Paths

/-! ### Floods -/

instance : LinearOrder Flag :=
  LinearOrder.lift' Flag.toInt (by intro a b; cases a <;> cases b <;> simp [Flag.toInt])

theorem Flag.le_def {x y : Flag} : x ≤ y ↔ x.toInt ≤ y.toInt := Iff.rfl

instance : OrderBot Flag where
  bot := .bottom
  bot_le x := by cases x <;> simp [Flag.le_def,Flag.toInt]

theorem Flag.bot_eq : (⊥ : Flag) = .bottom := rfl

theorem Flag.le_yes (x : Flag) : x ≤ .yes := by cases x <;> simp [Flag.le_def,Flag.toInt]

private theorem join_eq_sup (d s : Flag) : d.join s = d ⊔ s := by
  unfold Flag.join
  split
  case isTrue less => exact (sup_eq_right.mpr (Flag.le_def.mpr less.le)).symm
  case isFalse more => exact (sup_eq_left.mpr (Flag.le_def.mpr (Int.not_lt.mp more))).symm

/-- How many times a value can still change. -/
def Flag.rank : Flag → Nat
  | bottom => 2
  | no => 1
  | yes => 0

private theorem rank_lt (x y : Flag) (less : x < y) : y.rank < x.rank := by
  have number : x.toInt < y.toInt := less
  cases x <;> cases y <;> simp [Flag.toInt] at number <;> simp [Flag.rank]

/-- A domain that marks some blocks and stops at others. -/
structure Floods (isEnd on off : Fin n → Bool) (d : Domain n Flag) : Prop where
  initial : d.initial = .no
  bottom : d.bottom = .bottom
  join : d.join = Flag.join
  update : ∀ bb x, d.update bb x = if isEnd bb then x else if off bb then .no else if on bb then .yes else x
  on_inner : ∀ bb, on bb = true → isEnd bb = false
  off_inner : ∀ bb, off bb = true → isEnd bb = false

theorem startDomain_floods {marks : Marks n} (start : ∀ bb, marks.isStart bb = true → marks.isEnd bb = false)
    (stop : ∀ bb, marks.isStop bb = true → marks.isEnd bb = false) :
    Floods marks.isEnd marks.isStart marks.isStop (StartDomain marks) :=
  ⟨rfl,rfl,rfl,fun _ _ => rfl,start,stop⟩

theorem stopDomain_floods {marks : Marks n} (start : ∀ bb, marks.isStart bb = true → marks.isEnd bb = false)
    (stop : ∀ bb, marks.isStop bb = true → marks.isEnd bb = false) :
    Floods marks.isEnd marks.isStop marks.isStart (StopDomain marks) :=
  ⟨rfl,rfl,rfl,fun _ _ => rfl,stop,start⟩

section Flood
variable {g : Graph n} {isEnd on off : Fin n → Bool} {d : Domain n Flag}

def Flooded (g : Graph n) (on off : Fin n → Bool) (b : Fin n) : Prop :=
  ∃ s, on s = true ∧ off s = false ∧ ReflTransGen (fun a c => c ∈ g.successors a) g.entry s ∧
    ReflTransGen (fun a c => c ∈ g.successors a ∧ off c = false) s b

private theorem floods_lawful (floods : Floods isEnd on off d)
    (converse : ∀ a b, a ∈ g.predecessors b ↔ b ∈ g.successors a) (first : ∀ a, g.entry ∉ g.successors a) :
    AbsIntLite.Lawful g d where
  converse := converse
  first := first
  bottom := floods.bottom
  join x y := by rw [floods.join,join_eq_sup]
  initial := by rw [floods.initial]; decide
  mono bb x y below := by
    rw [floods.update,floods.update]
    split
    · exact below
    split
    · exact le_rfl
    split
    · exact le_rfl
    · exact below
  live bb x some := by
    rw [floods.update]
    split
    · exact some
    split
    · decide
    split
    · decide
    · exact some

variable {v : Fin n}

private theorem flooded_reached (flooded : Flooded g on off v) :
    ReflTransGen (fun a c => c ∈ g.successors a) g.entry v := by
  obtain ⟨s,-,-,before,path⟩ := flooded
  exact before.trans (path.lift id fun _ _ next => next.1)

private theorem flooded_not_off (flooded : Flooded g on off v) : off v = false := by
  obtain ⟨s,-,start,-,path⟩ := flooded
  rcases ReflTransGen.cases_tail path with same | ⟨p,-,last⟩
  · exact same ▸ start
  · exact last.2

private theorem flooded_iff (lawful : AbsIntLite.Lawful g d) (notOn : on v = false)
    (notOff : off v = false) : Flooded g on off v ↔ ∃ p ∈ g.predecessors v, Flooded g on off p := by
  constructor
  · rintro ⟨s,mark,start,before,path⟩
    rcases ReflTransGen.cases_tail path with same | ⟨p,init,last⟩
    · rw [same,mark] at notOn
      cases notOn
    · exact ⟨p,(lawful.converse p v).mpr last.1,s,mark,start,before,init⟩
  · rintro ⟨p,pred,s,mark,start,before,path⟩
    exact ⟨s,mark,start,before,path.tail ⟨(lawful.converse p v).mp pred,notOff⟩⟩

private theorem reached_iff (lawful : AbsIntLite.Lawful g d) (differ : v ≠ g.entry) :
    ReflTransGen (fun a c => c ∈ g.successors a) g.entry v ↔
      ∃ p ∈ g.predecessors v, ReflTransGen (fun a c => c ∈ g.successors a) g.entry p := by
  constructor
  · intro reached
    rcases ReflTransGen.cases_tail reached with same | ⟨p,before,last⟩
    · exact absurd same differ
    · exact ⟨p,(lawful.converse p v).mpr last,before⟩
  · rintro ⟨p,pred,before⟩
    exact before.tail ((lawful.converse p v).mp pred)

private theorem input_eq_yes (lawful : AbsIntLite.Lawful g d) {vals : Fin n → Flag} :
    AbsIntLite.input g d vals v = .yes ↔ ∃ p ∈ g.predecessors v, vals p = .yes := by
  constructor
  · intro yes
    by_contra none
    have small : AbsIntLite.input g d vals v ≤ .no := by
      refine (AbsIntLite.input_le_iff lawful).mpr fun p pred => ?_
      cases value : vals p with
      | bottom => decide
      | no => decide
      | yes => exact absurd ⟨p,pred,value⟩ none
    rw [yes] at small
    exact absurd small (by decide)
  · rintro ⟨p,pred,value⟩
    have bound := AbsIntLite.le_input lawful vals pred
    rw [value] at bound
    exact le_antisymm (Flag.le_yes _) bound

private theorem input_eq_bottom (lawful : AbsIntLite.Lawful g d) {vals : Fin n → Flag} :
    AbsIntLite.input g d vals v = ⊥ ↔ ∀ p ∈ g.predecessors v, vals p = ⊥ := by
  rw [← le_bot_iff,AbsIntLite.input_le_iff lawful]
  simp only [le_bot_iff]

open Classical in
private noncomputable def floodValue (g : Graph n) (on off : Fin n → Bool) (v : Fin n) : Flag :=
  if Flooded g on off v then .yes
  else if ReflTransGen (fun a c => c ∈ g.successors a) g.entry v then .no
  else ⊥

private theorem floodValue_yes : floodValue g on off v = .yes ↔ Flooded g on off v := by
  unfold floodValue
  split
  case isTrue flooded => simp [flooded]
  case isFalse dry =>
    refine iff_of_false ?_ dry
    split
    · decide
    · decide

private theorem floodValue_bottom :
    floodValue g on off v = ⊥ ↔ ¬ReflTransGen (fun a c => c ∈ g.successors a) g.entry v := by
  unfold floodValue
  split
  case isTrue flooded => exact iff_of_false (by decide) fun none => none (flooded_reached flooded)
  case isFalse =>
    split
    case isTrue reached => exact iff_of_false (by decide) fun none => none reached
    case isFalse none => exact iff_of_true rfl none

/-- A value from what its two extreme cases mean. -/
private theorem flag_ext {x y : Flag} (yes : x = .yes ↔ y = .yes) (bottom : x = ⊥ ↔ y = ⊥) : x = y := by
  rw [Flag.bot_eq] at bottom
  cases x <;> cases y <;> simp at yes bottom <;> rfl

private theorem floodValue_solves (lawful : AbsIntLite.Lawful g d) (floods : Floods isEnd on off d)
    (entryEnd : isEnd g.entry = true) (v : Fin n) :
    AbsIntLite.transfer g d (floodValue g on off) v = floodValue g on off v := by
  unfold AbsIntLite.transfer
  split
  case isTrue same =>
    rw [same,floods.initial]
    have dry : ¬Flooded g on off g.entry := by
      rintro ⟨s,mark,-,-,path⟩
      rcases ReflTransGen.cases_tail path with here | ⟨p,-,last⟩
      · rw [here,floods.on_inner s mark] at entryEnd
        cases entryEnd
      · exact lawful.first p last.1
    refine (flag_ext (iff_of_false (by decide) fun yes => dry (floodValue_yes.mp yes)) ?_)
    exact iff_of_false (by decide) fun none => floodValue_bottom.mp none .refl
  case isFalse differ =>
    have reached : AbsIntLite.input g d (floodValue g on off) v = ⊥ ↔
        ¬ReflTransGen (fun a c => c ∈ g.successors a) g.entry v := by
      rw [input_eq_bottom lawful,reached_iff lawful differ]
      simp only [floodValue_bottom,not_exists,not_and]
    have wet : AbsIntLite.input g d (floodValue g on off) v = .yes ↔
        ∃ p ∈ g.predecessors v, Flooded g on off p := by
      rw [input_eq_yes lawful]
      simp only [floodValue_yes]
    split
    case isTrue none => exact (floodValue_bottom.mpr (reached.mp none)).symm
    case isFalse some =>
      have arrived : ReflTransGen (fun a c => c ∈ g.successors a) g.entry v := by
        by_contra none
        exact some (reached.mpr none)
      have passes : on v = false → off v = false →
          AbsIntLite.input g d (floodValue g on off) v = floodValue g on off v := by
        intro notOn notOff
        refine flag_ext ?_ ?_
        · rw [wet,floodValue_yes,flooded_iff lawful notOn notOff]
        · rw [reached,floodValue_bottom]
      rw [floods.update]
      cases inner : isEnd v with
      | true =>
        have notOn : on v = false := by
          by_contra mark
          rw [floods.on_inner v (by simpa using mark)] at inner
          cases inner
        have notOff : off v = false := by
          by_contra mark
          rw [floods.off_inner v (by simpa using mark)] at inner
          cases inner
        rw [if_pos rfl]
        exact passes notOn notOff
      | false =>
        rw [if_neg (by decide)]
        cases cut : off v with
        | true =>
          rw [if_pos rfl]
          refine flag_ext (iff_of_false (by decide) fun yes => ?_) ?_
          · have notOff := flooded_not_off (floodValue_yes.mp yes)
            rw [cut] at notOff
            cases notOff
          · exact iff_of_false (by decide) fun none => floodValue_bottom.mp none arrived
        | false =>
          rw [if_neg (by decide)]
          cases mark : on v with
          | true =>
            rw [if_pos rfl]
            exact (floodValue_yes.mpr ⟨v,mark,cut,arrived,.refl⟩).symm
          | false =>
            rw [if_neg (by decide)]
            exact passes mark cut

private theorem yes_of_flooded (lawful : AbsIntLite.Lawful g d) (floods : Floods isEnd on off d)
    (entryEnd : isEnd g.entry = true) {vals : Fin n → Flag}
    (solves : ∀ v, AbsIntLite.transfer g d vals v = vals v) (flooded : Flooded g on off v) : vals v = .yes := by
  have live : ∀ v, ReflTransGen (fun a c => c ∈ g.successors a) g.entry v → vals v ≠ ⊥ := by
    intro v reached
    induction reached with
    | refl =>
      rw [← solves,AbsIntLite.transfer,if_pos rfl]
      exact lawful.initial
    | tail _ next ih =>
      rw [← solves,AbsIntLite.transfer,if_neg fun entry => lawful.first _ (entry ▸ next)]
      have some : AbsIntLite.input g d vals _ ≠ ⊥ :=
        fun none => ih ((input_eq_bottom lawful).mp none _ ((lawful.converse _ _).mpr next))
      rw [if_neg some]
      exact lawful.live _ _ some
  obtain ⟨s,mark,start,before,path⟩ := flooded
  induction path with
  | refl =>
    have alive := live s before
    have inner := floods.on_inner s mark
    have differ : s ≠ g.entry := by
      rintro rfl
      rw [entryEnd] at inner
      cases inner
    rw [← solves,AbsIntLite.transfer,if_neg differ] at alive ⊢
    split
    case isTrue none => exact absurd (if_pos none) alive
    case isFalse => rw [floods.update,inner,start,mark]; rfl
  | @tail p c _ next ih =>
    have wet : AbsIntLite.input g d vals c = .yes :=
      (input_eq_yes lawful).mpr ⟨p,(lawful.converse p c).mpr next.1,ih⟩
    have differ : c ≠ g.entry := by
      rintro rfl
      exact lawful.first p next.1
    rw [← solves,AbsIntLite.transfer,if_neg differ,wet,if_neg (by decide),floods.update,next.2]
    split
    · rfl
    rw [if_neg (by decide)]
    split
    · rfl
    · rfl

/-- A flood ends, and it comes to the blocks that neither mark it nor cut it by the right paths. -/
theorem flood_spec (lawful : AbsIntLite.Lawful g d) (floods : Floods isEnd on off d) (entryEnd : isEnd g.entry = true) :
    ∃ s, AbsIntLite.process g d (turns n) = some s ∧ ∀ v, on v = false → off v = false →
      (AbsIntLite.input g d s.vals v = .yes ↔ Flooded g on off v) := by
  obtain ⟨s,done,solves,least⟩ := AbsIntLite.process_spec lawful rank_lt (le_refl (turns n))
  refine ⟨s,done,fun v notOn notOff => ?_⟩
  rw [input_eq_yes lawful,flooded_iff lawful notOn notOff]
  refine exists_congr fun p => and_congr_right fun _ => ⟨fun yes => ?_,yes_of_flooded lawful floods entryEnd solves⟩
  have below := least _ (floodValue_solves lawful floods entryEnd) p
  rw [yes] at below
  exact floodValue_yes.mp (le_antisymm (Flag.le_yes _) below)

end Flood

section Kept
variable {cfg : FlatCFG n m} {start : Nat} {stops : List Nat}

private theorem start_inner (bb : Fin n) (mark : (cfg.mark start stops).isStart bb = true) : cfg.isEnd bb = false := by
  have held : cfg.holds bb start = true := mark
  simp only [FlatCFG.holds,Bool.and_eq_true,Bool.not_eq_true'] at held
  exact held.1

private theorem stop_inner (bb : Fin n) (mark : (cfg.mark start stops).isStop bb = true) : cfg.isEnd bb = false := by
  obtain ⟨stop,-,held⟩ := List.any_eq_true.mp mark
  simp only [FlatCFG.holds,Bool.and_eq_true,Bool.not_eq_true'] at held
  exact held.1

variable (cfg start stops) in
private theorem forward_lawful : AbsIntLite.Lawful cfg.forward (StartDomain (cfg.mark start stops)) := by
  refine floods_lawful (startDomain_floods start_inner stop_inner) (fun a b => ?_) (fun a member => ?_)
  · exact cfg.mem_predecessors.trans cfg.mem_successors.symm
  · obtain ⟨e,-,-,target⟩ := cfg.mem_successors.mp member
    exact cfg.entry_first e target

variable (cfg start stops) in
private theorem backward_lawful : AbsIntLite.Lawful cfg.backward (StopDomain (cfg.mark start stops)) := by
  refine floods_lawful (stopDomain_floods start_inner stop_inner) (fun a b => ?_) (fun a member => ?_)
  · exact cfg.mem_successors.trans cfg.mem_predecessors.symm
  · obtain ⟨e,-,source,-⟩ := cfg.mem_predecessors.mp member
    exact cfg.exit_last e source

private theorem flooded_forward (marks : Marks n) (b : Fin n) :
    Flooded cfg.forward marks.isStart marks.isStop b ↔ FloodedFromStart cfg marks b := by
  have next : ∀ a c, c ∈ cfg.forward.successors a ↔ cfg.Flow a c := fun _ _ => cfg.mem_successors
  simp only [Flooded,FloodedFromStart,next]
  rfl

private theorem flooded_backward (marks : Marks n) (b : Fin n) :
    Flooded cfg.backward marks.isStop marks.isStart b ↔ FloodedFromStop cfg marks b := by
  have next : ∀ a c, c ∈ cfg.backward.successors a ↔ cfg.Flow c a := fun _ _ => cfg.mem_predecessors
  have whole : ∀ t, ReflTransGen (fun a c => cfg.Flow c a) cfg.exit t ↔ ReflTransGen cfg.Flow t cfg.exit :=
    fun _ => Relation.reflTransGen_swap
  have around : ∀ t, ReflTransGen (fun a c => cfg.Flow c a ∧ marks.isStart c = false) t b ↔
      ReflTransGen (fun a c => cfg.Flow a c ∧ marks.isStart a = false) b t := by
    intro t
    exact Relation.reflTransGen_swap
  simp only [Flooded,FloodedFromStop,next]
  refine exists_congr fun t => and_congr_right fun _ => and_congr_right fun _ => and_congr (whole t) (around t)

/-- The blocks of the virtual graph. -/
def Kept (cfg : FlatCFG n m) (marks : Marks n) (b : Fin n) : Prop :=
  marks.isEnd b = false ∧ (marks.isStart b = true ∨ marks.isStop b = true ∨
    FloodedFromStart cfg marks b ∧ FloodedFromStop cfg marks b)

theorem processWorkSpace_spec {cfg : FlatCFG n m} {given start : Nat} (stops : List Nat)
    (fixed : cfg.fixStart given = some start) :
    ∃ (v : VirtualCFG n) (orgs : List (Fin n)), processWorkSpace cfg given stops = some v ∧
      v.edges = orgs.flatMap (virtualEdges cfg (cfg.mark start (cfg.fixStops stops)) orgs) ∧
      ∀ b, b ∈ orgs ↔ Kept cfg (cfg.mark start (cfg.fixStops stops)) b := by
  obtain ⟨s,forth,fromStart⟩ := flood_spec (forward_lawful cfg start (cfg.fixStops stops))
    (startDomain_floods start_inner stop_inner) (by simp [FlatCFG.mark,FlatCFG.isEnd,FlatCFG.forward])
  obtain ⟨t,back,fromStop⟩ := flood_spec (backward_lawful cfg start (cfg.fixStops stops))
    (stopDomain_floods start_inner stop_inner) (by simp [FlatCFG.mark,FlatCFG.isEnd,FlatCFG.backward])
  simp only [flooded_forward] at fromStart
  simp only [flooded_backward] at fromStop
  let kept := orgs cfg (cfg.mark start (cfg.fixStops stops)) s.vals t.vals
  refine ⟨⟨[.entry] ++ kept.map .block ++ [.exit],
    kept.flatMap (virtualEdges cfg (cfg.mark start (cfg.fixStops stops)) kept)⟩,kept,?_,rfl,fun b => ?_⟩
  · simp only [processWorkSpace,fixed,Option.bind_eq_bind,Option.bind_some,forth,back]
    rfl
  · show b ∈ orgs cfg (cfg.mark start (cfg.fixStops stops)) s.vals t.vals ↔ _
    rw [orgs,List.mem_filter]
    simp only [CFG.mem_blocks,true_and,Bool.and_eq_true,Bool.not_eq_true',Bool.or_eq_true,beq_iff_eq,Kept,or_assoc]
    refine and_congr_right fun _ => ?_
    cases begin_ : (cfg.mark start (cfg.fixStops stops)).isStart b with
    | true => simp
    | false =>
      cases end_ : (cfg.mark start (cfg.fixStops stops)).isStop b with
      | true => simp
      | false => rw [fromStart b begin_ end_,fromStop b end_ begin_]

end Kept

section Reading
variable {cfg : FlatCFG n m} {marks : Marks n} {orgs : List (Fin n)} {v : VirtualCFG n}

private theorem mem_virtualEdges {src : Fin n} {edge : VirtualEdge n} :
    edge ∈ virtualEdges cfg marks orgs src ↔
      marks.isStart src = true ∧ edge = ⟨.entry,.block src,.virtualCall⟩ ∨
      marks.isStop src = true ∧ edge = ⟨.block src,.exit,.virtualReturn⟩ ∨
      marks.isStop src = false ∧ ∃ e, cfg.source e = src ∧ cfg.target e ∈ orgs ∧
        edge = ⟨.block src,.block (cfg.target e),cfg.kind e⟩ := by
  unfold virtualEdges
  rw [List.mem_append]
  refine or_congr ?_ ?_
  · split <;> simp_all
  · cases stop : marks.isStop src with
    | true => simp
    | false =>
      simp only [Bool.false_eq_true,if_false,List.mem_filterMap,CFG.mem_outs,false_and,true_and,false_or]
      refine exists_congr fun e => and_congr_right fun _ => ?_
      simp only [List.contains_iff_mem]
      split
      case isTrue inside => simp only [inside,true_and,Option.some.injEq,eq_comm]
      case isFalse outside => simp only [outside,false_and,reduceCtorEq]

variable (made : v.edges = orgs.flatMap (virtualEdges cfg marks orgs))
include made

private theorem link_start {b : Fin n} :
    v.graph.link .entry (.block b) ↔ b ∈ orgs ∧ marks.isStart b = true := by
  simp only [VirtualCFG.graph,made,List.mem_flatMap,mem_virtualEdges]
  constructor
  · rintro ⟨kind,src,member,⟨mark,same⟩ | ⟨-,same⟩ | ⟨-,e,-,-,same⟩⟩
    · cases same; exact ⟨member,mark⟩
    · cases same
    · cases same
  · rintro ⟨member,mark⟩
    exact ⟨_,b,member,Or.inl ⟨mark,rfl⟩⟩

private theorem link_stop {b : Fin n} : v.graph.link (.block b) .exit ↔ b ∈ orgs ∧ marks.isStop b = true := by
  simp only [VirtualCFG.graph,made,List.mem_flatMap,mem_virtualEdges]
  constructor
  · rintro ⟨kind,src,member,⟨-,same⟩ | ⟨mark,same⟩ | ⟨-,e,-,-,same⟩⟩
    · cases same
    · cases same; exact ⟨member,mark⟩
    · cases same
  · rintro ⟨member,mark⟩
    exact ⟨_,b,member,Or.inr (Or.inl ⟨mark,rfl⟩)⟩

private theorem link_block {a b : Fin n} :
    v.graph.link (.block a) (.block b) ↔ a ∈ orgs ∧ marks.isStop a = false ∧ b ∈ orgs ∧ cfg.Flow a b := by
  simp only [VirtualCFG.graph,made,List.mem_flatMap,mem_virtualEdges]
  constructor
  · rintro ⟨kind,src,member,⟨-,same⟩ | ⟨-,same⟩ | ⟨go,e,source,inside,same⟩⟩
    · cases same
    · cases same
    · cases same
      exact ⟨member,go,inside,e,cfg.no_call e,source,rfl⟩
  · rintro ⟨member,go,inside,e,-,source,target⟩
    subst target
    exact ⟨_,a,member,Or.inr (Or.inr ⟨go,e,source,inside,rfl⟩)⟩

private theorem link_entry {a : VirtualBlock n} : ¬v.graph.link a .entry := by
  simp only [VirtualCFG.graph,made,List.mem_flatMap,mem_virtualEdges]
  rintro ⟨kind,src,member,⟨-,same⟩ | ⟨-,same⟩ | ⟨-,e,-,-,same⟩⟩ <;> cases same

private theorem link_exit {a : VirtualBlock n} : ¬v.graph.link .exit a := by
  simp only [VirtualCFG.graph,made,List.mem_flatMap,mem_virtualEdges]
  rintro ⟨kind,src,member,⟨-,same⟩ | ⟨-,same⟩ | ⟨-,e,-,-,same⟩⟩ <;> cases same

private theorem link_end : ¬v.graph.link .entry .exit := by
  simp only [VirtualCFG.graph,made,List.mem_flatMap,mem_virtualEdges]
  rintro ⟨kind,src,member,⟨-,same⟩ | ⟨-,same⟩ | ⟨-,e,-,-,same⟩⟩ <;> cases same

private theorem reads_block {b : Fin n} {path : List (Fin n)} :
    v.graph.Reads (.block b) path ↔
      ToStop cfg marks path ∧ path.head? = some b ∧ ∀ x ∈ path, x ∈ orgs := by
  constructor
  · intro reads
    generalize here : VirtualBlock.block b = from' at reads
    induction reads generalizing b with
    | exit => cases here
    | @step a c read next rest ih =>
      subst here
      show ToStop cfg marks (b :: read) ∧ _
      cases c with
      | entry => exact absurd next (link_entry made)
      | exit =>
        obtain ⟨member,stop⟩ := (link_stop made).mp next
        cases rest with
        | exit => exact ⟨.stop stop,rfl,List.forall_mem_singleton.mpr member⟩
        | step next => exact absurd next (link_exit made)
      | block c =>
        obtain ⟨member,go,-,flow⟩ := (link_block made).mp next
        obtain ⟨toStop,head,inside⟩ := ih rfl
        obtain ⟨tail,rfl⟩ := List.head?_eq_some_iff.mp head
        exact ⟨.step go flow toStop,rfl,List.forall_mem_cons.mpr ⟨member,inside⟩⟩
  · rintro ⟨toStop,head,inside⟩
    induction toStop generalizing b with
    | @stop t mark =>
      cases head
      exact .step ((link_stop made).mpr ⟨inside t List.mem_cons_self,mark⟩) .exit
    | @step a c path go flow _ ih =>
      cases head
      obtain ⟨member,rest⟩ := List.forall_mem_cons.mp inside
      exact .step ((link_block made).mpr ⟨member,go,rest c List.mem_cons_self,flow⟩) (ih rfl rest)

theorem language_iff {path : List (Fin n)} :
    v.graph.Language path ↔ SubPath cfg marks path ∧ ∀ x ∈ path, x ∈ orgs := by
  constructor
  · rintro (_ | ⟨next,rest⟩)
    rename_i b read
    cases b with
    | entry => exact absurd next (link_entry made)
    | exit => exact absurd next (link_end made)
    | block b =>
      obtain ⟨toStop,head,inside⟩ := (reads_block made).mp rest
      obtain ⟨tail,rfl⟩ := List.head?_eq_some_iff.mp head
      exact ⟨⟨⟨b,tail,rfl,((link_start made).mp next).2⟩,toStop⟩,inside⟩
  · rintro ⟨⟨⟨b,tail,rfl,mark⟩,toStop⟩,inside⟩
    exact .step ((link_start made).mpr ⟨inside b List.mem_cons_self,mark⟩)
      ((reads_block made).mpr ⟨toStop,rfl,inside⟩)

end Reading

def Exact (cfg : FlatCFG n m) (start : Nat) (stops : List Nat) : Prop :=
  ∃ v, processWorkSpace cfg start stops = some v ∧
    ∀ path, v.graph.Language path ↔ SubPath cfg (cfg.mark start (cfg.fixStops stops)) path

private theorem toStop_inner {cfg : FlatCFG n m} {start : Nat} {stops : List Nat} {path : List (Fin n)}
    (toStop : ToStop cfg (cfg.mark start stops) path) (first : ∀ b, path.head? = some b → b ≠ cfg.entry) :
    ∀ b ∈ path, (cfg.mark start stops).isEnd b = false := by
  induction toStop with
  | @stop t mark =>
    intro b member
    rw [List.mem_singleton.mp member]
    exact stop_inner t mark
  | @step a c path _ flow _ ih =>
    obtain ⟨e,-,source,target⟩ := flow
    refine List.forall_mem_cons.mpr ⟨?_,ih fun b head => ?_⟩
    · have notEntry := first a rfl
      have notExit : a ≠ cfg.exit := source ▸ cfg.exit_last e
      simp [FlatCFG.mark,FlatCFG.isEnd,notEntry,notExit]
    · cases head
      exact target ▸ cfg.entry_first e

/-- Each inner block of the path is reached around the stops from a start block that the
    entry reaches, and reaches around the start a stop block that reaches the exit. -/
def Covered (cfg : FlatCFG n m) (marks : Marks n) (path : List (Fin n)) : Prop :=
  ∀ b ∈ path, marks.isStart b = false → marks.isStop b = false →
    FloodedFromStart cfg marks b ∧ FloodedFromStop cfg marks b

private theorem kept_iff {cfg : FlatCFG n m} {start : Nat} {stops : List Nat} {path : List (Fin n)}
    (sub : SubPath cfg (cfg.mark start stops) path) :
    (∀ b ∈ path, Kept cfg (cfg.mark start stops) b) ↔ Covered cfg (cfg.mark start stops) path := by
  constructor
  · intro kept b member notStart notStop
    obtain ⟨-,mark | mark | both⟩ := kept b member
    · rw [notStart] at mark; cases mark
    · rw [notStop] at mark; cases mark
    · exact both
  · intro flooded b member
    refine ⟨?_,?_⟩
    · obtain ⟨⟨s,rest,rfl,mark⟩,toStop⟩ := sub
      refine toStop_inner toStop (fun c head entry => ?_) b member
      cases head
      have inner := start_inner s mark
      rw [entry] at inner
      simp [FlatCFG.isEnd] at inner
    · cases begin_ : (cfg.mark start stops).isStart b with
      | true => exact Or.inl rfl
      | false =>
        cases end_ : (cfg.mark start stops).isStop b with
        | true => exact Or.inr (Or.inl rfl)
        | false => exact Or.inr (Or.inr (flooded b member begin_ end_))

private theorem exact_fixed {cfg : FlatCFG n m} {given start : Nat} (stops : List Nat)
    (fixed : cfg.fixStart given = some start) :
    Exact cfg given stops ↔ ∀ path,
      (SubPath cfg (cfg.mark start (cfg.fixStops stops)) path ∧ Covered cfg (cfg.mark start (cfg.fixStops stops)) path) ↔
        SubPath cfg (cfg.mark given (cfg.fixStops stops)) path := by
  obtain ⟨v,orgs,done,made,kept⟩ := processWorkSpace_spec stops fixed
  have language (path : List (Fin n)) : v.graph.Language path ↔
      SubPath cfg (cfg.mark start (cfg.fixStops stops)) path ∧ Covered cfg (cfg.mark start (cfg.fixStops stops)) path := by
    rw [language_iff made]
    refine and_congr_right fun sub => ?_
    rw [← kept_iff sub]
    exact forall₂_congr fun b _ => kept b
  simp only [Exact,done,Option.some.injEq,exists_eq_left',language]

private theorem toStop_start {cfg : FlatCFG n m} {start other : Nat} {stops : List Nat} {path : List (Fin n)}
    (toStop : ToStop cfg (cfg.mark start stops) path) : ToStop cfg (cfg.mark other stops) path := by
  induction toStop with
  | stop mark => exact .stop mark
  | step go flow _ ih => exact .step go flow ih

/-- The virtual graph has exactly the paths from the start to the stops when the inner blocks
    of such a path are reached by both floods. The start 0 is replaced: then, of the paths to
    a stop, those from a block at 0 must be those from the block after the entry. -/
theorem sub_paths_iff (cfg : FlatCFG n m) (start : Nat) (stops : List Nat) :
    Exact cfg start stops ↔
      start ≠ 0 ∧ (∀ path, SubPath cfg (cfg.mark start (cfg.fixStops stops)) path →
        Covered cfg (cfg.mark start (cfg.fixStops stops)) path) ∨
      start = 0 ∧ ∃ first, cfg.fixStart 0 = some first ∧ ∀ path, ToStop cfg (cfg.mark first (cfg.fixStops stops)) path →
        (FromStart (cfg.mark first (cfg.fixStops stops)) path ∧ Covered cfg (cfg.mark first (cfg.fixStops stops)) path ↔
          FromStart (cfg.mark 0 (cfg.fixStops stops)) path) := by
  by_cases zero : start = 0
  · subst zero
    simp only [ne_eq,not_true_eq_false,false_and,false_or,true_and]
    cases fixed : cfg.fixStart 0 with
    | none =>
      refine iff_of_false ?_ (by simp)
      rintro ⟨v,done,-⟩
      simp [processWorkSpace,fixed] at done
    | some first =>
      simp only [Option.some.injEq,exists_eq_left']
      rw [exact_fixed stops fixed]
      refine forall_congr' fun path => ?_
      by_cases toStop : ToStop cfg (cfg.mark first (cfg.fixStops stops)) path
      · have toStop0 : ToStop cfg (cfg.mark 0 (cfg.fixStops stops)) path := toStop_start toStop
        simp only [SubPath,toStop,toStop0,and_true,true_implies]
      · have toStop0 : ¬ ToStop cfg (cfg.mark 0 (cfg.fixStops stops)) path := fun path => toStop (toStop_start path)
        simp only [SubPath,toStop,toStop0,and_false,false_and,false_implies]
  · have fixed : cfg.fixStart start = some start := by rw [FlatCFG.fixStart,if_neg zero]
    simp only [zero,ne_eq,not_false_eq_true,false_and,or_false,true_and]
    rw [exact_fixed stops fixed]
    exact forall_congr' fun path => and_iff_left_iff_imp

attribute [local instance] Cfg.neZero_six

def loopCFG : FlatCFG 6 6 where
  entry := 0
  exit := 5
  source := ![0,1,2,3,2,4]
  target := ![1,2,3,2,4,5]
  kind _ := .none
  address b := 4 * b
  size _ := 4
  no_call := by decide
  entry_first := by decide
  exit_last := by decide

/-- From block 2 to block 4, the turn of the loop is lost: block 3 reaches block 4 only through
    block 2. -/
theorem loop_lost : ¬∀ (n m : Nat) (cfg : FlatCFG n m) (start : Nat) (stops : List Nat),
    (∃ bb, cfg.holds bb start = true) → (∀ stop ∈ stops, ∃ bb, cfg.holds bb stop = true) → stops ≠ [] →
    (∀ bb, ¬(cfg.holds bb start = true ∧ ∃ stop ∈ stops, cfg.holds bb stop = true)) →
    Exact cfg start stops := by
  intro all
  obtain ⟨v,done,exact_⟩ := all 6 6 loopCFG 8 [16] (by decide) (by decide) (by decide) (by decide)
  obtain ⟨v',orgs,done',made,kept⟩ := processWorkSpace_spec [16] (show loopCFG.fixStart 8 = some 8 from rfl)
  rw [done] at done'
  cases done'
  have path : SubPath loopCFG (loopCFG.mark 8 (loopCFG.fixStops [16])) [2,3,2,4] := by
    refine ⟨⟨2,_,rfl,by decide⟩,.step (by decide) ⟨2,by decide,rfl,rfl⟩ (.step (by decide) ⟨3,by decide,rfl,rfl⟩
      (.step (by decide) ⟨4,by decide,rfl,rfl⟩ (.stop (by decide))))⟩
  have inside := ((language_iff made).mp ((exact_ _).mpr path)).2 3 (by decide)
  obtain ⟨-,mark | mark | ⟨-,t,stop,notStart,-,reach⟩⟩ := (kept 3).mp inside
  · exact absurd mark (by decide)
  · exact absurd mark (by decide)
  · -- from block 3, the flood cannot pass block 2
    have stuck : ∀ c, ReflTransGen (fun a c => loopCFG.Flow a c ∧
        (loopCFG.mark 8 (loopCFG.fixStops [16])).isStart a = false) 3 c → c = 3 ∨ c = 2 := by
      intro c path
      induction path with
      | refl => exact Or.inl rfl
      | tail _ next ih =>
        obtain ⟨⟨e,-,source,target⟩,passes⟩ := next
        rcases ih with rfl | rfl
        · right
          subst target
          revert e
          decide
        · exact absurd passes (by decide)
    rcases stuck t reach with rfl | rfl
    · exact absurd stop (by decide)
    · exact absurd stop (by decide)

end Otawa.SubCFG
