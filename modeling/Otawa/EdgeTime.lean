import Otawa.EventConfigs
import Mathlib.Algebra.Order.BigOperators.Group.List
import Mathlib.Tactic.Linarith

/-!
`EdgeTimeBuilder::processEdge`: the configurations of the events of an edge are grouped by
time, the groups are split in low and high times at the position of the least expected cost,
and the ILP gets the low time by crossing and the time of the last group by crossing counted
in `x_hts`. The groups are never sorted by time, and a crossing of high time may be out of
reach of `x_hts`: the bound is safe only for tables where neither matters (`safe_iff`).
-/
namespace Otawa.Etime
open Otawa.GenVector

/-! ### The ILP of an edge -/

/-- What the builder asks of an event: its weight, and whether it estimates its occurrences
    (`true`) or its absences (`false`). -/
structure Event where
  weight : Int
  isEstimating : Bool → Bool

/-- The variables: the edge, `x_hts` and the numbers of occurrences or absences of an event. -/
inductive Var where
  | edge
  | hts
  | event (i : Nat) (on : Bool)
  deriving DecidableEq

abbrev Term := Int × Var

inductive Comparator where
  | le
  | ge
  deriving DecidableEq

structure Constraint where
  left : List Term
  comp : Comparator
  right : List Term
  deriving DecidableEq

structure System where
  objective : List Term
  constraints : List Constraint
  deriving DecidableEq

def value (v : Var → Int) (terms : List Term) : Int := (terms.map fun term => term.1 * v term.2).sum

def Constraint.Holds (c : Constraint) (v : Var → Int) : Prop :=
  match c.comp with
  | .le => value v c.left ≤ value v c.right
  | .ge => value v c.right ≤ value v c.left

/-- `Event::estimate`: the variable of the event, when it estimates this case. -/
def Event.estimate (e : Event) (i : Nat) (on : Bool) : List Term :=
  if e.isEstimating on then [(1,.event i on)] else []

/-- `type_info<ot::time>::max`. -/
def maxTime : Int := 2 ^ 63 - 1

/-- The masks of `n` events, in the order of the loop of `processEdge`. -/
def masks (n : Nat) : List Config := (List.range (2 ^ n)).map (BitVec.ofNat 32)

/-- The configuration joins the first group of its time, or starts a group after the `before`
    groups passed. -/
def addTime (cost : Int) (c : Config) (before : Nat) : List ConfigSet → Option (List ConfigSet)
  | [] => do
    let started ← (ConfigSet.mk cost []).add c
    if before < vectorLimit then some [started] else none
  | g :: confs =>
    if g.t = cost then (g.add c).map fun g => g :: confs
    else (addTime cost c (before + 1) confs).map fun confs => g :: confs

/-- The loop of `processEdge` on the masks. -/
def groups (cost : Config → Int) (n : Nat) : Option (List ConfigSet) :=
  (masks n).foldlM (fun confs c => addTime (cost c) c 0 confs) []

/-- The expected cost of a split in `applyWeightedSplit`. -/
def splitCost (events : List Event) (weight : Int) (found : Scan) (top low : Int) : Int :=
  let x_hts := events.zipIdx.foldl (fun x e => if hasBit found.comp e.2 then x + e.1.weight else x) 0
  let x_hts := events.zipIdx.foldl (fun x e => if hasBit found.pos e.2 then max x e.1.weight else x) x_hts
  let x_hts := if x_hts > weight then weight else x_hts
  x_hts * top + (weight - x_hts) * low

/-- The variables of the loop of `applyWeightedSplit`. -/
structure Search where
  set : ConfigSet
  best_p : Nat
  best_cost : Int

/-- The turn of position `p`. -/
def tryPosition (events : List Event) (weight : Int) (confs : List ConfigSet) (top : ConfigSet)
    (s : Search) (p : Nat) : Option Search := do
  let low ← confs[p - 1]?
  let set := s.set.pop low
  let cost := splitCost events weight (set.scan events.length) top.t low.t
  if cost < s.best_cost then some { set := set, best_p := p, best_cost := cost }
  else some { s with set := set }

/-- The two times of the split and its high time set. -/
structure Split where
  hts : ConfigSet
  lts_time : Int
  hts_time : Int

/-- `makeSplit`; at position 0 there is no group before the split. -/
def makeSplit (confs : List ConfigSet) (p : Nat) : Option Split := do
  let low ← if p = 0 then none else confs[p - 1]?
  let top ← confs.getLast?
  let hts ← (confs.drop p).foldlM ConfigSet.push ⟨top.t,[]⟩
  some { hts := hts, lts_time := low.t, hts_time := top.t }

/-- The constraint of the collector of an event on `x_hts`, if the event estimates this case. -/
def eventConstraint (e : Event) (i : Nat) (on : Bool) : List Constraint :=
  if e.isEstimating on then [⟨e.estimate i on,.ge,[(1,.hts)]⟩] else []

def contributeSplit (events : List Event) (pos neg com : Word) (lts_time hts_time : Int) : System where
  objective := [(lts_time,.edge),(hts_time - lts_time,.hts)]
  constraints :=
    [⟨[],.le,[(1,.hts)]⟩,⟨[(1,.hts)],.le,[(1,.edge)]⟩] ++
    (events.zipIdx.flatMap fun e =>
      if hasBit pos e.2 then eventConstraint e.1 e.2 true
      else if hasBit neg e.2 then eventConstraint e.1 e.2 false
      else []) ++
    if com ≠ 0 then
      [⟨events.zipIdx.flatMap fun e => if hasBit com e.2 then e.1.estimate e.2 true else [],.ge,[(1,.hts)]⟩]
    else []

def applyWeightedSplit (events : List Event) (weight : Int) (confs : List ConfigSet) : Option System := do
  let top ← confs.getLast?
  let set ← confs.reverse.foldlM ConfigSet.push ⟨0,[]⟩
  let search ← (List.range' 1 (confs.length - 1)).foldlM (tryPosition events weight confs top)
    { set := set, best_p := 0, best_cost := maxTime }
  let split ← makeSplit confs search.best_p
  let found := split.hts.scan events.length
  some (contributeSplit events found.pos found.neg found.comp split.lts_time split.hts_time)

def genForOneCost (cost : Int) : System := { objective := [(cost,.edge)], constraints := [] }

/-- `processEdge`, for events that occur sometimes, with the time of each configuration. -/
def processEdge (events : List Event) (weight : Int) (cost : Config → Int) : Option System :=
  if 32 ≤ events.length then none
  else if events.isEmpty then some (genForOneCost (cost 0))
  else do
    let confs ← groups cost events.length
    match confs with
    | [g] => some (genForOneCost g.t)
    | confs => applyWeightedSplit events weight confs

/-- The crossings of the edge in an execution, by the configuration of the events, and how
    often the events occur, or not, elsewhere. -/
structure Execution (n : Nat) where
  crossings : List Config
  elsewhere : Nat → Bool → Nat
  valid : ∀ c ∈ crossings, c ∈ masks n

namespace Execution
variable {n : Nat} (x : Execution n)

def occurrences (i : Nat) (on : Bool) : Nat :=
  x.crossings.countP (fun c => c.getLsbD i == on) + x.elsewhere i on

/-- The exact values of the variables, with a choice of `x_hts`. -/
def valuation (x_hts : Int) : Var → Int
  | .edge => x.crossings.length
  | .hts => x_hts
  | .event i on => x.occurrences i on

def time (cost : Config → Int) : Int := (x.crossings.map cost).sum

end Execution

/-- The system bounds the time of the execution by some value of `x_hts`. -/
def Bounded {n : Nat} (sys : System) (cost : Config → Int) (x : Execution n) : Prop :=
  ∃ x_hts : Int, (∀ c ∈ sys.constraints, c.Holds (x.valuation x_hts)) ∧
    x.time cost ≤ value (x.valuation x_hts) sys.objective

def Safe (events : List Event) (weight : Int) (cost : Config → Int) : Prop :=
  ∃ sys, processEdge events weight cost = some sys ∧
    ∀ x : Execution events.length, Bounded sys cost x

def allConfs (sets : List ConfigSet) : List Config := sets.flatMap (·.confs)

theorem pushAll_fits (sets : List ConfigSet) (s : ConfigSet)
    (room : s.confs.length + (allConfs sets).length ≤ vectorLimit) :
    ∃ r, sets.foldlM ConfigSet.push s = some r ∧ r.confs = s.confs ++ allConfs sets := by
  induction sets generalizing s with
  | nil => exact ⟨s,rfl,by simp [allConfs]⟩
  | cons set sets ih =>
    have split : allConfs (set :: sets) = set.confs ++ allConfs sets := List.flatMap_cons
    rw [split,List.length_append] at room
    have first : s.push set = some ⟨max s.t set.t,s.confs ++ set.confs⟩ := by
      rw [ConfigSet.push,addAll_fits _ _ (by omega)]
      rfl
    obtain ⟨r,done,confs⟩ := ih ⟨max s.t set.t,s.confs ++ set.confs⟩
      (by rw [List.length_append]; omega)
    refine ⟨r,?_,by rw [confs,split,List.append_assoc]⟩
    rw [List.foldlM_cons,first]
    exact done

theorem pushAll_some {sets : List ConfigSet} {s r : ConfigSet} (within : s.confs.length ≤ vectorLimit)
    (done : sets.foldlM ConfigSet.push s = some r) :
    r.confs = s.confs ++ allConfs sets ∧ r.confs.length ≤ vectorLimit := by
  induction sets generalizing s with
  | nil =>
    rw [List.foldlM_nil] at done
    cases done
    exact ⟨by simp [allConfs],within⟩
  | cons set sets ih =>
    rw [List.foldlM_cons] at done
    obtain ⟨next,pushed,rest⟩ := Option.bind_eq_some_iff.mp done
    obtain ⟨confs,added,rfl⟩ := Option.map_eq_some_iff.mp pushed
    obtain ⟨same,room⟩ := addAll_some within added
    obtain ⟨result,small⟩ := ih room rest
    refine ⟨?_,small⟩
    rw [result]
    dsimp only
    rw [same,List.append_assoc]
    rfl

theorem pop_confs (s set : ConfigSet) (before : List Config) {last : List Config}
    (confs : s.confs = before ++ last) (size : last.length = set.confs.length) :
    (s.pop set).confs = before := by
  have drops : ∀ (l last : List Config), last.length = l.length →
      l.foldl (fun confs _ => confs.dropLast) (before ++ last) = before := by
    intro l
    induction l with
    | nil =>
      intro last size
      rw [List.length_nil,List.length_eq_zero_iff] at size
      rw [size,List.foldl_nil,List.append_nil]
    | cons c l ih =>
      intro last size
      have some : last ≠ [] := by
        rintro rfl
        exact absurd size (by simp)
      rw [List.foldl_cons,List.dropLast_append_of_ne_nil some]
      exact ih _ (by rw [List.length_dropLast,size,List.length_cons,Nat.add_sub_cancel])
  show set.confs.foldl (fun confs _ => confs.dropLast) s.confs = before
  rw [confs]
  exact drops _ _ size

theorem length_allConfs_drop (sets : List ConfigSet) (p : Nat) :
    (allConfs (sets.drop p)).length ≤ (allConfs sets).length := by
  have whole : allConfs sets = allConfs (sets.take p) ++ allConfs (sets.drop p) := by
    rw [allConfs,allConfs,allConfs,← List.flatMap_append,List.take_append_drop]
  rw [whole,List.length_append]
  exact Nat.le_add_left _ _

/-! ### The groups -/

section Groups
variable (cost : Config → Int)

/-- The times of the configurations, in the order of their first occurrence. -/
def timesOf (confs : List Config) : List Int := (confs.map cost).eraseDups

def groupOf (confs : List Config) (t : Int) : ConfigSet := ⟨t,confs.filter fun c => cost c = t⟩

variable {cost}
variable {confs : List Config} {c : Config}

theorem mem_timesOf {t : Int} : t ∈ timesOf cost confs ↔ ∃ c ∈ confs, cost c = t := by
  rw [timesOf,List.mem_eraseDups,List.mem_map]

theorem timesOf_concat (confs : List Config) (c : Config) :
    timesOf cost (confs ++ [c]) =
      if cost c ∈ timesOf cost confs then timesOf cost confs else timesOf cost confs ++ [cost c] := by
  have member : cost c ∈ timesOf cost confs ↔ cost c ∈ confs.map cost := List.mem_eraseDups
  rw [timesOf,List.map_append,List.eraseDups_append,List.map_singleton]
  by_cases old : cost c ∈ timesOf cost confs
  · rw [if_pos old]
    have gone : [cost c].removeAll (confs.map cost) = [] := by
      simpa [List.removeAll] using member.mp old
    rw [gone]
    simp [timesOf]
  · rw [if_neg old]
    have kept : [cost c].removeAll (confs.map cost) = [cost c] := by
      rw [member] at old
      simpa [List.removeAll] using old
    rw [kept]
    simp [timesOf,List.eraseDups_cons]

theorem timesOf_nodup (confs : List Config) : (timesOf cost confs).Nodup := by
  induction confs using List.reverseRecOn with
  | nil => simp [timesOf]
  | append_singleton confs c ih =>
    rw [timesOf_concat]
    split
    case isTrue => exact ih
    case isFalse new => exact ih.append (List.nodup_singleton _) (by simpa using new)

theorem timesOf_length (confs : List Config) : (timesOf cost confs).length ≤ confs.length := by
  induction confs using List.reverseRecOn with
  | nil => simp [timesOf]
  | append_singleton confs c ih =>
    rw [timesOf_concat,List.length_append,List.length_singleton]
    split
    case isTrue => omega
    case isFalse =>
      rw [List.length_append,List.length_singleton]
      omega

private theorem groupOf_other {t : Int} (other : t ≠ cost c) :
    groupOf cost (confs ++ [c]) t = groupOf cost confs t := by
  simp [groupOf,List.filter_append,Ne.symm other]

private theorem groupOf_same (confs : List Config) (c : Config) :
    groupOf cost (confs ++ [c]) (cost c) = ⟨cost c,(groupOf cost confs (cost c)).confs ++ [c]⟩ := by
  simp [groupOf,List.filter_append]

private theorem map_groupOf_other {ts : List Int} (other : cost c ∉ ts) :
    ts.map (groupOf cost (confs ++ [c])) = ts.map (groupOf cost confs) := by
  apply List.map_congr_left
  intro t member
  apply groupOf_other
  rintro rfl
  exact other member

variable (cost) in
/-- The groups of some times, once `c` joins them. -/
private def joined (confs : List Config) (c : Config) (ts : List Int) : List ConfigSet :=
  (if cost c ∈ ts then ts else ts ++ [cost c]).map (groupOf cost (confs ++ [c]))

private theorem joined_cons {t : Int} {ts : List Int} (other : t ≠ cost c) :
    joined cost confs c (t :: ts) = groupOf cost confs t :: joined cost confs c ts := by
  unfold joined
  rw [← groupOf_other other]
  by_cases old : cost c ∈ ts
  · rw [if_pos old,if_pos (by simp [old]),List.map_cons]
  · rw [if_neg old,if_neg (by simp [old,Ne.symm other])]
    rfl

private theorem addTime_some {ts : List Int} (distinct : ts.Nodup)
    (empty : cost c ∉ ts → (groupOf cost confs (cost c)).confs = []) {k : Nat} {r : List ConfigSet}
    (done : addTime (cost c) c k (ts.map (groupOf cost confs)) = some r) : r = joined cost confs c ts := by
  induction ts generalizing k r with
  | nil =>
    have none := empty (by simp)
    rw [List.map_nil,addTime] at done
    obtain ⟨started,added,rest⟩ := Option.bind_eq_some_iff.mp done
    obtain ⟨list,grown,rfl⟩ := Option.map_eq_some_iff.mp added
    obtain ⟨rfl,-⟩ := add_some grown
    split at rest
    case isFalse => cases rest
    case isTrue =>
      cases rest
      rw [joined,if_neg (by simp)]
      show _ = [groupOf cost (confs ++ [c]) (cost c)]
      rw [groupOf_same,none]
  | cons t ts ih =>
    obtain ⟨fresh,distinct⟩ := List.nodup_cons.mp distinct
    rw [List.map_cons,addTime] at done
    split at done
    case isTrue same =>
      have time : t = cost c := same
      obtain ⟨g,added,rfl⟩ := Option.map_eq_some_iff.mp done
      obtain ⟨list,grown,rfl⟩ := Option.map_eq_some_iff.mp added
      obtain ⟨rfl,-⟩ := add_some grown
      rw [joined,if_pos (by simp [time]),List.map_cons,time,groupOf_same,map_groupOf_other (by rwa [← time])]
      rfl
    case isFalse differ =>
      have other : t ≠ cost c := differ
      obtain ⟨rest,deeper,rfl⟩ := Option.map_eq_some_iff.mp done
      have absent : cost c ∉ ts → cost c ∉ t :: ts := by
        intro out
        simp [out,Ne.symm other]
      rw [ih distinct (fun out => empty (absent out)) deeper,joined_cons other]

variable (cost) in
private theorem addTime_fits (room : confs.length < vectorLimit) (c : Config)
    (ts : List Int) {k : Nat} (few : k + ts.length < vectorLimit) :
    ∃ r, addTime (cost c) c k (ts.map (groupOf cost confs)) = some r := by
  have small : ∀ t, (groupOf cost confs t).confs.length < vectorLimit := by
    intro t
    exact Nat.lt_of_le_of_lt (List.length_filter_le _ _) room
  induction ts generalizing k with
  | nil =>
    have started : (ConfigSet.mk (cost c) []).add c = some ⟨cost c,[c]⟩ := by
      rw [ConfigSet.add,add_fits (by simp [vectorLimit])]
      rfl
    rw [List.map_nil,addTime,started]
    exact ⟨_,if_pos few⟩
  | cons t ts ih =>
    rw [List.map_cons,addTime]
    split
    case isTrue =>
      rw [ConfigSet.add,add_fits (small t)]
      exact ⟨_,rfl⟩
    case isFalse =>
      rw [List.length_cons] at few
      obtain ⟨r,done⟩ := @ih (k + 1) (by omega)
      rw [done]
      exact ⟨_,rfl⟩

private theorem addTime_within {t : Int} {confs r : List ConfigSet} {k : Nat}
    (within : ∀ g ∈ confs, g.confs.length ≤ vectorLimit) (done : addTime t c k confs = some r) :
    ∀ g ∈ r, g.confs.length ≤ vectorLimit := by
  have added : ∀ {g h : ConfigSet}, g.add c = some h → h.confs.length ≤ vectorLimit := by
    intro g h done
    obtain ⟨list,grown,rfl⟩ := Option.map_eq_some_iff.mp done
    exact (add_some grown).2
  induction confs generalizing k r with
  | nil =>
    rw [addTime] at done
    obtain ⟨started,first,rest⟩ := Option.bind_eq_some_iff.mp done
    split at rest
    case isFalse => cases rest
    case isTrue =>
      cases rest
      simpa using added first
  | cons g confs ih =>
    rw [List.forall_mem_cons] at within
    rw [addTime] at done
    split at done
    case isTrue =>
      obtain ⟨h,grown,rfl⟩ := Option.map_eq_some_iff.mp done
      exact List.forall_mem_cons.mpr ⟨added grown,within.2⟩
    case isFalse =>
      obtain ⟨rest,deeper,rfl⟩ := Option.map_eq_some_iff.mp done
      exact List.forall_mem_cons.mpr ⟨within.1,ih within.2 deeper⟩

def grouped (cost : Config → Int) (confs : List Config) : List ConfigSet :=
  (timesOf cost confs).map (groupOf cost confs)

private theorem grouped_concat (confs : List Config) (c : Config) :
    grouped cost (confs ++ [c]) = joined cost confs c (timesOf cost confs) := by
  rw [grouped,timesOf_concat,joined]

private theorem step_some {confs : List Config} {c : Config} {r : List ConfigSet}
    (done : addTime (cost c) c 0 (grouped cost confs) = some r) : r = grouped cost (confs ++ [c]) := by
  rw [grouped_concat]
  refine addTime_some (timesOf_nodup confs) ?_ done
  intro new
  rw [mem_timesOf] at new
  simpa [groupOf] using new

private theorem loop_some (rest confs : List Config) {r : List ConfigSet}
    (done : rest.foldlM (fun sets c => addTime (cost c) c 0 sets) (grouped cost confs) = some r) :
    r = grouped cost (confs ++ rest) := by
  induction rest generalizing confs with
  | nil =>
    rw [List.foldlM_nil] at done
    cases done
    rw [List.append_nil]
  | cons c rest ih =>
    rw [List.foldlM_cons] at done
    obtain ⟨next,first,others⟩ := Option.bind_eq_some_iff.mp done
    rw [step_some first] at others
    rw [ih _ others,List.append_assoc]
    rfl

variable (cost) in
private theorem loop_fits {rest : List Config} (confs : List Config) (room : (confs ++ rest).length ≤ vectorLimit) :
    ∃ r, rest.foldlM (fun sets c => addTime (cost c) c 0 sets) (grouped cost confs) = some r := by
  induction rest generalizing confs with
  | nil => exact ⟨_,rfl⟩
  | cons c rest ih =>
    have small : confs.length < vectorLimit := by
      rw [List.length_append,List.length_cons] at room
      omega
    have start : 0 + (timesOf cost confs).length < vectorLimit := by
      rw [Nat.zero_add]
      exact Nat.lt_of_le_of_lt (timesOf_length confs) small
    obtain ⟨next,first⟩ := addTime_fits cost small c (timesOf cost confs) start
    obtain ⟨r,done⟩ := ih (confs ++ [c]) (by simpa using room)
    refine ⟨r,?_⟩
    have run : addTime (cost c) c 0 (grouped cost confs) = some (grouped cost (confs ++ [c])) := by
      rw [grouped,first,step_some first]
    rw [List.foldlM_cons,run]
    exact done

private theorem loop_within {rest : List Config} {sets r : List ConfigSet}
    (within : ∀ g ∈ sets, g.confs.length ≤ vectorLimit)
    (done : rest.foldlM (fun sets c => addTime (cost c) c 0 sets) sets = some r) :
    ∀ g ∈ r, g.confs.length ≤ vectorLimit := by
  induction rest generalizing sets with
  | nil =>
    rw [List.foldlM_nil] at done
    cases done
    exact within
  | cons c rest ih =>
    rw [List.foldlM_cons] at done
    obtain ⟨next,first,others⟩ := Option.bind_eq_some_iff.mp done
    exact ih (addTime_within within first) others

theorem groups_some {n : Nat} {r : List ConfigSet} (done : groups cost n = some r) :
    r = grouped cost (masks n) ∧ ∀ g ∈ r, g.confs.length ≤ vectorLimit :=
  ⟨loop_some (masks n) [] done,loop_within (by simp) done⟩

theorem groups_fits {n : Nat} (room : (masks n).length ≤ vectorLimit) :
    groups cost n = some (grouped cost (masks n)) := by
  have all : ([] ++ masks n).length ≤ vectorLimit := room
  obtain ⟨r,done⟩ := loop_fits cost [] all
  have same := (groups_some done).1
  rw [groups]
  rw [← same]
  exact done

theorem mem_allConfs {ts : List Int} :
    c ∈ allConfs (ts.map (groupOf cost confs)) ↔ c ∈ confs ∧ cost c ∈ ts := by
  simp only [allConfs,List.mem_flatMap,List.mem_map]
  constructor
  · rintro ⟨_,⟨t,member,rfl⟩,inside⟩
    obtain ⟨old,time⟩ := List.mem_filter.mp inside
    exact ⟨old,by rw [of_decide_eq_true time]; exact member⟩
  · rintro ⟨old,member⟩
    exact ⟨_,⟨cost c,member,rfl⟩,List.mem_filter.mpr ⟨old,decide_eq_true rfl⟩⟩

theorem nodup_allConfs {ts : List Int} (distinct : confs.Nodup) (times : ts.Nodup) :
    (allConfs (ts.map (groupOf cost confs))).Nodup := by
  rw [allConfs,List.flatMap_map,List.nodup_flatMap]
  refine ⟨fun t _ => distinct.filter _,?_⟩
  refine times.imp ?_
  intro t u differ c first second
  obtain ⟨-,first⟩ := List.mem_filter.mp first
  obtain ⟨-,second⟩ := List.mem_filter.mp second
  exact differ ((of_decide_eq_true first).symm.trans (of_decide_eq_true second))

theorem allConfs_grouped (distinct : confs.Nodup) :
    (allConfs (grouped cost confs)).Perm confs := by
  refine (List.perm_ext_iff_of_nodup (nodup_allConfs distinct (timesOf_nodup confs)) distinct).mpr ?_
  intro c
  rw [mem_allConfs]
  constructor
  · exact fun both => both.1
  · exact fun member => ⟨member,mem_timesOf.mpr ⟨c,member,rfl⟩⟩

theorem allConfs_reverse (sets : List ConfigSet) : (allConfs sets.reverse).Perm (allConfs sets) :=
  (List.reverse_perm sets).flatMap_right _

end Groups

theorem length_masks (n : Nat) : (masks n).length = 2 ^ n := by simp [masks]

theorem nodup_masks {n : Nat} (small : n ≤ 32) : (masks n).Nodup := by
  refine (List.nodup_map_iff_inj_on List.nodup_range).mpr ?_
  intro a left b right same
  have fits : 2 ^ n ≤ 2 ^ 32 := Nat.pow_le_pow_right (by omega) small
  rw [List.mem_range] at left right
  have numbers := congrArg BitVec.toNat same
  rw [BitVec.toNat_ofNat,BitVec.toNat_ofNat,Nat.mod_eq_of_lt (by omega),Nat.mod_eq_of_lt (by omega)] at numbers
  exact numbers

theorem masks_fit {n : Nat} : (masks n).length ≤ vectorLimit ↔ n ≤ 15 := by
  rw [length_masks]
  exact Nat.pow_le_pow_iff_right (a := 2) (n := n) (m := 15) (by omega)

/-- The sums of event variables that bound `x_hts`. -/
def demands (events : List Event) (pos neg com : Word) : List (List Term) :=
  (events.zipIdx.flatMap fun e =>
    if hasBit pos e.2 then (if e.1.isEstimating true then [e.1.estimate e.2 true] else [])
    else if hasBit neg e.2 then (if e.1.isEstimating false then [e.1.estimate e.2 false] else [])
    else []) ++
  if com ≠ 0 then [events.zipIdx.flatMap fun e => if hasBit com e.2 then e.1.estimate e.2 true else []]
  else []

def counts (c : Config) (term : Term) : Bool :=
  match term.2 with
  | .event i on => c.getLsbD i == on
  | _ => false

/-- A sum of event variables. -/
def EventTerms (terms : List Term) : Prop := ∀ term ∈ terms, ∃ i on, term = (1,.event i on)

theorem mem_estimate {e : Event} {i : Nat} {on : Bool} {term : Term} :
    term ∈ e.estimate i on ↔ e.isEstimating on = true ∧ term = (1,.event i on) := by
  unfold Event.estimate
  split <;> simp_all

theorem demands_eventTerms {events : List Event} {pos neg com : Word} :
    ∀ D ∈ demands events pos neg com, EventTerms D := by
  have estimate : ∀ (e : Event) i on, EventTerms (e.estimate i on) := by
    intro e i on term member
    exact ⟨i,on,(mem_estimate.mp member).2⟩
  intro D member
  rcases List.mem_append.mp member with single | complex
  · obtain ⟨e,-,here⟩ := List.mem_flatMap.mp single
    split at here
    · split at here <;> simp at here
      rw [here]; exact estimate _ _ _
    · split at here
      · split at here <;> simp at here
        rw [here]; exact estimate _ _ _
      · cases here
  · split at complex
    · rw [List.mem_singleton] at complex
      intro term inside
      rw [complex] at inside
      obtain ⟨e,-,here⟩ := List.mem_flatMap.mp inside
      split at here
      · exact estimate _ _ _ term here
      · cases here
    · cases complex

private theorem value_hts (v : Var → Int) : value v [(1,.hts)] = v .hts := by simp [value]

private theorem value_edge (v : Var → Int) : value v [(1,.edge)] = v .edge := by simp [value]

/-- The constraints of a split, on the choice of `x_hts`. -/
theorem holds_contributeSplit {n : Nat} (x : Execution n) (x_hts : Int) (events : List Event)
    (pos neg com : Word) (lts_time hts_time : Int) :
    (∀ c ∈ (contributeSplit events pos neg com lts_time hts_time).constraints,
        c.Holds (x.valuation x_hts)) ↔
      0 ≤ x_hts ∧ x_hts ≤ x.crossings.length ∧
        ∀ D ∈ demands events pos neg com, x_hts ≤ value (x.valuation x_hts) D := by
  have demand : ∀ D, Constraint.Holds ⟨D,.ge,[(1,.hts)]⟩ (x.valuation x_hts) ↔
      x_hts ≤ value (x.valuation x_hts) D := by
    intro D
    show value _ [(1,Var.hts)] ≤ _ ↔ _
    rw [value_hts]
    rfl
  have others : (contributeSplit events pos neg com lts_time hts_time).constraints =
      [⟨[],.le,[(1,.hts)]⟩,⟨[(1,.hts)],.le,[(1,.edge)]⟩] ++
        (demands events pos neg com).map fun D => ⟨D,.ge,[(1,.hts)]⟩ := by
    have each : ∀ (e : Event) i on, eventConstraint e i on =
        (if e.isEstimating on then [e.estimate i on] else []).map fun D => ⟨D,.ge,[(1,.hts)]⟩ := by
      intro e i on
      unfold eventConstraint
      split <;> rfl
    simp only [contributeSplit,demands,List.map_append,List.map_flatMap,List.append_assoc,each]
    congr 2
    · congr 1
      funext e
      split
      · rfl
      · split <;> rfl
    · split <;> rfl
  rw [others,List.forall_mem_append,List.forall_mem_map]
  have first : Constraint.Holds ⟨[],.le,[(1,.hts)]⟩ (x.valuation x_hts) ↔ 0 ≤ x_hts := by
    show value _ [] ≤ value _ [(1,Var.hts)] ↔ _
    rw [value_hts]
    rfl
  have second : Constraint.Holds ⟨[(1,.hts)],.le,[(1,.edge)]⟩ (x.valuation x_hts) ↔
      x_hts ≤ x.crossings.length := by
    show value _ [(1,Var.hts)] ≤ value _ [(1,Var.edge)] ↔ _
    rw [value_hts,value_edge]
    rfl
  rw [List.forall_mem_cons,List.forall_mem_singleton,first,second,and_assoc]
  simp only [demand]

private theorem countP_or_le (l : List Config) (p q : Config → Bool) :
    l.countP (fun c => p c || q c) ≤ l.countP p + l.countP q := by
  induction l with
  | nil => simp
  | cons c l ih =>
    rw [List.countP_cons,List.countP_cons,List.countP_cons]
    cases p c <;> cases q c <;> simp <;> omega

private theorem value_cons {n : Nat} (x : Execution n) (x_hts : Int) (i : Nat) (on : Bool) (D : List Term) :
    value (x.valuation x_hts) ((1,.event i on) :: D) = x.occurrences i on + value (x.valuation x_hts) D := by
  simp [value,Execution.valuation]

theorem countP_le_value {n : Nat} (x : Execution n) (x_hts : Int) {D : List Term} (terms : EventTerms D) :
    (x.crossings.countP fun c => D.any (counts c) : Int) ≤ value (x.valuation x_hts) D := by
  induction D with
  | nil => simp [value]
  | cons term D ih =>
    obtain ⟨⟨i,on,rfl⟩,rest⟩ := List.forall_mem_cons.mp terms
    have first : (x.crossings.countP fun c => c.getLsbD i == on) ≤ x.occurrences i on := Nat.le_add_right _ _
    have either := countP_or_le x.crossings (fun c => c.getLsbD i == on) (fun c => D.any (counts c))
    have deeper := ih rest
    rw [value_cons]
    show ((x.crossings.countP fun c => c.getLsbD i == on || D.any (counts c) : Nat) : Int) ≤ _
    omega

def once {n : Nat} {c : Config} (valid : c ∈ masks n) : Execution n where
  crossings := [c]
  elsewhere := fun _ _ => 0
  valid := by simpa using valid

theorem counts_of_once {n : Nat} {c : Config} (valid : c ∈ masks n) (x_hts : Int) {D : List Term}
    (terms : EventTerms D) (some : 1 ≤ value ((once valid).valuation x_hts) D) : D.any (counts c) = true := by
  induction D with
  | nil => exact absurd some (by simp [value])
  | cons term D ih =>
    obtain ⟨⟨i,on,rfl⟩,rest⟩ := List.forall_mem_cons.mp terms
    rw [List.any_cons,Bool.or_eq_true]
    by_cases here : (c.getLsbD i == on) = true
    · exact Or.inl here
    · refine Or.inr (ih rest ?_)
      have zero : (once valid).occurrences i on = 0 := by
        simpa [Execution.occurrences,once] using here
      rw [value_cons,zero] at some
      simpa using some

private theorem time_le {xs : List Config} {cost : Config → Int} {lts hts : Int} (good : Config → Bool)
    (each : ∀ c ∈ xs, cost c ≤ if good c then hts else lts) :
    (xs.map cost).sum ≤ lts * xs.length + (hts - lts) * xs.countP good := by
  induction xs with
  | nil => simp
  | cons c xs ih =>
    obtain ⟨here,rest⟩ := List.forall_mem_cons.mp each
    have before := ih rest
    rw [List.map_cons,List.sum_cons,List.length_cons,List.countP_cons]
    cases goodness : good c with
    | true =>
      rw [goodness,if_pos rfl] at here
      simp only [if_true]
      push_cast
      linarith
    | false =>
      rw [goodness] at here
      simp only [Bool.false_eq_true,if_false] at here ⊢
      push_cast
      linarith

/-- A split bounds all the executions when it bounds each crossing alone: the low time is
    enough, or the high time is and the crossing counts in every sum that bounds `x_hts`. -/
theorem bounded_iff {n : Nat} {events : List Event} {pos neg com : Word} {lts hts : Int} {cost : Config → Int} :
    (∀ x : Execution n, Bounded (contributeSplit events pos neg com lts hts) cost x) ↔
      ∀ c ∈ masks n, cost c ≤ lts ∨
        cost c ≤ hts ∧ ∀ D ∈ demands events pos neg com, D.any (counts c) = true := by
  have objective : ∀ (x : Execution n) x_hts,
      value (x.valuation x_hts) (contributeSplit events pos neg com lts hts).objective =
        lts * x.crossings.length + (hts - lts) * x_hts := by
    intro x x_hts
    simp [value,contributeSplit,Execution.valuation]
  constructor
  · intro bounded c valid
    obtain ⟨x_hts,holds,bound⟩ := bounded (once valid)
    rw [holds_contributeSplit] at holds
    rw [objective] at bound
    have time : (once valid).time cost = cost c := by simp [Execution.time,once]
    have length : (once valid).crossings.length = 1 := rfl
    rw [time,length] at bound
    rw [length] at holds
    obtain ⟨nonneg,one,sums⟩ := holds
    have choice : x_hts = 0 ∨ x_hts = 1 := by omega
    rcases choice with rfl | rfl
    · left; simpa using bound
    · right
      refine ⟨by simpa using bound,fun D member => ?_⟩
      exact counts_of_once valid 1 (demands_eventTerms D member) (sums D member)
  · intro each x
    by_cases order : hts ≤ lts
    · refine ⟨0,(holds_contributeSplit ..).mpr ⟨by omega,by omega,fun D member => ?_⟩,?_⟩
      · exact (Int.natCast_nonneg _).trans (countP_le_value x 0 (demands_eventTerms D member))
      · have all : ∀ c ∈ x.crossings, cost c ≤ if (fun _ => false) c then hts else lts := by
          intro c member
          rcases each c (x.valid c member) with low | ⟨high,-⟩
          · simpa using low
          · simpa using high.trans order
        rw [objective]
        simpa [Execution.time] using time_le (fun _ => false) all
    · let good : Config → Bool := fun c => (demands events pos neg com).all fun D => D.any (counts c)
      refine ⟨x.crossings.countP good,(holds_contributeSplit ..).mpr ⟨by omega,?_,fun D member => ?_⟩,?_⟩
      · exact Int.ofNat_le.mpr List.countP_le_length
      · refine (Int.ofNat_le.mpr ?_).trans (countP_le_value x _ (demands_eventTerms D member))
        refine List.countP_mono_left ?_
        intro c _ counted
        exact List.all_eq_true.mp counted D member
      · rw [objective]
        refine time_le good ?_
        intro c member
        rcases each c (x.valid c member) with low | ⟨high,counted⟩
        · split <;> omega
        · have counted : good c = true := List.all_eq_true.mpr counted
          rw [counted]
          simpa using high

section Condition
variable (events : List Event) (weight : Int) (cost : Config → Int)

/-- The times of the edge, in the order of their first occurrence. -/
def times : List Int := timesOf cost (masks events.length)

def low (p : Nat) : Int := (times events cost).getD (p - 1) 0

def top : Int := (times events cost).getLastD 0

/-- The configurations whose time comes from position `p` on. -/
def high (p : Nat) : List Config :=
  (masks events.length).filter fun c => cost c ∈ (times events cost).drop p

def crossings (H : List Config) : Int :=
  let mixed := ((events.zipIdx.filter fun e => Mixed H e.2 events.length).map (·.1.weight)).sum
  let always := (events.zipIdx.filter fun e => Always H e.2).map (·.1.weight)
  min (always.foldl max mixed) weight

def expectedCost (p : Nat) : Int :=
  let x := crossings events weight (high events cost p)
  x * top events cost + (weight - x) * low events cost p

/-- `p` is the first position from 1 to `k` of the least value, which is a time. -/
structure FirstLeast (E : Nat → Int) (k p : Nat) : Prop where
  positive : 1 ≤ p
  within : p ≤ k
  below : E p < maxTime
  least : ∀ q, 1 ≤ q → q ≤ k → E p ≤ E q
  first : ∀ q, 1 ≤ q → q < p → E p < E q

/-- A crossing in configuration `c` counts for all the constraints that the high times `H`
    put on `x_hts`. -/
def Counted (H : List Config) (c : Config) : Prop :=
  (∀ e ∈ events.zipIdx, Always H e.2 → e.1.isEstimating true = true → c.getLsbD e.2 = true) ∧
  (∀ e ∈ events.zipIdx, Never H e.2 → e.1.isEstimating false = true → c.getLsbD e.2 = false) ∧
  ((∃ i, Mixed H i events.length) →
    ∃ e ∈ events.zipIdx, Mixed H e.2 events.length ∧ e.1.isEstimating true = true ∧ c.getLsbD e.2 = true)

end Condition

section Search
variable {events : List Event} {weight : Int} {cost : Config → Int}

theorem FirstLeast.unique {E : Nat → Int} {k p q : Nat} (left : FirstLeast E k p) (right : FirstLeast E k q) :
    p = q := by
  rcases Nat.lt_trichotomy p q with less | same | more
  · exact absurd (right.first p left.positive less) (Int.not_lt.mpr (left.least q right.positive right.within))
  · exact same
  · exact absurd (left.first q right.positive more) (Int.not_lt.mpr (right.least p left.positive left.within))

private theorem inside_of_zipIdx {e : Event × Nat} (member : e ∈ events.zipIdx) : e.2 < events.length := by
  have bound := List.snd_lt_of_mem_zipIdx member
  simpa using bound

/-- The masks of a set without repetition that has the configurations of `H`. -/
structure Reads (events : List Event) (s : ConfigSet) (H : List Config) : Prop where
  few : events.length < 32
  distinct : s.confs.Nodup
  same : ∀ c, c ∈ s.confs ↔ c ∈ H

variable {s : ConfigSet} {H : List Config}

private theorem Reads.comp (reads : Reads events s H) {i : Nat}
    (inside : i < events.length) :
    hasBit (s.scan events.length).comp i = decide (Mixed H i events.length) := by
  rw [hasBit_eq (inside.trans reads.few),Bool.eq_iff_iff,decide_eq_true_iff,scan_comp reads.distinct reads.few]
  exact Mixed.congr reads.same

private theorem Reads.pos (reads : Reads events s H) {i : Nat}
    (inside : i < events.length) : hasBit (s.scan events.length).pos i = decide (Always H i) := by
  rw [hasBit_eq (inside.trans reads.few),Bool.eq_iff_iff,decide_eq_true_iff,scan_pos s _ (inside.trans reads.few)]
  exact Always.congr reads.same

private theorem Reads.neg {s : ConfigSet} {H : List Config} (reads : Reads events s H) {i : Nat}
    (inside : i < events.length) : hasBit (s.scan events.length).neg i = decide (Never H i) := by
  rw [hasBit_eq (inside.trans reads.few),Bool.eq_iff_iff,decide_eq_true_iff,scan_neg s _ (inside.trans reads.few)]
  exact Never.congr reads.same

private theorem Reads.com (reads : Reads events s H) :
    (s.scan events.length).comp ≠ 0 ↔ ∃ i, Mixed H i events.length := by
  have bits : ∀ i, (s.scan events.length).comp.getLsbD i = true ↔ Mixed H i events.length := by
    intro i
    rw [scan_comp reads.distinct reads.few]
    exact Mixed.congr reads.same
  constructor
  · intro nonzero
    by_contra none
    refine nonzero (BitVec.eq_of_getLsbD_eq fun i _ => ?_)
    rw [show (0 : Word).getLsbD i = false by simp,Bool.eq_false_iff,ne_eq,bits]
    exact fun mixed => none ⟨i,mixed⟩
  · rintro ⟨i,mixed⟩ zero
    have bit := (bits i).mpr mixed
    rw [zero] at bit
    simp at bit

private theorem splitCost_eq (reads : Reads events s H) (weight t l : Int) :
    splitCost events weight (s.scan events.length) t l =
      crossings events weight H * t + (weight - crossings events weight H) * l := by
  have mixed : events.zipIdx.foldl
        (fun x e => if hasBit (s.scan events.length).comp e.2 then x + e.1.weight else x) 0 =
      ((events.zipIdx.filter fun e => Mixed H e.2 events.length).map (·.1.weight)).sum := by
    rw [List.sum_eq_foldl,List.foldl_map,List.foldl_filter]
    refine List.foldl_ext _ _ _ fun x e member => ?_
    rw [reads.comp (inside_of_zipIdx member)]
  have always : ∀ start, events.zipIdx.foldl
        (fun x e => if hasBit (s.scan events.length).pos e.2 then max x e.1.weight else x) start =
      ((events.zipIdx.filter fun e => Always H e.2).map (·.1.weight)).foldl max start := by
    intro start
    rw [List.foldl_map,List.foldl_filter]
    refine List.foldl_ext _ _ _ fun x e member => ?_
    rw [reads.pos (inside_of_zipIdx member)]
  have least : ∀ x : Int, (if x > weight then weight else x) = min x weight := by
    intro x
    rw [min_def]
    split <;> split <;> omega
  unfold splitCost crossings
  simp only [mixed,always,least]

private theorem counted_iff (reads : Reads events s H) (some : H ≠ [])
    (c : Config) :
    (∀ D ∈ demands events (s.scan events.length).pos (s.scan events.length).neg (s.scan events.length).comp,
        D.any (counts c) = true) ↔ Counted events H c := by
  have apart : ∀ i, Always H i → ¬Never H i := by
    intro i always never
    obtain ⟨d,member⟩ := List.exists_mem_of_ne_nil H some
    have on := always d member
    rw [never d member] at on
    cases on
  have estimate : ∀ (e : Event) (i : Nat) (on : Bool), e.isEstimating on = true →
      ((e.estimate i on).any (counts c) = true ↔ c.getLsbD i = on) := by
    intro e i on estimating
    simp [Event.estimate,estimating,counts]
  unfold demands
  rw [List.forall_mem_append]
  constructor
  · rintro ⟨single,complex⟩
    refine ⟨fun e member always estimating => ?_,fun e member never estimating => ?_,fun mixed => ?_⟩
    · refine (estimate e.1 e.2 true estimating).mp (single _ (List.mem_flatMap.mpr ⟨e,member,?_⟩))
      rw [reads.pos (inside_of_zipIdx member),if_pos (decide_eq_true always),if_pos estimating]
      exact List.mem_singleton_self _
    · refine (estimate e.1 e.2 false estimating).mp (single _ (List.mem_flatMap.mpr ⟨e,member,?_⟩))
      have notAlways : ¬Always H e.2 := fun always => apart _ always never
      rw [reads.pos (inside_of_zipIdx member),if_neg (by simpa using notAlways),
        reads.neg (inside_of_zipIdx member),if_pos (decide_eq_true never),if_pos estimating]
      exact List.mem_singleton_self _
    · rw [if_pos (reads.com.mpr mixed)] at complex
      obtain ⟨term,inside,counted⟩ := List.any_eq_true.mp (complex _ (List.mem_singleton_self _))
      obtain ⟨e,member,here⟩ := List.mem_flatMap.mp inside
      rw [reads.comp (inside_of_zipIdx member)] at here
      split at here
      case isFalse => cases here
      case isTrue found =>
        obtain ⟨estimating,rfl⟩ := mem_estimate.mp here
        exact ⟨e,member,of_decide_eq_true found,estimating,by simpa [counts] using counted⟩
  · rintro ⟨always,never,mixed⟩
    constructor
    · intro D inside
      obtain ⟨e,member,here⟩ := List.mem_flatMap.mp inside
      rw [reads.pos (inside_of_zipIdx member),reads.neg (inside_of_zipIdx member)] at here
      split at here
      case isTrue on =>
        split at here
        case isTrue estimating =>
          rw [List.mem_singleton.mp here,estimate _ _ _ estimating]
          exact always e member (of_decide_eq_true on) estimating
        case isFalse => cases here
      case isFalse =>
        split at here
        case isTrue off =>
          split at here
          case isTrue estimating =>
            rw [List.mem_singleton.mp here,estimate _ _ _ estimating]
            exact never e member (of_decide_eq_true off) estimating
          case isFalse => cases here
        case isFalse => cases here
    · intro D inside
      split at inside
      case isTrue com =>
        obtain ⟨e,member,here,estimating,bit⟩ := mixed (reads.com.mp com)
        rw [List.mem_singleton.mp inside,List.any_eq_true]
        refine ⟨(1,.event e.2 true),List.mem_flatMap.mpr ⟨e,member,?_⟩,by simpa [counts] using bit⟩
        rw [reads.comp (inside_of_zipIdx member),if_pos (decide_eq_true here)]
        exact mem_estimate.mpr ⟨estimating,rfl⟩
      case isFalse => cases inside

/-! ### The search of the split -/

/-- The best position and its cost after `k` positions. -/
private def Best (E : Nat → Int) (k : Nat) (s : Search) : Prop :=
  s.best_p = 0 ∧ s.best_cost = maxTime ∧ (∀ q, 1 ≤ q → q ≤ k → maxTime ≤ E q) ∨
    FirstLeast E k s.best_p ∧ s.best_cost = E s.best_p

private theorem FirstLeast.last {E : Nat → Int} {k : Nat} (below : E (k + 1) < maxTime)
    (less : ∀ q, 1 ≤ q → q ≤ k → E (k + 1) < E q) : FirstLeast E (k + 1) (k + 1) := by
  refine ⟨Nat.le_add_left 1 k,Nat.le_refl _,below,fun q positive within => ?_,
    fun q positive before => less q positive (Nat.le_of_lt_succ before)⟩
  rcases Nat.le_or_eq_of_le_succ within with old | rfl
  · exact (less q positive old).le
  · exact le_rfl

private theorem FirstLeast.keep {E : Nat → Int} {k p : Nat} (found : FirstLeast E k p)
    (more : E p ≤ E (k + 1)) : FirstLeast E (k + 1) p := by
  refine ⟨found.positive,found.within.trans (Nat.le_succ k),found.below,fun q positive within => ?_,found.first⟩
  rcases Nat.le_or_eq_of_le_succ within with old | rfl
  · exact found.least q positive old
  · exact more

private theorem Best.step {E : Nat → Int} {k : Nat} {s : Search} (best : Best E k s) (set : ConfigSet) :
    Best E (k + 1) (if E (k + 1) < s.best_cost then { set := set, best_p := k + 1, best_cost := E (k + 1) }
      else { s with set := set }) := by
  rcases best with ⟨zero,cost,none⟩ | ⟨found,cost⟩
  · rw [cost]
    split
    case isTrue less =>
      exact Or.inr ⟨.last less fun q positive old => less.trans_le (none q positive old),rfl⟩
    case isFalse more =>
      refine Or.inl ⟨zero,rfl,fun q positive within => ?_⟩
      rcases Nat.le_or_eq_of_le_succ within with old | rfl
      · exact none q positive old
      · exact Int.not_lt.mp more
  · rw [cost]
    split
    case isTrue less =>
      exact Or.inr ⟨.last (less.trans found.below)
        fun q positive old => less.trans_le (found.least q positive old),rfl⟩
    case isFalse more => exact Or.inr ⟨found.keep (Int.not_lt.mp more),rfl⟩

private theorem grouped_drop (confs : List Config) (p : Nat) :
    (grouped cost confs).drop p = ((timesOf cost confs).drop p).map (groupOf cost confs) := by
  rw [grouped,List.map_drop]

private theorem reads_high (few : events.length < 32) {p : Nat}
    (confs : s.confs.Perm (allConfs ((grouped cost (masks events.length)).drop p))) :
    Reads events s (high events cost p) := by
  have distinct : (masks events.length).Nodup := nodup_masks few.le
  rw [grouped_drop] at confs
  refine ⟨few,confs.nodup_iff.mpr (nodup_allConfs distinct ((timesOf_nodup _).drop)),fun c => ?_⟩
  rw [confs.mem_iff,mem_allConfs,high,List.mem_filter,decide_eq_true_iff]
  rfl

variable (events cost) in
private theorem getElem?_grouped (k : Nat) (inside : k < (times events cost).length) :
    ∃ g, (grouped cost (masks events.length))[k]? = some g ∧ g.t = low events cost (k + 1) ∧
      (grouped cost (masks events.length)).drop k = g :: (grouped cost (masks events.length)).drop (k + 1) := by
  have within : k < (grouped cost (masks events.length)).length := by
    rw [grouped,List.length_map]
    exact inside
  refine ⟨_,List.getElem?_eq_getElem within,?_,List.drop_eq_getElem_cons within⟩
  have time : (times events cost).getD k 0 = (times events cost)[k] := by simp [inside]
  rw [low,Nat.add_sub_cancel,time]
  simp [grouped,groupOf,times]

private theorem getLast?_grouped (nonempty : times events cost ≠ []) :
    ∃ g, (grouped cost (masks events.length)).getLast? = some g ∧ g.t = top events cost := by
  refine ⟨groupOf cost (masks events.length) (top events cost),?_,rfl⟩
  rw [grouped,List.getLast?_map]
  show Option.map _ (times events cost).getLast? = _
  rw [List.getLast?_eq_some_getLast nonempty,top,List.getLastD_eq_getLast?,List.getLast?_eq_some_getLast nonempty]
  rfl

variable (weight) in
private theorem search_some (few : events.length < 32) {set last : ConfigSet}
    (confs : set.confs = allConfs (grouped cost (masks events.length)).reverse)
    (lastTime : last.t = top events cost) (k : Nat) (within : k < (times events cost).length) :
    ∃ s, (List.range' 1 k).foldlM (tryPosition events weight (grouped cost (masks events.length)) last)
          { set := set, best_p := 0, best_cost := maxTime } = some s ∧
      s.set.confs = allConfs ((grouped cost (masks events.length)).drop k).reverse ∧
      Best (expectedCost events weight cost) k s := by
  induction k with
  | zero =>
    refine ⟨_,rfl,by simpa using confs,Or.inl ⟨rfl,rfl,?_⟩⟩
    omega
  | succ k ih =>
    obtain ⟨s,done,left,best⟩ := ih (by omega)
    obtain ⟨g,here,time,rest⟩ := getElem?_grouped events cost k (by omega)
    have popped : (s.set.pop g).confs = allConfs ((grouped cost (masks events.length)).drop (k + 1)).reverse := by
      refine pop_confs _ _ _ ?_ rfl
      rw [left,rest,List.reverse_cons,allConfs,List.flatMap_append,List.flatMap_singleton]
      rfl
    have reads : Reads events (s.set.pop g) (high events cost (k + 1)) := by
      refine reads_high few ?_
      rw [popped]
      exact allConfs_reverse _
    have value : splitCost events weight ((s.set.pop g).scan events.length) last.t g.t =
        expectedCost events weight cost (k + 1) := by
      rw [splitCost_eq reads,lastTime,time]
      rfl
    have turn : tryPosition events weight (grouped cost (masks events.length)) last s (1 + k) =
        some (if expectedCost events weight cost (k + 1) < s.best_cost
          then { set := s.set.pop g, best_p := k + 1, best_cost := expectedCost events weight cost (k + 1) }
          else { s with set := s.set.pop g }) := by
      rw [tryPosition,Nat.add_sub_cancel_left,here,Nat.add_comm 1 k]
      show (if _ < _ then _ else _) = _
      rw [value]
      split <;> rfl
    refine ⟨_,?_,?_,best.step (s.set.pop g)⟩
    · rw [List.range'_1_concat,List.foldlM_append,done]
      simp only [Option.bind_eq_bind,Option.bind_some,List.foldlM_cons,List.foldlM_nil,turn]
      rfl
    · split <;> exact popped

variable (events cost) in
private theorem times_ne_nil : times events cost ≠ [] := by
  have member : (0 : Config) ∈ masks events.length := by
    refine List.mem_map.mpr ⟨0,List.mem_range.mpr (Nat.two_pow_pos _),rfl⟩
  exact List.ne_nil_of_mem (mem_timesOf.mpr ⟨0,member,rfl⟩)

variable (cost) in
private theorem length_allConfs (few : events.length < 32) :
    (allConfs (grouped cost (masks events.length))).length = (masks events.length).length :=
  (allConfs_grouped (nodup_masks few.le)).length_eq

/-- Beyond 15 events, the vectors of configurations grow too much. -/
theorem few_of_processEdge {sys : System} (made : processEdge events weight cost = some sys) :
    events.length ≤ 15 := by
  unfold processEdge at made
  split at made
  case isTrue => cases made
  case isFalse small =>
    have few : events.length < 32 := by omega
    split at made
    case isTrue none =>
      rw [List.isEmpty_iff.mp none]
      exact Nat.zero_le _
    case isFalse =>
      obtain ⟨confs,collected,rest⟩ := Option.bind_eq_some_iff.mp made
      obtain ⟨same,within⟩ := groups_some collected
      rw [← masks_fit,← length_allConfs cost few,← same]
      split at rest
      case h_1 _ g =>
        have bound := within g (List.mem_singleton_self g)
        simpa [allConfs] using bound
      case h_2 =>
        obtain ⟨last,-,rest⟩ := Option.bind_eq_some_iff.mp rest
        obtain ⟨set,pushed,-⟩ := Option.bind_eq_some_iff.mp rest
        obtain ⟨all,bound⟩ := pushAll_some (by simp) pushed
        rw [all,List.nil_append,(allConfs_reverse _).length_eq] at bound
        exact bound

variable (weight) in
theorem processEdge_one (few : events.length ≤ 15) (one : (times events cost).length = 1) :
    processEdge events weight cost = some (genForOneCost (top events cost)) ∧
      ∀ c ∈ masks events.length, cost c = top events cost := by
  obtain ⟨t,single⟩ := List.length_eq_one_iff.mp one
  have time : top events cost = t := by rw [top,single]; rfl
  have same : ∀ c ∈ masks events.length, cost c = t := by
    intro c member
    have inside : cost c ∈ times events cost := mem_timesOf.mpr ⟨c,member,rfl⟩
    rw [single] at inside
    exact List.mem_singleton.mp inside
  refine ⟨?_,by rw [time]; exact same⟩
  rw [processEdge,if_neg (by omega)]
  split
  case isTrue none =>
    have zero : (0 : Config) ∈ masks events.length :=
      List.mem_map.mpr ⟨0,List.mem_range.mpr (Nat.two_pow_pos _),rfl⟩
    rw [same 0 zero,time]
  case isFalse =>
    have groupedOne : grouped cost (masks events.length) = [groupOf cost (masks events.length) t] := by
      rw [grouped,show timesOf cost (masks events.length) = [t] from single,List.map_singleton]
    rw [groups_fits (masks_fit.mpr few),groupedOne,time]
    rfl

private theorem processEdge_more (few : events.length ≤ 15) (more : 2 ≤ (times events cost).length) :
    processEdge events weight cost = applyWeightedSplit events weight (grouped cost (masks events.length)) := by
  have size : (grouped cost (masks events.length)).length = (times events cost).length := List.length_map _
  have some : ¬events.isEmpty = true := by
    intro none
    rw [List.isEmpty_iff] at none
    have bound : (times events cost).length ≤ (masks events.length).length := timesOf_length _
    rw [none] at more bound
    have one : (masks ([] : List Event).length).length = 1 := rfl
    omega
  rw [processEdge,if_neg (by omega),if_neg some,groups_fits (masks_fit.mpr few)]
  show (match grouped cost (masks events.length) with | [g] => _ | confs => _) = _
  split
  case h_1 g single =>
    rw [single,List.length_singleton] at size
    omega
  case h_2 => rfl

variable (weight) in
theorem processEdge_split (few : events.length ≤ 15) (more : 2 ≤ (times events cost).length) :
    (∃ p, FirstLeast (expectedCost events weight cost) ((times events cost).length - 1) p ∧
      ∃ s, Reads events s (high events cost p) ∧ high events cost p ≠ [] ∧
        processEdge events weight cost = some (contributeSplit events (s.scan events.length).pos
          (s.scan events.length).neg (s.scan events.length).comp (low events cost p) (top events cost))) ∨
    (∀ p, ¬FirstLeast (expectedCost events weight cost) ((times events cost).length - 1) p) ∧
      processEdge events weight cost = none := by
  have small : events.length < 32 := by omega
  have size : (grouped cost (masks events.length)).length = (times events cost).length := List.length_map _
  have room : (allConfs (grouped cost (masks events.length))).length ≤ vectorLimit := by
    rw [length_allConfs cost small]
    exact masks_fit.mpr few
  obtain ⟨last,atEnd,lastTime⟩ := getLast?_grouped (times_ne_nil events cost)
  obtain ⟨set,pushed,confs⟩ := pushAll_fits (grouped cost (masks events.length)).reverse ⟨0,[]⟩
    (by rw [(allConfs_reverse _).length_eq]; simpa using room)
  obtain ⟨s,searched,-,best⟩ := search_some weight small (by simpa using confs) lastTime
    ((times events cost).length - 1) (by omega)
  have run : processEdge events weight cost = (do
      let split ← makeSplit (grouped cost (masks events.length)) s.best_p
      let found := split.hts.scan events.length
      some (contributeSplit events found.pos found.neg found.comp split.lts_time split.hts_time)) := by
    rw [processEdge_more few more,applyWeightedSplit,atEnd,pushed,size]
    simp only [Option.bind_eq_bind,Option.bind_some]
    rw [searched]
    rfl
  rcases best with ⟨zero,-,none⟩ | ⟨found,-⟩
  · right
    refine ⟨fun p least => ?_,?_⟩
    · exact absurd least.below (Int.not_lt.mpr (none p least.positive least.within))
    · rw [run,makeSplit,zero]
      rfl
  · left
    refine ⟨s.best_p,found,?_⟩
    have positive := found.positive
    have within := found.within
    obtain ⟨k,position⟩ : ∃ k, s.best_p = k + 1 := ⟨s.best_p - 1,by omega⟩
    rw [position] at within run ⊢
    obtain ⟨g,here,time,-⟩ := getElem?_grouped events cost k (by omega)
    obtain ⟨g',-,-,after⟩ := getElem?_grouped events cost (k + 1) (by omega)
    obtain ⟨hts,joined,members⟩ := pushAll_fits ((grouped cost (masks events.length)).drop (k + 1)) ⟨last.t,[]⟩ (by
      rw [List.length_nil,Nat.zero_add]
      exact (length_allConfs_drop _ _).trans room)
    have reads : Reads events hts (high events cost (k + 1)) := by
      refine reads_high small ?_
      rw [members]
      exact List.Perm.refl _
    refine ⟨hts,reads,?_,?_⟩
    · have inside : k + 1 < (times events cost).length := by omega
      obtain ⟨c,member,value⟩ := mem_timesOf.mp (List.getElem_mem inside)
      refine List.ne_nil_of_mem (a := c) (List.mem_filter.mpr ⟨member,decide_eq_true ?_⟩)
      rw [value,List.drop_eq_getElem_cons inside]
      exact List.mem_cons_self
    · rw [run,makeSplit,if_neg (Nat.succ_ne_zero k),Nat.add_sub_cancel,here,atEnd]
      simp only [Option.bind_eq_bind,Option.bind_some]
      rw [joined]
      simp only [Option.bind_some,time,lastTime]

end Search

private theorem bounded_genForOneCost {n : Nat} {t : Int} {cost : Config → Int} (x : Execution n)
    (same : ∀ c ∈ masks n, cost c = t) : Bounded (genForOneCost t) cost x := by
  refine ⟨0,by simp [genForOneCost],?_⟩
  have each : ∀ c ∈ x.crossings, cost c ≤ if (fun _ => false) c then t else t := by
    intro c member
    rw [same c (x.valid c member)]
    simp
  simpa [value,genForOneCost,Execution.valuation,Execution.time] using time_le (fun _ => false) each

/-- The system of an edge bounds all its executions exactly when there are at most 15 dynamic
    events, and either one time only, or a first position of least expected cost such that the
    time of each configuration is at most the one just before the position, or at most the last
    one, for a configuration that counts for all the constraints on `x_hts`. -/
theorem safe_iff (events : List Event) (weight : Int) (cost : Config → Int) :
    Safe events weight cost ↔ events.length ≤ 15 ∧
      ((times events cost).length = 1 ∨
        ∃ p, FirstLeast (expectedCost events weight cost) ((times events cost).length - 1) p ∧
          ∀ c ∈ masks events.length, cost c ≤ low events cost p ∨
            cost c ≤ top events cost ∧ Counted events (high events cost p) c) := by
  have positive : 0 < (times events cost).length := List.length_pos_iff.mpr (times_ne_nil events cost)
  constructor
  · rintro ⟨sys,made,bounded⟩
    have few := few_of_processEdge made
    refine ⟨few,?_⟩
    by_cases one : (times events cost).length = 1
    · exact Or.inl one
    right
    have more : 2 ≤ (times events cost).length := by omega
    rcases processEdge_split weight few more with ⟨p,least,s,reads,some,split⟩ | ⟨-,none⟩
    · rw [split] at made
      cases made
      refine ⟨p,least,fun c member => ?_⟩
      rw [← counted_iff reads some]
      exact bounded_iff.mp bounded c member
    · rw [none] at made
      cases made
  · rintro ⟨few,one | ⟨p,least,each⟩⟩
    · obtain ⟨made,same⟩ := processEdge_one weight few one
      exact ⟨_,made,fun x => bounded_genForOneCost x same⟩
    · have more : 2 ≤ (times events cost).length := by
        have within := least.within
        have inside := least.positive
        omega
      rcases processEdge_split weight few more with ⟨q,other,s,reads,some,split⟩ | ⟨none,-⟩
      · rw [other.unique least] at reads some split
        refine ⟨_,split,bounded_iff.mpr fun c member => ?_⟩
        rw [counted_iff reads some]
        exact each c member
      · exact absurd least (none p)

def twoMisses : List Event := [⟨1,id⟩,⟨1,id⟩]

/-- The first event costs much and hides the other one: the times come in the order 1, 10, 5. -/
def overlapping (c : Config) : Int := if c = 0 then 1 else if c = 2 then 5 else 10

/-- The split keeps times 1 and 5; a crossing with the first event takes 10. -/
theorem unsorted_unsafe : ¬∀ (events : List Event) (weight : Int) (cost : Config → Int),
    events.length < 31 → Safe events weight cost := by
  intro all
  obtain ⟨sys,made,bounded⟩ := all twoMisses 2 overlapping (by decide)
  have split : processEdge twoMisses 2 overlapping = some (contributeSplit twoMisses 0 0 3 1 5) := by
    decide +kernel
  rw [split] at made
  cases made
  have first : (1 : Config) ∈ masks twoMisses.length := by decide
  rcases bounded_iff.mp bounded 1 first with low | ⟨high,-⟩
  · exact absurd low (by decide)
  · exact absurd high (by decide)

end Otawa.Etime
