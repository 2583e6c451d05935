import Otawa.PreorderIterator
import Otawa.GenVector
import Mathlib

/-!
The driver of abstract interpretation with a work list (`ai::WorkListDriver`), with its values on the
edges (`ai::EdgeStore`). `changeAll` empties the list of the vertices and keeps their bits, so it is
right when no vertex waits (`loop_stable`).
-/
namespace Otawa.Ai
open Otawa.GenVector (vectorLimit)
open Otawa.Preorder (GenGraph mem_outs mem_ins)
open Relation

variable {count : Nat} {E D : Type}

/-! ### The driver -/

/-- The graph, the initial value and the output of a vertex for each of its edges. -/
structure Analysis (count : Nat) (E D : Type) extends GenGraph count E where
  entry : Fin count
  exit : Fin count
  init : D
  update : E → D → D

/-- `wl_vertices`, the last one pushed first, with the failure of the assertion of its `grow`,
    and `wl_set`. -/
@[ext] structure WorkList (count : Nat) where
  vertices : List (Fin count)
  set : BitVector count
  failed : Bool

namespace WorkList

def create (count : Nat) : WorkList count := ⟨[],.make count false,false⟩

variable (wl : WorkList count)

def contains (v : Fin count) : Bool := wl.set.bit v

def push (v : Fin count) : WorkList count :=
  if wl.set.bit v then wl
  else if wl.vertices.length < vectorLimit then ⟨v :: wl.vertices,wl.set.set v,wl.failed⟩
  else { wl with failed := true }

end WorkList

@[ext] structure WorkListDriver (count : Nat) (E D : Type) where
  map : E → D
  list : WorkList count
  cur : Option (Fin count)
  ended : Bool

section
variable [DecidableEq E] [DecidableEq D] [SemilatticeSup D] [OrderBot D] (a : Analysis count E D)

/-- `EdgeStore::set` for a vertex. -/
def setVertex (map : E → D) (v : Fin count) (s : D) : E → D :=
  (a.outs v).foldl (fun map e => Function.update map e s) map

/-- `input` of a vertex. -/
def input (map : E → D) (vertex : Fin count) : D := (a.ins vertex).foldl (fun s pred => s ⊔ map pred) ⊥

/-- `next`, with the loop on `pop`. -/
def nextFrom (driver : WorkListDriver count E D) (set : BitVector count) : List (Fin count) → WorkListDriver count E D
  | [] => { driver with list := ⟨[],set,driver.list.failed⟩, ended := true }
  | v :: rest =>
    if v ≠ a.exit then { driver with list := ⟨rest,set.clear v,driver.list.failed⟩, cur := some v }
    else nextFrom { driver with cur := some v } (set.clear v) rest

def next (driver : WorkListDriver count E D) : WorkListDriver count E D :=
  nextFrom a driver driver.list.set driver.list.vertices

/-- The loop of the constructor on the successors of the entry. -/
def pushTargets (list : WorkList count) (succs : List E) : WorkList count :=
  succs.foldl (fun list succ => list.push (a.target succ)) list

def create : WorkListDriver count E D :=
  let map := setVertex a (setVertex a (fun _ => ⊥) a.entry a.init) a.entry a.init
  next a ⟨map,pushTargets a (.create count) (a.outs a.entry),none,false⟩

/-- `check`, with `change`. -/
def check (driver : WorkListDriver count E D) (edge : E) (s : D) : WorkListDriver count E D :=
  if s = driver.map edge then driver
  else { driver with map := Function.update driver.map edge s, list := driver.list.push (a.target edge) }

/-- The loop of `changeAll` on the successors, with its own list `todo`, which is never the
    longer one. -/
def collectTargets (list : WorkList count) (todo : List (Fin count)) : List E → WorkList count × List (Fin count)
  | [] => (list,todo)
  | s :: succs =>
    if list.contains (a.target s) then collectTargets list todo succs
    else collectTargets (list.push (a.target s)) (a.target s :: todo) succs

/-- The loop of `changeAll` on `todo`, for at most k turns. -/
def collect : Nat → WorkList count → List (Fin count) → Option (WorkList count)
  | _, list, [] => some list
  | 0, _, _ :: _ => none
  | k + 1, list, v :: todo =>
    let (list,todo) := collectTargets a list todo (a.outs v)
    collect k list todo

def changeAll (k : Nat) (driver : WorkListDriver count E D) : Option (WorkListDriver count E D) :=
  (collect a k { driver.list with vertices := [] } [a.entry]).map fun list =>
    next a { driver with list := { list with vertices := list.vertices.reverse } }

/-- The loop between two of its steps: the outputs of a vertex that are still to be checked, and
    whether the current vertex has been taken. -/
@[ext] structure Loop (count : Nat) (E D : Type) where
  driver : WorkListDriver count E D
  pending : List (E × D)
  taken : Bool

/-- A step of the loop: an output is checked, the driver goes on, or the outputs of the current vertex
    are computed from its input. There is none after a failure. -/
def step (l : Loop count E D) : Loop count E D :=
  if l.driver.list.failed then l
  else
    match l.pending with
    | (edge,s) :: rest => { l with driver := check a l.driver edge s, pending := rest }
    | [] =>
      if l.taken then { l with driver := next a l.driver, taken := false }
      else if l.driver.ended then l
      else
        match l.driver.cur with
        | none => l
        | some v => { l with pending := (a.outs v).map fun e => (e,a.update e (input a l.driver.map v)), taken := true }

def Loop.Finished (l : Loop count E D) : Prop := l.pending = [] ∧ l.taken = false ∧ l.driver.ended = true

/-- `changeAll` called during the loop: the vertex it gives has still to be taken. -/
def call (k : Nat) (l : Loop count E D) : Option (Loop count E D) :=
  (changeAll a k l.driver).map fun driver => { l with driver := driver, taken := false }

/-- The states of the loop, when `changeAll` is called at any time while no vertex waits, and whether it
    has been called. -/
inductive Run (k : Nat) : Bool → Loop count E D → Prop
  | start : Run k false ⟨create a,[],false⟩
  | step {called : Bool} {l : Loop count E D} : Run k called l → Run k called (step a l)
  | call {called : Bool} {l l' : Loop count E D} : Run k called l → ¬l.Finished → l.driver.list.vertices = [] →
      call a k l = some l' → Run k true l'

end

/-- The vertices that some path of edges from the entry leads to. -/
def Analysis.Reached (a : Analysis count E D) (v : Fin count) : Prop := TransGen a.Edge a.entry v

/-- The vector of the list has room for the vertices that are reached. -/
def Analysis.Fits (a : Analysis count E D) : Prop := Set.ncard {v | a.Reached v} ≤ vectorLimit

/-- Every vertex of the list is there once and has its bit, alone, and no push has failed. -/
structure WorkList.Consistent (wl : WorkList count) : Prop where
  fits : wl.failed = false
  bits : wl.set.Holds (fun v => decide (v ∈ wl.vertices)) false
  nodup : wl.vertices.Nodup

namespace WorkList
variable {wl : WorkList count} {v w : Fin count} {rest : List (Fin count)}

theorem consistent_create : (create count).Consistent :=
  ⟨rfl,by simpa [create] using BitVector.holds_make (n := count) false,List.nodup_nil⟩

theorem Consistent.contains (consistent : wl.Consistent) (v : Fin count) : wl.contains v = decide (v ∈ wl.vertices) :=
  consistent.bits.bit v

theorem Consistent.push_known (consistent : wl.Consistent) (known : v ∈ wl.vertices) : wl.push v = wl := by
  have bit := consistent.bits.bit v
  rw [push,if_pos (by simpa [known] using bit)]

theorem Consistent.push_new (consistent : wl.Consistent) (new : v ∉ wl.vertices) (room : wl.vertices.length < vectorLimit) :
    (wl.push v).vertices = v :: wl.vertices ∧ (wl.push v).Consistent := by
  have bit := consistent.bits.bit v
  rw [push,if_neg (by simpa [new] using bit),if_pos room]
  refine ⟨rfl,consistent.fits,?_,List.nodup_cons.2 ⟨new,consistent.nodup⟩⟩
  have bits := consistent.bits.set v
  rwa [show Function.update (fun w => decide (w ∈ wl.vertices)) v true = fun w => decide (w ∈ v :: wl.vertices) by
    funext w; by_cases same : w = v <;> simp [same]] at bits

theorem Consistent.room {a : Analysis count E D} (fits : a.Fits) (consistent : wl.Consistent)
    (reached : ∀ w ∈ wl.vertices, a.Reached w) (path : a.Reached v) (new : v ∉ wl.vertices) :
    wl.vertices.length < vectorLimit := by
  have inside : (↑(v :: wl.vertices).toFinset : Set (Fin count)) ⊆ {w | a.Reached w} := by
    intro w mem
    rcases List.mem_cons.1 (List.mem_toFinset.1 mem) with rfl | mem
    · exact path
    · exact reached w mem
  have most := (Set.ncard_le_ncard inside).trans fits
  rwa [Set.ncard_coe_finset,List.toFinset_card_of_nodup (List.nodup_cons.2 ⟨new,consistent.nodup⟩),List.length_cons] at most

theorem Consistent.push {a : Analysis count E D} (fits : a.Fits) (consistent : wl.Consistent)
    (reached : ∀ w ∈ wl.vertices, a.Reached w) (path : a.Reached v) :
    (wl.push v).Consistent ∧ ∀ w, w ∈ (wl.push v).vertices ↔ w = v ∨ w ∈ wl.vertices := by
  by_cases known : v ∈ wl.vertices
  · rw [consistent.push_known known]
    exact ⟨consistent,fun w => ⟨.inr,by rintro (rfl | mem); exacts [known,mem]⟩⟩
  · obtain ⟨pushed,consistent⟩ := consistent.push_new known (consistent.room fits reached path known)
    exact ⟨consistent,fun w => by rw [pushed,List.mem_cons]⟩

theorem push_last (last : wl.vertices.getLast? = some w) : (wl.push v).vertices.getLast? = some w := by
  unfold push
  split
  · exact last
  split
  · rw [List.getLast?_cons,last]
    rfl
  · exact last

theorem Consistent.pop (consistent : wl.Consistent) (waiting : wl.vertices = v :: rest) :
    (⟨rest,wl.set.clear v,wl.failed⟩ : WorkList count).Consistent ∧ v ∉ rest := by
  obtain ⟨fits,bits,nodup⟩ := consistent
  rw [waiting] at bits nodup
  obtain ⟨absent,nodup⟩ := List.nodup_cons.1 nodup
  refine ⟨⟨fits,?_,nodup⟩,absent⟩
  have bits := bits.clear v
  rwa [show Function.update (fun w => decide (w ∈ v :: rest)) v false = fun w => decide (w ∈ rest) by
    funext w; by_cases same : w = v <;> simp [same,absent]] at bits

theorem Consistent.reverse (consistent : wl.Consistent) : ({ wl with vertices := wl.vertices.reverse } : WorkList count).Consistent :=
  ⟨consistent.fits,by simpa using consistent.bits,List.nodup_reverse.2 consistent.nodup⟩

end WorkList

section
variable {a : Analysis count E D}
variable (driver : WorkListDriver count E D) {list : WorkList count}

/-- What `next` does: the exits are thrown away, and the first other vertex is the current one. -/
theorem nextFrom_spec {set : BitVector count} {vertices : List (Fin count)}
    (consistent : (⟨vertices,set,driver.list.failed⟩ : WorkList count).Consistent) :
    let driver' := nextFrom a driver set vertices
    driver'.map = driver.map ∧ driver'.list.Consistent ∧ (∀ w ∈ driver'.list.vertices, w ∈ vertices) ∧
      ((∃ v ∈ vertices, v ≠ a.exit ∧ driver'.cur = some v ∧ driver'.ended = driver.ended ∧
          driver'.list.vertices.length < vertices.length ∧ ∀ w ∈ vertices, w = a.exit ∨ w = v ∨ w ∈ driver'.list.vertices) ∨
        driver'.ended = true ∧ driver'.list.vertices = [] ∧ ∀ w ∈ vertices, w = a.exit) := by
  induction vertices generalizing driver set with
  | nil => exact ⟨rfl,consistent,by simp [nextFrom],.inr ⟨rfl,rfl,by simp⟩⟩
  | cons v rest ih =>
    obtain ⟨popped,-⟩ := consistent.pop rfl
    by_cases last : v = a.exit
    · simp only [nextFrom,last,ne_eq,not_true,if_false]
      rw [last] at popped
      obtain ⟨map,consistent,kept,result⟩ := ih { driver with cur := some a.exit } popped
      refine ⟨map,consistent,fun w mem => .tail _ (kept w mem),?_⟩
      rcases result with ⟨v',mem,other,cur,ended,shorter,all⟩ | ⟨ended,empty,all⟩
      · refine .inl ⟨v',.tail _ mem,other,cur,ended,shorter.trans (Nat.lt_succ_self _),fun w mem => ?_⟩
        rcases List.mem_cons.1 mem with same | mem
        · exact .inl same
        · exact all w mem
      · refine .inr ⟨ended,empty,fun w mem => ?_⟩
        rcases List.mem_cons.1 mem with same | mem
        · exact same
        · exact all w mem
    · simp only [nextFrom,ne_eq,last,not_false_eq_true,if_true]
      refine ⟨trivial,popped,fun w mem => .tail _ mem,.inl ⟨v,.head _,last,rfl,trivial,Nat.lt_succ_self _,fun w mem => ?_⟩⟩
      rcases List.mem_cons.1 mem with same | mem
      · exact .inr (.inl same)
      · exact .inr (.inr mem)

/-- An exit at the end of the list stays there until the driver ends. -/
theorem nextFrom_last {set : BitVector count} {vertices : List (Fin count)}
    (last : vertices.getLast? = some a.exit) (running : (nextFrom a driver set vertices).ended = false) :
    (nextFrom a driver set vertices).list.vertices.getLast? = some a.exit := by
  induction vertices generalizing driver set with
  | nil => cases last
  | cons v rest ih =>
    by_cases exits : v = a.exit
    · simp only [nextFrom,exits,ne_eq,not_true,if_false] at running ⊢
      cases rest with
      | nil => cases running
      | cons w rest => exact ih _ (by simpa using last) running
    · simp only [nextFrom,ne_eq,exits,not_false_eq_true,if_true]
      cases rest with
      | nil => exact absurd (Option.some.inj last) exits
      | cons w rest => simpa using last

theorem pushTargets_last {list : WorkList count} (succs : List E) {w : Fin count} (last : list.vertices.getLast? = some w) :
    (pushTargets a list succs).vertices.getLast? = some w := by
  induction succs generalizing list with
  | nil => exact last
  | cons s succs ih => exact ih (WorkList.push_last last)

theorem pushTargets_spec {list : WorkList count} (fits : a.Fits) (consistent : list.Consistent)
    (reached : ∀ v ∈ list.vertices, a.Reached v) (succs : List E) (paths : ∀ e ∈ succs, a.Reached (a.target e)) :
    (pushTargets a list succs).Consistent ∧
      ∀ v, v ∈ (pushTargets a list succs).vertices ↔ v ∈ list.vertices ∨ ∃ e ∈ succs, a.target e = v := by
  induction succs generalizing list with
  | nil => exact ⟨consistent,by simp [pushTargets]⟩
  | cons s succs ih =>
    obtain ⟨path,paths⟩ := List.forall_mem_cons.1 paths
    obtain ⟨consistent,pushed⟩ := consistent.push fits reached path
    obtain ⟨consistent,all⟩ := ih consistent (fun v mem => ((pushed v).1 mem).elim (fun same => by rwa [same]) (reached v)) paths
    refine ⟨consistent,fun v => ?_⟩
    rw [pushTargets,List.foldl_cons,← pushTargets,all,pushed]
    simp only [List.mem_cons,exists_eq_or_imp,eq_comm (a := v)]
    tauto

theorem pushTargets_failed {list : WorkList count} (failed : list.failed = true) (succs : List E) :
    (pushTargets a list succs).failed = true := by
  induction succs generalizing list with
  | nil => exact failed
  | cons s succs ih =>
    refine ih (show (list.push (a.target s)).failed = true from ?_)
    unfold WorkList.push
    split
    · exact failed
    split
    · exact failed
    · rfl

/-- More new vertices than the vector of the list has room for. -/
theorem pushTargets_full (consistent : list.Consistent) {succs : List E}
    (nodup : (succs.map a.target).Nodup) (new : ∀ e ∈ succs, a.target e ∉ list.vertices)
    (within : list.vertices.length ≤ vectorLimit) (full : vectorLimit < list.vertices.length + succs.length) :
    (pushTargets a list succs).failed = true := by
  induction succs generalizing list with
  | nil => exact absurd full (Nat.not_lt.mpr within)
  | cons s succs ih =>
    obtain ⟨fresh,new⟩ := List.forall_mem_cons.1 new
    obtain ⟨alone,nodup⟩ := List.nodup_cons.1 nodup
    by_cases room : list.vertices.length < vectorLimit
    · obtain ⟨pushed,consistent⟩ := consistent.push_new fresh room
      refine ih consistent nodup (fun e mem known => ?_) ?_ ?_
      · rcases List.mem_cons.1 (pushed ▸ known) with same | known
        · exact alone (same ▸ List.mem_map_of_mem mem)
        · exact new e mem known
      · rw [pushed,List.length_cons]
        exact room
      · rw [pushed,List.length_cons]
        rw [List.length_cons] at full
        omega
    · refine pushTargets_failed (show (list.push (a.target s)).failed = true from ?_) succs
      have bit := consistent.bits.bit (a.target s)
      rw [WorkList.push,if_neg (by simpa [fresh] using bit),if_neg room]

theorem nextFrom_failed (set : BitVector count) (vertices : List (Fin count)) :
    (nextFrom a driver set vertices).list.failed = driver.list.failed := by
  induction vertices generalizing driver set with
  | nil => rfl
  | cons v rest ih =>
    unfold nextFrom
    split
    · rfl
    · exact ih _ _

/-! ### The vertices of changeAll -/

theorem reached_ne (noEntry : ∀ e ∈ a.edges, a.target e ≠ a.entry) {v : Fin count} (reached : a.Reached v) : v ≠ a.entry := by
  cases reached with
  | single edge => obtain ⟨e,mem,-,rfl⟩ := edge; exact noEntry e mem
  | tail _ edge => obtain ⟨e,mem,-,rfl⟩ := edge; exact noEntry e mem

theorem collectTargets_spec {list : WorkList count} (fits : a.Fits) (consistent : list.Consistent)
    (reached : ∀ v ∈ list.vertices, a.Reached v) (todo : List (Fin count)) (succs : List E)
    (paths : ∀ e ∈ succs, a.Reached (a.target e)) :
    ∃ new, (collectTargets a list todo succs).1.vertices = new ++ list.vertices ∧ (collectTargets a list todo succs).2 = new ++ todo ∧
      (collectTargets a list todo succs).1.Consistent ∧ (∀ v ∈ new, ∃ e ∈ succs, a.target e = v) ∧
      ∀ e ∈ succs, a.target e ∈ new ++ list.vertices := by
  induction succs generalizing list todo with
  | nil => exact ⟨[],rfl,rfl,consistent,by simp,by simp⟩
  | cons s succs ih =>
    obtain ⟨path,paths⟩ := List.forall_mem_cons.1 paths
    rw [collectTargets,consistent.contains]
    by_cases known : a.target s ∈ list.vertices
    · rw [if_pos (by simpa using known)]
      obtain ⟨new,vertices,others,consistent,found,all⟩ := ih consistent reached todo paths
      refine ⟨new,vertices,others,consistent,fun v mem => ?_,fun e mem => ?_⟩
      · obtain ⟨e,among,rfl⟩ := found v mem
        exact ⟨e,.tail _ among,rfl⟩
      · rcases List.mem_cons.1 mem with rfl | mem
        · exact List.mem_append_right _ known
        · exact all e mem
    · rw [if_neg (by simpa using known)]
      obtain ⟨pushed,consistent⟩ := consistent.push_new known (consistent.room fits reached path known)
      obtain ⟨new,vertices,others,consistent,found,all⟩ := ih consistent
        (fun v mem => (List.mem_cons.1 (pushed ▸ mem)).elim (fun same => by rwa [same]) (reached v)) (a.target s :: todo) paths
      rw [pushed] at vertices all
      refine ⟨new ++ [a.target s],by simp [vertices],by simp [others],consistent,fun v mem => ?_,fun e mem => ?_⟩
      · rcases List.mem_append.1 mem with mem | mem
        · obtain ⟨e,among,rfl⟩ := found v mem
          exact ⟨e,.tail _ among,rfl⟩
        · exact ⟨s,.head _,(List.mem_singleton.1 mem).symm⟩
      · rcases List.mem_cons.1 mem with rfl | mem
        · simp
        · simpa using all e mem

structure Collects (a : Analysis count E D) (list : WorkList count) (todo : List (Fin count)) : Prop where
  consistent : list.Consistent
  reached : ∀ v ∈ list.vertices, a.Reached v
  known : ∀ v ∈ todo, v = a.entry ∨ v ∈ list.vertices
  covered : ∀ v, v = a.entry ∨ v ∈ list.vertices → v ∈ todo ∨ ∀ e ∈ a.outs v, a.target e ∈ list.vertices

theorem Collects.paths {v : Fin count} {todo : List (Fin count)} (collects : Collects a list (v :: todo)) :
    ∀ e ∈ a.outs v, a.Reached (a.target e) := by
  intro e out
  obtain ⟨mem,leaves⟩ := mem_outs.1 out
  have edge : a.Edge v (a.target e) := ⟨e,mem,leaves,rfl⟩
  rcases collects.known v (.head _) with rfl | mem
  · exact .single edge
  · exact (collects.reached v mem).tail edge

theorem Collects.step (fits : a.Fits) {list : WorkList count} {v : Fin count} {todo : List (Fin count)}
    (collects : Collects a list (v :: todo)) :
    Collects a (collectTargets a list todo (a.outs v)).1 (collectTargets a list todo (a.outs v)).2 := by
  obtain ⟨new,vertices,others,consistent,found,all⟩ :=
    collectTargets_spec fits collects.consistent collects.reached todo (a.outs v) collects.paths
  refine ⟨consistent,fun w mem => ?_,fun w mem => ?_,fun w known => ?_⟩
  · rw [vertices] at mem
    rcases List.mem_append.1 mem with mem | mem
    · obtain ⟨e,out,rfl⟩ := found w mem
      exact collects.paths e out
    · exact collects.reached w mem
  · rw [others] at mem
    rw [vertices]
    rcases List.mem_append.1 mem with mem | mem
    · exact .inr (List.mem_append_left _ mem)
    · exact (collects.known w (.tail _ mem)).imp_right (List.mem_append_right _)
  · rw [vertices] at known ⊢
    rw [others]
    by_cases fresh : w ∈ new
    · exact .inl (List.mem_append_left _ fresh)
    · have before : w = a.entry ∨ w ∈ list.vertices := known.imp_right fun mem => (List.mem_append.1 mem).resolve_left fresh
      rcases collects.covered w before with mem | covered
      · rcases List.mem_cons.1 mem with rfl | mem
        · exact .inr all
        · exact .inl (List.mem_append_right _ mem)
      · exact .inr fun e mem => List.mem_append_right _ (covered e mem)

theorem Collects.mem_iff (collects : Collects a list []) (v : Fin count) :
    v ∈ list.vertices ↔ a.Reached v := by
  refine ⟨collects.reached v,fun path => ?_⟩
  have closed : ∀ w, w = a.entry ∨ w ∈ list.vertices → ∀ x, a.Edge w x → x ∈ list.vertices := by
    rintro w known x ⟨e,mem,leaves,rfl⟩
    exact (collects.covered w known).resolve_left (by simp) e (mem_outs.2 ⟨mem,leaves⟩)
  induction path with
  | single edge => exact closed a.entry (.inl rfl) _ edge
  | tail path edge ih => exact closed _ (.inr ih) _ edge

/-- With a turn for each vertex and for the entry the loop ends, with the vertices that are reached. -/
theorem collect_spec (fits : a.Fits) {todo : List (Fin count)} {k : Nat} (collects : Collects a list todo)
    (enough : todo.length + (count - list.vertices.length) ≤ k) :
    ∃ list', collect a k list todo = some list' ∧ list'.Consistent ∧ ∀ v, v ∈ list'.vertices ↔ a.Reached v := by
  induction k generalizing list todo with
  | zero =>
    obtain rfl : todo = [] := List.eq_nil_of_length_eq_zero (by omega)
    exact ⟨list,rfl,collects.consistent,collects.mem_iff⟩
  | succ k ih =>
    cases todo with
    | nil => exact ⟨list,rfl,collects.consistent,collects.mem_iff⟩
    | cons v todo =>
      have next := collects.step fits
      refine ih next ?_
      obtain ⟨new,vertices,others,-⟩ :=
        collectTargets_spec fits collects.consistent collects.reached todo (a.outs v) collects.paths
      have bounded := next.consistent.nodup.length_le_card
      rw [Fintype.card_fin,vertices,List.length_append] at bounded
      rw [vertices,others,List.length_append,List.length_append]
      rw [List.length_cons] at enough
      omega

private theorem collectTargets_last (todo : List (Fin count)) (succs : List E) {w : Fin count}
    (last : list.vertices.getLast? = some w) : (collectTargets a list todo succs).1.vertices.getLast? = some w := by
  induction succs generalizing list todo with
  | nil => exact last
  | cons s succs ih =>
    rw [collectTargets]
    split
    · exact ih todo last
    · exact ih _ (WorkList.push_last last)

private theorem collect_last {list list' : WorkList count} {todo : List (Fin count)} {k : Nat} {w : Fin count}
    (collected : collect a k list todo = some list') (last : list.vertices.getLast? = some w) :
    list'.vertices.getLast? = some w := by
  induction k generalizing list todo with
  | zero =>
    cases todo with
    | nil => exact Option.some.inj collected ▸ last
    | cons => cases collected
  | succ k ih =>
    cases todo with
    | nil => exact Option.some.inj collected ▸ last
    | cons v todo => exact ih collected (collectTargets_last todo _ last)

/-- `changeAll` when no vertex waits and the first successor of the entry is not the exit: every vertex
    that is reached is the current one or in the list. -/
theorem changeAll_spec (fits : a.Fits) {driver : WorkListDriver count E D} {k : Nat} {v₀ : Fin count} (consistent : driver.list.Consistent)
    (empty : driver.list.vertices = []) (first : (a.outs a.entry).head?.map a.target ≠ some a.exit) (reached₀ : a.Reached v₀)
    (enough : count < k) :
    ∃ driver' v, changeAll a k driver = some driver' ∧ driver'.map = driver.map ∧ driver'.list.Consistent ∧
      (∀ w ∈ driver'.list.vertices, a.Reached w) ∧ a.Reached v ∧ v ≠ a.exit ∧ driver'.cur = some v ∧
      driver'.ended = driver.ended ∧ ∀ w, a.Reached w → w = v ∨ w ∈ driver'.list.vertices := by
  have start : Collects a ⟨[],driver.list.set,driver.list.failed⟩ [a.entry] := by
    refine ⟨⟨consistent.fits,?_,List.nodup_nil⟩,by simp,by simp,fun v known => .inl ?_⟩
    · simpa [empty] using consistent.bits
    · simpa using known
  obtain ⟨list,collected,consistent',reached⟩ := collect_spec fits (k := k) start (by simp; omega)
  obtain ⟨s,succs,outs⟩ : ∃ s succs, a.outs a.entry = s :: succs := by
    cases outs : a.outs a.entry with
    | cons s succs => exact ⟨s,succs,rfl⟩
    | nil =>
      have last := (reached v₀).2 reached₀
      obtain ⟨k,rfl⟩ : ∃ k', k = k' + 1 := ⟨k - 1,by omega⟩
      rw [collect,outs] at collected
      cases k <;> obtain rfl := Option.some.inj collected <;> cases last
  rw [outs,List.head?_cons,Option.map_some,ne_eq,Option.some.injEq] at first
  have last : list.vertices.getLast? = some (a.target s) := by
    obtain ⟨k,rfl⟩ : ∃ k', k = k' + 1 := ⟨k - 1,by omega⟩
    rw [collect,outs] at collected
    refine collect_last collected ?_
    change (collectTargets a ⟨[],driver.list.set,driver.list.failed⟩ [] (s :: succs)).1.vertices.getLast? = _
    rw [collectTargets,start.consistent.contains,if_neg (by simp)]
    refine collectTargets_last _ _ ?_
    rw [(start.consistent.push_new (v := a.target s) (by simp) (Nat.two_pow_pos 15)).1]
    rfl
  obtain ⟨pre,vertices⟩ := List.getLast?_eq_some_iff.1 last
  have reversed : list.vertices.reverse = a.target s :: pre.reverse := by rw [vertices,List.reverse_append]; rfl
  have popped := (consistent'.reverse.pop reversed).1
  have moved : next a { driver with list := { list with vertices := list.vertices.reverse } } =
      { driver with list := ⟨pre.reverse,list.set.clear (a.target s),list.failed⟩, cur := some (a.target s) } := by
    rw [next]
    dsimp only
    rw [reversed]
    exact if_pos first
  refine ⟨{ driver with list := ⟨pre.reverse,list.set.clear (a.target s),list.failed⟩, cur := some (a.target s) },a.target s,
    by rw [changeAll,collected,Option.map_some,moved],rfl,popped,fun w mem => ?_,?_,first,rfl,rfl,fun w path => ?_⟩
  · exact (reached w).1 (by rw [vertices]; exact List.mem_append_left _ (List.mem_reverse.1 mem))
  · exact (reached _).1 (by rw [vertices]; simp)
  · have mem := (reached w).2 path
    rw [vertices,List.mem_append,List.mem_singleton] at mem
    exact mem.symm.imp_right List.mem_reverse.2

end

section
variable {a : Analysis count E D}

theorem setVertex_eq [DecidableEq E] (map : E → D) (v : Fin count) (s : D) (e : E) :
    setVertex a map v s e = if e ∈ a.outs v then s else map e := by
  rw [setVertex]
  induction a.outs v generalizing map with
  | nil => simp
  | cons edge rest ih =>
    rw [List.foldl_cons,ih,Function.update_apply]
    by_cases same : e = edge <;> simp [same]

private theorem foldl_sup_mono [SemilatticeSup D] {map map' : E → D} (edges : List E) {s s' : D} (below : s ≤ s') (le : ∀ e, map e ≤ map' e) :
    edges.foldl (fun s pred => s ⊔ map pred) s ≤ edges.foldl (fun s pred => s ⊔ map' pred) s' := by
  induction edges generalizing s s' with
  | nil => exact below
  | cons e rest ih => exact ih (sup_le_sup below (le e))

variable [SemilatticeSup D] [OrderBot D]

theorem input_mono {map map' : E → D} (le : ∀ e, map e ≤ map' e) (v : Fin count) : input a map v ≤ input a map' v :=
  foldl_sup_mono _ le_rfl le

theorem input_congr {map map' : E → D} {v : Fin count} (same : ∀ e ∈ a.edges, a.target e = v → map e = map' e) :
    input a map v = input a map' v :=
  List.foldl_ext _ _ _ fun s e mem => by rw [same e (mem_ins.1 mem).1 (mem_ins.1 mem).2]

theorem input_bot {map : E → D} {v : Fin count} (bot : ∀ e ∈ a.edges, a.target e = v → map e = ⊥) : input a map v = ⊥ := by
  rw [show input a map v = input a (fun _ => ⊥) v from input_congr bot,input]
  simp

theorem input_update [DecidableEq E] {map : E → D} {edge : E} {s : D} {v : Fin count} (other : a.target edge ≠ v) :
    input a (Function.update map edge s) v = input a map v :=
  input_congr fun e _ enters => Function.update_of_ne (by rintro rfl; exact other enters) _ _

/-! ### The invariant of the loop -/

def Loop.Todo (l : Loop count E D) (v : Fin count) : Prop :=
  v ∈ l.driver.list.vertices ∨ (l.driver.cur = some v ∧ l.taken = false ∧ l.driver.ended = false)

/-- A vertex that has not been put in the list at the start, or by the last `changeAll`. -/
def Analysis.Missed (a : Analysis count E D) (called : Bool) (v : Fin count) : Prop :=
  if called then ¬a.Reached v else ¬a.Edge a.entry v

structure Inv (a : Analysis count E D) (called : Bool) (l : Loop count E D) : Prop where
  consistent : l.driver.list.Consistent
  reached : ∀ v ∈ l.driver.list.vertices, a.Reached v
  -- an exit that is the first successor of the entry stays at the end of the list
  last : (a.outs a.entry).head?.map a.target = some a.exit → l.driver.ended = false → l.driver.list.vertices.getLast? = some a.exit
  current : l.driver.ended = false → ∃ v, l.driver.cur = some v ∧ a.Reached v ∧ v ≠ a.exit
  stopped : l.driver.ended = true → l.driver.list.vertices = [] ∧ l.pending = [] ∧ l.taken = false
  ascends : ∀ e ∈ a.edges, a.source e ≠ a.entry → l.driver.map e ≤ a.update e (input a l.driver.map (a.source e))
  checked : ∀ e s, (e,s) ∈ l.pending → (e ∈ a.edges ∧ a.Reached (a.source e) ∧ a.source e ≠ a.exit) ∧ l.driver.map e ≤ s ∧
    s ≤ a.update e (input a l.driver.map (a.source e)) ∧ (s = a.update e (input a l.driver.map (a.source e)) ∨ l.Todo (a.source e))
  single : ∀ e s s', (e,s) ∈ l.pending → (e,s') ∈ l.pending → s = s'
  covered : ∀ e ∈ a.edges, a.source e ≠ a.entry → a.source e ≠ a.exit →
    l.driver.map e = a.update e (input a l.driver.map (a.source e)) ∨ l.Todo (a.source e) ∨ (∃ s, (e,s) ∈ l.pending) ∨
      l.driver.map e = ⊥ ∧ input a l.driver.map (a.source e) = ⊥ ∧ a.Missed called (a.source e)

variable {called : Bool} {driver : WorkListDriver count E D} {edge : E} {s : D} {rest : List (E × D)} {taken : Bool}

/-- The driver goes on once the outputs of its vertex are checked. -/
theorem Inv.next (inv : Inv a called ⟨driver,[],true⟩) : Inv a called ⟨Ai.next a driver,[],false⟩ := by
  have running : driver.ended = false := by
    cases ended : driver.ended with
    | false => rfl
    | true =>
      have idle := (inv.stopped ended).2.2
      cases idle
  obtain ⟨map,consistent,kept,result⟩ := nextFrom_spec (a := a) driver inv.consistent
  change (Ai.next a driver).map = _ at map
  refine ⟨consistent,fun v mem => inv.reached v (kept v mem),fun first going => nextFrom_last driver (inv.last first running) going,
    fun going => ?_,fun ended => ⟨?_,rfl,rfl⟩,?_,by simp,by simp,fun e mem noEntry noExit => ?_⟩
  · rcases result with ⟨v,mem,other,cur,-⟩ | ⟨ended,-⟩
    · exact ⟨v,cur,inv.reached v mem,other⟩
    · exact absurd (ended.symm.trans going) (by simp)
  · rcases result with ⟨v,-,-,-,same,-⟩ | ⟨-,empty,-⟩
    · exact absurd (running.symm.trans (same.symm.trans ended)) (by simp)
    · exact empty
  · dsimp only
    rw [map]
    exact inv.ascends
  · dsimp only
    rw [map]
    rcases inv.covered e mem noEntry noExit with stable | (waiting | ⟨-,idle,-⟩) | ⟨s',pending⟩ | missed
    · exact .inl stable
    · refine .inr (.inl ?_)
      rcases result with ⟨v,-,-,cur,same,-,all⟩ | ⟨-,-,all⟩
      · rcases all _ waiting with last | rfl | waiting
        · exact absurd last noExit
        · exact .inr ⟨cur,rfl,same.trans running⟩
        · exact .inl waiting
      · exact absurd (all _ waiting) noExit
    · cases idle
    · cases pending
    · exact .inr (.inr (.inr missed))

theorem Inv.take {v : Fin count} (noEntry : ∀ e ∈ a.edges, a.target e ≠ a.entry) (inv : Inv a called ⟨driver,[],false⟩)
    (running : driver.ended = false) (cur : driver.cur = some v) :
    Inv a called ⟨driver,(a.outs v).map fun e => (e,a.update e (input a driver.map v)),true⟩ := by
  obtain ⟨v',cur',reached,inner⟩ := inv.current running
  obtain rfl : v = v' := Option.some.inj (cur.symm.trans cur')
  refine ⟨inv.consistent,inv.reached,inv.last,inv.current,fun ended => ?_,inv.ascends,fun e s pending => ?_,fun e s s' pending pending' => ?_,
    fun e mem other noExit => ?_⟩
  · exact absurd (running.symm.trans ended) (by simp)
  · obtain ⟨e',out,same⟩ := List.mem_map.1 pending
    obtain ⟨rfl,rfl⟩ := Prod.ext_iff.1 same
    obtain ⟨mem,rfl⟩ := mem_outs.1 out
    exact ⟨⟨mem,reached,inner⟩,inv.ascends _ mem (reached_ne noEntry reached),le_rfl,.inl rfl⟩
  · obtain ⟨e₁,-,same⟩ := List.mem_map.1 pending
    obtain ⟨e₂,-,same'⟩ := List.mem_map.1 pending'
    obtain ⟨rfl,rfl⟩ := Prod.ext_iff.1 same
    obtain ⟨rfl,rfl⟩ := Prod.ext_iff.1 same'
    rfl
  · rcases inv.covered e mem other noExit with stable | (waiting | ⟨here,-⟩) | ⟨s',pending⟩ | missed
    · exact .inl stable
    · exact .inr (.inl (.inl waiting))
    · refine .inr (.inr (.inl ⟨_,List.mem_map.2 ⟨e,mem_outs.2 ⟨mem,?_⟩,rfl⟩⟩))
      exact Option.some.inj (here.symm.trans cur)
    · cases pending
    · exact .inr (.inr (.inr missed))

theorem Inv.running {l : Loop count E D} (inv : Inv a called l) (going : ¬l.Finished) : l.driver.ended = false := by
  cases ended : l.driver.ended with
  | false => rfl
  | true =>
    obtain ⟨-,none,idle⟩ := inv.stopped ended
    exact absurd ⟨none,idle,ended⟩ going

theorem Inv.call (fits : a.Fits) {k : Nat} {l : Loop count E D} (inv : Inv a called l) (going : ¬l.Finished)
    (empty : l.driver.list.vertices = []) (enough : count < k) :
    ∃ l', Ai.call a k l = some l' ∧ Inv a true l' ∧ ∀ w, a.Reached w → l'.driver.cur = some w ∨ w ∈ l'.driver.list.vertices := by
  have running := inv.running going
  obtain ⟨v₀,cur₀,reached₀,-⟩ := inv.current running
  have first : (a.outs a.entry).head?.map a.target ≠ some a.exit := fun first => by
    have last := inv.last first running
    rw [empty] at last
    cases last
  obtain ⟨driver',v,all,map,consistent,reached,path,inner,cur,same,waiting⟩ := changeAll_spec fits inv.consistent empty first reached₀ enough
  have todo : ∀ w, a.Reached w → (⟨driver',l.pending,false⟩ : Loop count E D).Todo w := by
    intro w path
    rcases waiting w path with rfl | waiting
    · exact .inr ⟨cur,rfl,same.trans running⟩
    · exact .inl waiting
  refine ⟨⟨driver',l.pending,false⟩,by rw [Ai.call,all]; rfl,⟨consistent,reached,fun exits => absurd exits first,
    fun _ => ⟨v,cur,path,inner⟩,fun ended => ?_,?_,fun e s pending => ?_,inv.single,fun e mem noEntry noExit => ?_⟩,
    fun w path => (todo w path).symm.imp_left And.left⟩
  · exact absurd (running.symm.trans (same.symm.trans ended)) (by simp)
  · dsimp only
    rw [map]
    exact inv.ascends
  · obtain ⟨known,below,above,-⟩ := inv.checked e s pending
    dsimp only
    rw [map]
    exact ⟨known,below,above,.inr (todo _ known.2.1)⟩
  · by_cases path : a.Reached (a.source e)
    · exact .inr (.inl (todo _ path))
    · dsimp only
      rw [map]
      rcases inv.covered e mem noEntry noExit with stable | (waiting | ⟨here,-⟩) | ⟨s',pending⟩ | ⟨bot,none,-⟩
      · exact .inl stable
      · exact absurd (inv.reached _ waiting) path
      · obtain rfl : v₀ = a.source e := Option.some.inj (cur₀.symm.trans here)
        exact absurd reached₀ path
      · exact absurd (inv.checked e s' pending).1.2.1 path
      · exact .inr (.inr (.inr ⟨bot,none,path⟩))

theorem Inv.create [DecidableEq E] (fits : a.Fits) : Inv a false ⟨Ai.create a,[],false⟩ := by
  obtain ⟨consistent,pushed⟩ := pushTargets_spec fits WorkList.consistent_create (by simp [WorkList.create]) (a.outs a.entry)
    fun e out => .single ⟨e,(mem_outs.1 out).1,(mem_outs.1 out).2,rfl⟩
  have first : ∀ v, v ∈ (pushTargets a (.create count) (a.outs a.entry)).vertices ↔ a.Edge a.entry v := by
    intro v
    rw [pushed]
    simp [WorkList.create,GenGraph.Edge,mem_outs,and_assoc]
  obtain ⟨map,consistent,kept,result⟩ := nextFrom_spec (a := a)
    ⟨setVertex a (setVertex a (fun _ => ⊥) a.entry a.init) a.entry a.init,_,none,false⟩ consistent
  change (Ai.create a).map = _ at map
  have outside : ∀ e, a.source e ≠ a.entry → (Ai.create a).map e = ⊥ := fun e other => by
    rw [map]
    simp [setVertex_eq,mem_outs,other]
  refine ⟨consistent,fun v mem => .single ((first v).1 (kept v mem)),fun exits going => ?_,fun going => ?_,fun ended => ⟨?_,rfl,rfl⟩,
    fun e _ other => ?_,by simp,by simp,fun e mem other noExit => ?_⟩
  · refine nextFrom_last _ ?_ going
    obtain ⟨s,succs,outs⟩ : ∃ s succs, a.outs a.entry = s :: succs := by
      cases outs : a.outs a.entry with
      | cons s succs => exact ⟨s,succs,rfl⟩
      | nil => simp [outs] at exits
    rw [outs,List.head?_cons,Option.map_some] at exits
    rw [outs,← exits]
    refine pushTargets_last succs ?_
    rw [(WorkList.consistent_create.push_new (v := a.target s) (by simp [WorkList.create]) (Nat.two_pow_pos 15)).1]
    rfl
  · rcases result with ⟨v,mem,inner,cur,-⟩ | ⟨ended,-⟩
    · exact ⟨v,cur,.single ((first v).1 mem),inner⟩
    · exact absurd (ended.symm.trans going) (by simp)
  · rcases result with ⟨v,-,-,-,same,-⟩ | ⟨-,empty,-⟩
    · exact absurd (same.symm.trans ended) (by simp)
    · exact empty
  · exact (outside e other).trans_le bot_le
  · by_cases edge : a.Edge a.entry (a.source e)
    · refine .inr (.inl ?_)
      rcases result with ⟨v,-,-,cur,same,-,all⟩ | ⟨-,-,all⟩
      · rcases all _ ((first _).2 edge) with last | rfl | waiting
        · exact absurd last noExit
        · exact .inr ⟨cur,rfl,same⟩
        · exact .inl waiting
      · exact absurd (all _ ((first _).2 edge)) noExit
    · refine .inr (.inr (.inr ⟨outside e other,input_bot fun e' mem' enters => outside e' fun leaves => edge ?_,edge⟩))
      exact ⟨e',mem',leaves,enters⟩

variable [DecidableEq E] [DecidableEq D]

theorem Inv.check (fits : a.Fits) (mono : ∀ e, Monotone (a.update e)) (inv : Inv a called ⟨driver,(edge,s) :: rest,taken⟩) :
    Inv a called ⟨Ai.check a driver edge s,rest,taken⟩ := by
  obtain ⟨⟨known,reached,inner⟩,below,above,right⟩ := inv.checked edge s (.head _)
  have running : driver.ended ≠ true := fun ended => by
    have none := (inv.stopped ended).2.1
    cases none
  by_cases same : s = driver.map edge
  · rw [Ai.check,if_pos same]
    refine ⟨inv.consistent,inv.reached,inv.last,inv.current,fun ended => absurd ended running,inv.ascends,
      fun e s' mem => inv.checked e s' (.tail _ mem),fun e s s' mem mem' => inv.single e s s' (.tail _ mem) (.tail _ mem'),
      fun e mem noEntry noExit => ?_⟩
    rcases inv.covered e mem noEntry noExit with stable | todo | ⟨s',pending⟩ | missed
    · exact .inl stable
    · exact .inr (.inl todo)
    · rcases List.mem_cons.1 pending with first | pending
      · obtain ⟨rfl,rfl⟩ := Prod.ext_iff.1 first
        exact right.imp (fun right => same ▸ right) .inl
      · exact .inr (.inr (.inl ⟨s',pending⟩))
    · exact .inr (.inr (.inr missed))
  · rw [Ai.check,if_neg same]
    have path : a.Reached (a.target edge) := reached.tail ⟨edge,known,rfl,rfl⟩
    obtain ⟨consistent,pushed⟩ := inv.consistent.push fits inv.reached path
    have grows : ∀ e, driver.map e ≤ Function.update driver.map edge s e := fun e => by
      rw [Function.update_apply]
      split
      case isTrue here => rw [here]; exact below
      case isFalse => exact le_rfl
    have inputs := input_mono (a := a) grows
    -- a vertex with another input waits
    have waits : ∀ v, a.target edge = v ∨ (⟨driver,(edge,s) :: rest,taken⟩ : Loop count E D).Todo v →
        (⟨{ driver with map := Function.update driver.map edge s, list := driver.list.push (a.target edge) },rest,taken⟩ : Loop count E D).Todo v := by
      rintro v (rfl | mem | current)
      · exact .inl ((pushed _).2 (.inl rfl))
      · exact .inl ((pushed v).2 (.inr mem))
      · exact .inr current
    have others : ∀ v, input a (Function.update driver.map edge s) v = input a driver.map v ∨ a.target edge = v := fun v => by
      by_cases target : a.target edge = v
      · exact .inr target
      · exact .inl (input_update target)
    refine ⟨consistent,fun v mem => ?_,fun first going => WorkList.push_last (inv.last first going),inv.current,
      fun ended => absurd ended running,fun e mem noEntry => ?_,fun e s' pending => ?_,
      fun e s s' mem mem' => inv.single e s s' (.tail _ mem) (.tail _ mem'),fun e mem noEntry noExit => ?_⟩
    · rcases (pushed v).1 mem with rfl | mem
      · exact path
      · exact inv.reached v mem
    · dsimp only
      rw [Function.update_apply]
      split
      case isTrue here => rw [here]; exact above.trans (mono edge (inputs _))
      case isFalse => exact (inv.ascends e mem noEntry).trans (mono e (inputs _))
    · obtain ⟨known',below',above',right'⟩ := inv.checked e s' (.tail _ pending)
      refine ⟨known',?_,above'.trans (mono e (inputs _)),?_⟩
      · dsimp only
        rw [Function.update_apply]
        split
        case isTrue here => rw [inv.single e s s' (by rw [here]; exact .head _) (.tail _ pending)]
        case isFalse => exact below'
      · rcases others (a.source e) with kept | target
        · dsimp only
          rw [kept]
          exact right'.imp_right fun todo => waits _ (.inr todo)
        · exact .inr (waits _ (.inl target))
    · rcases others (a.source e) with kept | target
      · dsimp only
        rw [kept]
        by_cases here : e = edge
        · rw [here,Function.update_self]
          exact right.imp_right fun todo => .inl (waits _ (.inr todo))
        · rw [Function.update_of_ne here]
          rcases inv.covered e mem noEntry noExit with stable | todo | ⟨s',pending⟩ | missed
          · exact .inl stable
          · exact .inr (.inl (waits _ (.inr todo)))
          · refine .inr (.inr (.inl ⟨s',(List.mem_cons.1 pending).resolve_left fun first => here ?_⟩))
            exact congrArg Prod.fst first
          · exact .inr (.inr (.inr missed))
      · exact .inr (.inl (waits _ (.inl target)))

theorem Inv.step (fits : a.Fits) (mono : ∀ e, Monotone (a.update e)) (noEntry : ∀ e ∈ a.edges, a.target e ≠ a.entry) {l : Loop count E D}
    (inv : Inv a called l) : Inv a called (Ai.step a l) := by
  rw [Ai.step,if_neg (by simp [inv.consistent.fits])]
  obtain ⟨driver,pending,taken⟩ := l
  cases pending with
  | cons first rest => exact inv.check fits mono
  | nil =>
    cases taken with
    | true => exact inv.next
    | false =>
      simp only [Bool.false_eq_true,if_false]
      cases ended : driver.ended with
      | true => exact inv
      | false =>
        obtain ⟨v,cur,-⟩ := inv.current ended
        dsimp only at cur
        simp only [Bool.false_eq_true,if_false,cur]
        exact inv.take noEntry ended cur

theorem Run.inv (fits : a.Fits) {k : Nat} {l : Loop count E D} (mono : ∀ e, Monotone (a.update e)) (noEntry : ∀ e ∈ a.edges, a.target e ≠ a.entry)
    (enough : count < k) (run : Run a k called l) : Inv a called l := by
  induction run with
  | start => exact .create fits
  | step _ inv => exact inv.step fits mono noEntry
  | call _ going empty called inv =>
    obtain ⟨l',called',inv',-⟩ := inv.call fits going empty enough
    obtain rfl := Option.some.inj (called'.symm.trans called)
    exact inv'

/-- What a step makes go down: the values go up, or the list gets shorter, or the current vertex is
    taken, or an output is checked. -/
def Loop.rank (a : Analysis count E D) (l : Loop count E D) : ({e // e ∈ a.edges} → D) × Nat × Nat × Nat :=
  (fun e => l.driver.map e,l.driver.list.vertices.length + (if l.driver.ended then 0 else 1),(if l.taken then 0 else 1),l.pending.length)

def Below : ({e // e ∈ a.edges} → D) × Nat × Nat × Nat → ({e // e ∈ a.edges} → D) × Nat × Nat × Nat → Prop :=
  Prod.Lex (· > ·) (Prod.Lex (· < ·) (Prod.Lex (· < ·) (· < ·)))

omit [OrderBot D] [DecidableEq D] in
theorem below_wellFounded [WellFoundedGT D] : WellFounded (Below (a := a)) := by
  have values : WellFoundedLT ({e // e ∈ a.edges} → Dᵒᵈ) := inferInstance
  have ups : WellFounded fun f g : {e // e ∈ a.edges} → D => f > g := 
    InvImage.wf (fun (f : {e // e ∈ a.edges} → D) e => OrderDual.toDual (f e)) values.wf
  exact ups.prod_lex (Nat.lt_wfRel.wf.prod_lex (Nat.lt_wfRel.wf.prod_lex Nat.lt_wfRel.wf))

theorem step_below {l : Loop count E D} (inv : Inv a called l) (going : ¬l.Finished) : Below ((Ai.step a l).rank a) (l.rank a) := by
  have running := inv.running going
  have whole := inv.consistent.fits
  obtain ⟨driver,pending,taken⟩ := l
  dsimp only at running whole
  cases pending with
  | cons first rest =>
    obtain ⟨edge,s⟩ := first
    obtain ⟨⟨known,-⟩,below,-⟩ := inv.checked edge s (.head _)
    dsimp only at below
    have checked : Ai.step a ⟨driver,(edge,s) :: rest,taken⟩ = ⟨Ai.check a driver edge s,rest,taken⟩ :=
      if_neg (by simp [whole])
    rw [checked,Ai.check]
    by_cases same : s = driver.map edge
    · simp only [if_pos same]
      exact .right _ (.right _ (.right _ (Nat.lt_succ_self _)))
    · simp only [if_neg same]
      refine .left _ _ (Pi.lt_def.2 ⟨fun e => ?_,⟨edge,known⟩,?_⟩)
      · by_cases here : e.1 = edge
        · simpa [Loop.rank,here] using below
        · simp [here]
      · simpa [Loop.rank] using lt_of_le_of_ne below (Ne.symm same)
  | nil =>
    cases taken with
    | true =>
      obtain ⟨map,-,-,result⟩ := nextFrom_spec (a := a) driver inv.consistent
      change (Ai.next a driver).map = _ at map
      simp only [Ai.step,whole,Bool.false_eq_true,if_false,if_true,Loop.rank,map]
      refine .right _ (.left _ _ ?_)
      rcases result with ⟨v,-,-,-,same,shorter,-⟩ | ⟨ended,empty,-⟩
      · change (Ai.next a driver).ended = _ at same
        rw [same]
        exact Nat.add_lt_add_right shorter _
      · change (Ai.next a driver).ended = _ at ended
        change (Ai.next a driver).list.vertices = _ at empty
        simp [ended,empty,running]
    | false =>
      obtain ⟨v,cur,-⟩ := inv.current running
      dsimp only at cur
      simp only [Ai.step,whole,Bool.false_eq_true,if_false,running,cur,Loop.rank]
      exact .right _ (.right _ (.left _ _ Nat.zero_lt_one))

theorem Inv.ends [WellFoundedGT D] (fits : a.Fits) (mono : ∀ e, Monotone (a.update e)) (noEntry : ∀ e ∈ a.edges, a.target e ≠ a.entry)
    {l : Loop count E D} (inv : Inv a called l) : ∃ n, ((Ai.step a)^[n] l).Finished := by
  induction l using (InvImage.wf (Loop.rank a) below_wellFounded).induction with
  | h l ih =>
    by_cases finished : l.Finished
    · exact ⟨0,finished⟩
    · obtain ⟨n,finished⟩ := ih _ (step_below inv finished) (inv.step fits mono noEntry)
      exact ⟨n + 1,finished⟩

omit [DecidableEq E] [DecidableEq D] in
/-- Where the loop ends no value of an edge would change, but for the edges of vertices that no value has
    reached. -/
theorem Inv.stable {l : Loop count E D} (inv : Inv a called l) (finished : l.Finished) :
    ∀ e ∈ a.edges, a.source e ≠ a.entry → a.source e ≠ a.exit →
      l.driver.map e = a.update e (input a l.driver.map (a.source e)) ∨
        l.driver.map e = ⊥ ∧ input a l.driver.map (a.source e) = ⊥ ∧ a.Missed called (a.source e) := by
  obtain ⟨nothing,-,ended⟩ := finished
  intro e mem noEntry noExit
  rcases inv.covered e mem noEntry noExit with stable | (waiting | ⟨-,-,running⟩) | ⟨s,pending⟩ | missed
  · exact .inl stable
  · rw [(inv.stopped ended).1] at waiting
    cases waiting
  · exact absurd (running.symm.trans ended) (by simp)
  · rw [nothing] at pending
    cases pending
  · exact .inr missed

/-- When no edge enters the entry and the vector of the list has room for the vertices, every run in
    which `changeAll` is only called while no vertex waits fails no assertion and ends with values that
    would not change, apart from those of the vertices that were never put in the list, which are still
    the bottom, and each such call leaves every vertex that is reached the current one or in the list. -/
theorem loop_stable [WellFoundedGT D] (a : Analysis count E D) (k : Nat) (called : Bool) (l : Loop count E D) (fits : a.Fits)
    (mono : ∀ e, Monotone (a.update e)) (noEntry : ∀ e ∈ a.edges, a.target e ≠ a.entry) (enough : count < k) (run : Run a k called l) :
    l.driver.list.failed = false ∧ (∃ n, ((Ai.step a)^[n] l).Finished) ∧
      (l.Finished → ∀ e ∈ a.edges, a.source e ≠ a.entry → a.source e ≠ a.exit →
        l.driver.map e = a.update e (input a l.driver.map (a.source e)) ∨
          l.driver.map e = ⊥ ∧ input a l.driver.map (a.source e) = ⊥ ∧ a.Missed called (a.source e)) ∧
      (¬l.Finished → l.driver.list.vertices = [] → ∃ l', Ai.call a k l = some l' ∧
        ∀ w, a.Reached w → l'.driver.cur = some w ∨ w ∈ l'.driver.list.vertices) := by
  have inv := run.inv fits mono noEntry enough
  refine ⟨inv.consistent.fits,inv.ends fits mono noEntry,inv.stable,fun going empty => ?_⟩
  obtain ⟨l',called,-,all⟩ := inv.call fits going empty enough
  exact ⟨l',called,all⟩

end

/-- A path from the entry to the exit, with a call of `changeAll` before the first vertex is taken. -/
theorem loop_stable_called :
    let a : Analysis 3 (Fin 2) Bool := ⟨⟨[0,1],Fin.castSucc,Fin.succ⟩,0,2,true,fun _ s => s⟩
    ∃ l, call a 4 ⟨create a,[],false⟩ = some l ∧ l.driver.list.failed = false ∧ (∃ n, ((step a)^[n] l).Finished) ∧
      (l.Finished → ∀ e ∈ a.edges, a.source e ≠ a.entry → a.source e ≠ a.exit →
        l.driver.map e = a.update e (input a l.driver.map (a.source e)) ∨
          l.driver.map e = ⊥ ∧ input a l.driver.map (a.source e) = ⊥ ∧ a.Missed true (a.source e)) ∧
      (¬l.Finished → l.driver.list.vertices = [] → ∃ l', call a 4 l = some l' ∧
        ∀ w, a.Reached w → l'.driver.cur = some w ∨ w ∈ l'.driver.list.vertices) := by
  intro a
  have going : ¬(⟨create a,[],false⟩ : Loop 3 (Fin 2) Bool).Finished := by
    rintro ⟨-,-,ended⟩
    exact absurd ended (by decide)
  obtain ⟨l,called⟩ := Option.isSome_iff_exists.1 (show (call a 4 ⟨create a,[],false⟩).isSome = true by decide)
  have fits : a.Fits := (Set.ncard_le_card _).trans (by simp [vectorLimit])
  exact ⟨l,called,loop_stable a 4 true l fits (fun _ => monotone_id) (by decide) (by decide) (.call .start going (by decide) called)⟩

/-- An update that is not strict leaves the edges of a vertex that no value has reached, as these of the
    entry and of the exit; an entry on a cycle may be computed for ever; a vertex that waits when
    `changeAll` is called is lost; and the constructor fails for an entry with too many successors. -/
theorem loop_unstable :
    (let a : Analysis 5 (Fin 4) Bool := ⟨⟨[0,1,2,3],Fin.castSucc,Fin.succ⟩,0,3,false,fun e _ => e ≠ 1⟩
      let l := (step a)^[3] ⟨create a,[],false⟩
      l.Finished ∧ ∀ e ∈ [0,2,3], l.driver.map e ≠ a.update e (input a l.driver.map (a.source e))) ∧
    (let a : Analysis 3 (Fin 2) (Bool × Bool) :=
        ⟨⟨[0,1],Fin.castSucc,fun e => if e = 0 then 1 else 0⟩,0,2,(true,false),fun e s => if e = 0 then s.swap else s⟩
      ∀ n, ¬((step a)^[n] ⟨create a,[],false⟩).Finished) ∧
    (let a : Analysis 4 (Fin 3) Bool := ⟨⟨[0,1,2],fun e => if e = 2 then 1 else 0,Fin.succ⟩,0,3,true,fun _ s => s⟩
      ∃ l, call a 5 ⟨create a,[],false⟩ = some l ∧ a.Reached 1 ∧ l.driver.cur ≠ some 1 ∧ 1 ∉ l.driver.list.vertices ∧
        ((step a)^[2] l).Finished ∧ ((step a)^[2] l).driver.map 2 ≠ a.update 2 (input a ((step a)^[2] l).driver.map 1)) ∧
    ∀ n, vectorLimit < n → (create (⟨⟨List.finRange n,fun _ => 0,Fin.succ⟩,0,Fin.last n,true,fun _ s => s⟩ :
      Analysis (n + 1) (Fin n) Bool)).list.failed = true := by
  refine ⟨⟨⟨rfl,rfl,rfl⟩,by decide⟩,?_,?_,?_⟩
  · intro a
    have sameBits : ∀ v w : BitVector 3, v.bits = w.bits → v = w := by
      rintro ⟨_,_⟩ ⟨_,_⟩ rfl
      rfl
    have again : (step a)^[18] ⟨create a,[],false⟩ = (step a)^[6] ⟨create a,[],false⟩ :=
      Loop.ext (WorkListDriver.ext (by decide) (WorkList.ext (by decide) (sameBits _ _ (by decide)) (by decide)) (by decide) (by decide))
        (by decide) (by decide)
    have before : ∀ n, ∃ m < 18, (step a)^[n] ⟨create a,[],false⟩ = (step a)^[m] ⟨create a,[],false⟩ := by
      intro n
      induction n with
      | zero => exact ⟨0,by decide,rfl⟩
      | succ n ih =>
        obtain ⟨m,inside,same⟩ := ih
        rw [Function.iterate_succ_apply',same]
        by_cases last : m = 17
        · exact ⟨6,by decide,by rw [last,← Function.iterate_succ_apply' (step a)]; exact again⟩
        · exact ⟨m + 1,by omega,(Function.iterate_succ_apply' ..).symm⟩
    have running : ∀ m < 18, ((step a)^[m] ⟨create a,[],false⟩).driver.ended = false := by decide
    rintro n ⟨-,-,ended⟩
    obtain ⟨m,inside,same⟩ := before n
    rw [same,running m inside] at ended
    cases ended
  · intro a
    have seen : (call a 5 ⟨create a,[],false⟩).map (fun l => let l' := (step a)^[2] l
        (l.driver.cur,l.driver.list.vertices,l'.pending,l'.taken,l'.driver.ended,l'.driver.map 2,input a l'.driver.map 1)) =
        some (some 2,[],[],false,true,false,true) := by unfold a; rfl
    obtain ⟨l,called,seen⟩ := Option.map_eq_some_iff.1 seen
    simp only [Prod.mk.injEq] at seen
    obtain ⟨cur,waiting,pending,taken,ended,value,entering⟩ := seen
    refine ⟨l,called,.single ⟨0,by decide,rfl,rfl⟩,by rw [cur]; decide,by rw [waiting]; simp,⟨pending,taken,ended⟩,?_⟩
    rw [value,entering]
    decide
  · intro n full
    rw [create,next,nextFrom_failed]
    refine pushTargets_full WorkList.consistent_create ?_ (by simp [WorkList.create]) (Nat.zero_le _) ?_
    · simp [GenGraph.outs,List.nodup_map_iff (Fin.succ_injective n),List.nodup_finRange]
    · simpa [GenGraph.outs,WorkList.create] using full

end Otawa.Ai
