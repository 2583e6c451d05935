import Mathlib.Data.Nat.Bitwise
import Mathlib.Data.Nat.ModEq

/-!
The queue of `elm::genstruct::VectorQueue`: a ring buffer whose capacity is a power of
two and is doubled when it is full. It behaves as the list of its items, but for the
size of an empty queue, which is the capacity.
-/
namespace Otawa.Queue

variable {T : Type}

/-- `VectorQueue`; a cell of the buffer that was not written yet has no item. -/
structure VectorQueue (T : Type) where
  hd : Nat
  tl : Nat
  cap : Nat
  buffer : Nat → Option T

namespace VectorQueue

def create (capacity : Nat) : VectorQueue T := ⟨0,0,1 <<< capacity,fun _ => none⟩

variable (q : VectorQueue T)

def next (i : Nat) : Nat := (i + 1) &&& (q.cap - 1)

/-- `enlarge`: the part before the end of the ring, then the one from its start. -/
def enlarge : VectorQueue T :=
  if q.hd > q.tl then
    let off := q.cap - q.hd
    ⟨0,off + q.tl,q.cap * 2,
      fun j => if j < off then q.buffer (q.hd + j) else if j - off < q.tl then q.buffer (j - off) else none⟩
  else
    ⟨q.hd,q.tl - q.hd,q.cap * 2,fun j => if q.hd + j < q.tl then q.buffer (q.hd + j) else none⟩

def size : Nat := if q.hd < q.tl then q.tl - q.hd else q.cap - q.hd + q.tl

def isEmpty : Bool := q.hd == q.tl

def put (value : T) : VectorQueue T :=
  if q.next q.tl = q.hd then
    let q := q.enlarge
    { q with buffer := Function.update q.buffer q.tl (some value), tl := q.tl + 1 }
  else { q with buffer := Function.update q.buffer q.tl (some value), tl := q.next q.tl }

/-- `get`, with its assertion. -/
def get : Option (T × VectorQueue T) :=
  if q.hd = q.tl then none else (q.buffer q.hd).map fun value => (value,{ q with hd := q.next q.hd })

/-- `head`, with its assertion. -/
def head : Option T := if q.hd = q.tl then none else q.buffer q.hd

/-- The loop of `contains`, for some turns. -/
def containsFrom [DecidableEq T] (val : T) : Nat → Nat → Option Bool
  | 0, _ => none
  | turns + 1, i =>
    if i = q.tl then some false
    else if q.buffer i = some val then some true
    else containsFrom val turns (q.next i)

def contains [DecidableEq T] (val : T) : Option Bool := q.containsFrom val q.cap q.hd

def reset : VectorQueue T := { q with hd := 0, tl := 0 }

end VectorQueue

structure Holds (q : VectorQueue T) (items : List T) : Prop where
  power : ∃ k, q.cap = 2 ^ k
  inside : q.hd < q.cap
  room : items.length < q.cap
  tail : q.tl = (q.hd + items.length) % q.cap
  cells : ∀ i (h : i < items.length), q.buffer ((q.hd + i) % q.cap) = some items[i]

variable {q : VectorQueue T} {items : List T}

theorem Holds.next_eq (holds : Holds q items) (i : Nat) : q.next i = (i + 1) % q.cap := by
  obtain ⟨k,power⟩ := holds.power
  rw [VectorQueue.next,power,Nat.and_two_pow_sub_one_eq_mod]

private theorem mod_eq_iff {c h i j : Nat} (inside : i < c) (inside' : j < c) : (h + i) % c = (h + j) % c ↔ i = j := by
  constructor
  · intro same
    have := Nat.ModEq.add_left_cancel' h (show h + i ≡ h + j [MOD c] from same)
    rwa [Nat.ModEq,Nat.mod_eq_of_lt inside,Nat.mod_eq_of_lt inside'] at this
  · rintro rfl
    rfl

theorem Holds.head_eq_tail (holds : Holds q items) : q.hd = q.tl ↔ items = [] := by
  have start : q.hd = (q.hd + 0) % q.cap := (Nat.mod_eq_of_lt holds.inside).symm
  rw [holds.tail]
  conv_lhs => lhs; rw [start]
  rw [mod_eq_iff (Nat.zero_lt_of_lt holds.room) holds.room,eq_comm,List.length_eq_zero_iff]

theorem holds_create (capacity : Nat) : Holds (VectorQueue.create capacity : VectorQueue T) [] where
  power := ⟨capacity,Nat.one_shiftLeft capacity⟩
  inside := by
    rw [VectorQueue.create,Nat.one_shiftLeft]
    exact Nat.two_pow_pos capacity
  room := by
    rw [VectorQueue.create,Nat.one_shiftLeft]
    exact Nat.two_pow_pos capacity
  tail := by simp [VectorQueue.create]
  cells i h := absurd h (Nat.not_lt_zero i)

theorem Holds.isEmpty (holds : Holds q items) : q.isEmpty = items.isEmpty := by
  rw [Bool.eq_iff_iff,VectorQueue.isEmpty,beq_iff_eq,holds.head_eq_tail,List.isEmpty_iff]

theorem Holds.size (holds : Holds q items) : q.size = if items = [] then q.cap else items.length := by
  have inside := holds.inside
  have room := holds.room
  rw [VectorQueue.size,holds.tail]
  by_cases empty : items = []
  · rw [if_pos empty,empty,List.length_nil,Nat.add_zero,Nat.mod_eq_of_lt inside,if_neg (Nat.lt_irrefl _)]
    omega
  · have some := List.length_pos_iff.mpr empty
    rw [if_neg empty]
    by_cases wraps : q.hd + items.length < q.cap
    · rw [Nat.mod_eq_of_lt wraps]
      split <;> omega
    · have place : (q.hd + items.length) % q.cap = q.hd + items.length - q.cap := by
        rw [Nat.mod_eq_sub_mod (by omega),Nat.mod_eq_of_lt (by omega)]
      rw [place]
      split <;> omega

theorem Holds.full (holds : Holds q items) : q.next q.tl = q.hd ↔ items.length + 1 = q.cap := by
  have inside := holds.inside
  have room := holds.room
  rw [holds.next_eq,holds.tail,Nat.mod_add_mod,Nat.add_assoc]
  constructor
  · intro same
    by_contra less
    have start : q.hd = (q.hd + 0) % q.cap := (Nat.mod_eq_of_lt inside).symm
    conv_rhs at same => rw [start]
    exact absurd ((mod_eq_iff (by omega) (by omega)).mp same) (Nat.succ_ne_zero _)
  · intro full
    rw [full,Nat.add_mod_right,Nat.mod_eq_of_lt inside]

theorem Holds.enlarge (holds : Holds q items) (full : items.length + 1 = q.cap) :
    Holds q.enlarge items ∧ q.enlarge.tl = items.length ∧ q.enlarge.cap = q.cap * 2 ∧ q.enlarge.hd = 0 := by
  have inside := holds.inside
  obtain ⟨k,power⟩ := holds.power
  have doubled : ∃ k, q.cap * 2 = 2 ^ k := ⟨k + 1,by rw [power,pow_succ]⟩
  have place : q.tl = if q.hd = 0 then items.length else q.hd - 1 := by
    rw [holds.tail]
    split
    · rw [Nat.mod_eq_of_lt (by omega)]
      omega
    · rw [Nat.mod_eq_sub_mod (by omega),Nat.mod_eq_of_lt (by omega)]
      omega
  rw [VectorQueue.enlarge]
  by_cases start : q.hd = 0
  · rw [if_pos start] at place
    rw [if_neg (by omega)]
    refine ⟨⟨doubled,by show q.hd < q.cap * 2; omega,by show _ < q.cap * 2; omega,?_,fun i h => ?_⟩,?_,rfl,start⟩
    · show q.tl - q.hd = (q.hd + items.length) % (q.cap * 2)
      rw [Nat.mod_eq_of_lt (by omega)]
      omega
    · have cell := holds.cells i h
      rw [start,Nat.zero_add,Nat.mod_eq_of_lt (by omega)] at cell
      simp only [start,Nat.zero_add]
      rw [Nat.mod_eq_of_lt (by omega),if_pos (by omega),cell]
    · show q.tl - q.hd = _
      omega
  · rw [if_neg start] at place
    rw [if_pos (by omega)]
    refine ⟨⟨doubled,by show 0 < q.cap * 2; omega,by show _ < q.cap * 2; omega,?_,fun i h => ?_⟩,?_,rfl,rfl⟩
    · show q.cap - q.hd + q.tl = (0 + items.length) % (q.cap * 2)
      rw [Nat.mod_eq_of_lt (by omega)]
      omega
    · have cell := holds.cells i h
      simp only [Nat.zero_add]
      rw [Nat.mod_eq_of_lt (by omega)]
      by_cases first : i < q.cap - q.hd
      · rw [if_pos first,← cell,Nat.mod_eq_of_lt (by omega)]
      · rw [if_neg first,if_pos (by omega),← cell,Nat.mod_eq_sub_mod (by omega),Nat.mod_eq_of_lt (by omega)]
        congr 1
        omega
    · show q.cap - q.hd + q.tl = _
      omega

theorem Holds.put (holds : Holds q items) (value : T) : Holds (q.put value) (items ++ [value]) := by
  have inside := holds.inside
  have room := holds.room
  rw [VectorQueue.put]
  split
  next same =>
    have full := holds.full.mp same
    obtain ⟨wide,tail,cap,head⟩ := holds.enlarge full
    refine ⟨wide.power,wide.inside,?_,?_,fun i h => ?_⟩
    · show _ < q.enlarge.cap
      rw [List.length_append,List.length_singleton]
      omega
    · show q.enlarge.tl + 1 = (q.enlarge.hd + _) % q.enlarge.cap
      rw [List.length_append,List.length_singleton,head,Nat.mod_eq_of_lt (by omega)]
      omega
    · show Function.update q.enlarge.buffer q.enlarge.tl (some value) ((q.enlarge.hd + i) % q.enlarge.cap) = _
      rw [List.length_append,List.length_singleton] at h
      rw [head,Nat.zero_add,Nat.mod_eq_of_lt (by omega)]
      by_cases last : i = items.length
      · rw [List.getElem_concat_length last,last,← tail,Function.update_self]
      · have old : i < items.length := by omega
        have cell := wide.cells i old
        rw [head,Nat.zero_add,Nat.mod_eq_of_lt (by omega)] at cell
        rw [Function.update_of_ne (by omega),cell,List.getElem_append_left old]
  next apart =>
    have space : items.length + 1 ≠ q.cap := fun full => apart (holds.full.mpr full)
    refine ⟨holds.power,inside,?_,?_,fun i h => ?_⟩
    · show _ < q.cap
      rw [List.length_append,List.length_singleton]
      omega
    · show q.next q.tl = (q.hd + _) % q.cap
      rw [holds.next_eq,holds.tail,Nat.mod_add_mod,List.length_append,List.length_singleton,Nat.add_assoc]
    · show Function.update q.buffer q.tl (some value) ((q.hd + i) % q.cap) = _
      rw [List.length_append,List.length_singleton] at h
      by_cases last : i = items.length
      · rw [List.getElem_concat_length last,last,← holds.tail,Function.update_self]
      · have old : i < items.length := by omega
        have differ : (q.hd + i) % q.cap ≠ q.tl := by
          rw [holds.tail,Ne,mod_eq_iff (by omega) room]
          exact last
        rw [Function.update_of_ne differ,holds.cells i old,List.getElem_append_left old]

theorem Holds.get {value : T} (holds : Holds q (value :: items)) :
    ∃ q', q.get = some (value,q') ∧ Holds q' items := by
  have inside := holds.inside
  have room := holds.room
  have some : q.hd ≠ q.tl := fun same => List.cons_ne_nil _ _ (holds.head_eq_tail.mp same)
  have first := holds.cells 0 (Nat.zero_lt_succ _)
  rw [Nat.add_zero,Nat.mod_eq_of_lt inside] at first
  have after : q.next q.hd = (q.hd + 1) % q.cap := holds.next_eq _
  refine ⟨{ q with hd := q.next q.hd },?_,holds.power,?_,?_,?_,fun i h => ?_⟩
  · rw [VectorQueue.get,if_neg some,first]
    rfl
  · show q.next q.hd < q.cap
    rw [after]
    exact Nat.mod_lt _ (Nat.zero_lt_of_lt inside)
  · exact Nat.lt_of_succ_lt room
  · show q.tl = (q.next q.hd + items.length) % q.cap
    rw [after,Nat.mod_add_mod,holds.tail,List.length_cons]
    congr 1
    omega
  · show q.buffer ((q.next q.hd + i) % q.cap) = _
    have cell := holds.cells (i + 1) (Nat.succ_lt_succ h)
    rw [after,Nat.mod_add_mod,Nat.add_assoc,Nat.add_comm 1 i,cell]
    rfl

theorem Holds.head {value : T} (holds : Holds q (value :: items)) : q.head = some value := by
  have some : q.hd ≠ q.tl := fun same => List.cons_ne_nil _ _ (holds.head_eq_tail.mp same)
  have first := holds.cells 0 (Nat.zero_lt_succ _)
  rw [Nat.add_zero,Nat.mod_eq_of_lt holds.inside] at first
  rw [VectorQueue.head,if_neg some,first]
  rfl

theorem Holds.reset (holds : Holds q items) : Holds q.reset [] where
  power := holds.power
  inside := Nat.zero_lt_of_lt holds.inside
  room := Nat.zero_lt_of_lt holds.inside
  tail := (Nat.zero_mod _).symm
  cells i h := absurd h (Nat.not_lt_zero i)

theorem Holds.containsFrom [DecidableEq T] (holds : Holds q items) (val : T) {n i turns : Nat} (left : i + n = items.length)
    (enough : n < turns) : q.containsFrom val turns ((q.hd + i) % q.cap) = some (decide (val ∈ items.drop i)) := by
  have room := holds.room
  induction n generalizing i turns with
  | zero =>
    obtain ⟨turns,rfl⟩ := Nat.exists_eq_succ_of_ne_zero (Nat.ne_of_gt enough)
    rw [VectorQueue.containsFrom,if_pos (by rw [holds.tail,← left,Nat.add_zero]),List.drop_eq_nil_of_le (by omega)]
    rfl
  | succ n ih =>
    obtain ⟨turns,rfl⟩ := Nat.exists_eq_succ_of_ne_zero (Nat.ne_of_gt (Nat.zero_lt_of_lt enough))
    have here : i < items.length := by omega
    have differ : (q.hd + i) % q.cap ≠ q.tl := by
      rw [holds.tail,Ne,mod_eq_iff (by omega) room]
      omega
    rw [VectorQueue.containsFrom,if_neg differ,holds.cells i here,List.drop_eq_getElem_cons here]
    split
    next same =>
      have equal := Option.some.inj same
      simp [equal]
    next apart =>
      rw [holds.next_eq,Nat.mod_add_mod,Nat.add_assoc,ih (by omega) (by omega)]
      have other : val ≠ items[i] := fun equal => apart (congrArg some equal.symm)
      simp only [List.mem_cons,other,false_or]

theorem Holds.contains [DecidableEq T] (holds : Holds q items) (val : T) : q.contains val = some (decide (val ∈ items)) := by
  have found := holds.containsFrom val (Nat.zero_add _) holds.room
  rwa [Nat.add_zero,Nat.mod_eq_of_lt holds.inside] at found

inductive Op (T : Type) where
  | put (value : T)
  | get
  | head
  | contains (val : T)
  | isEmpty
  | size
  | reset

/-- What a call answers: `failed` for an assertion, `endless` for a loop that is not left. -/
inductive Answer (T : Type) where
  | done
  | item (value : T)
  | truth (value : Bool)
  | number (value : Nat)
  | failed
  | endless
  deriving DecidableEq

def run {S : Type} (step : S → Op T → Answer T × Option S) : S → List (Op T) → List (Answer T)
  | _, [] => []
  | s, op :: ops =>
    match step s op with
    | (answer,some s) => answer :: run step s ops
    | (answer,none) => [answer]

def step [DecidableEq T] (q : VectorQueue T) : Op T → Answer T × Option (VectorQueue T)
  | .put value => (.done,some (q.put value))
  | .get =>
    match q.get with
    | some (value,q) => (.item value,some q)
    | none => (.failed,none)
  | .head =>
    match q.head with
    | some value => (.item value,some q)
    | none => (.failed,none)
  | .contains val =>
    match q.contains val with
    | some found => (.truth found,some q)
    | none => (.endless,none)
  | .isEmpty => (.truth q.isEmpty,some q)
  | .size => (.number q.size,some q)
  | .reset => (.done,some q.reset)

def fifoStep [DecidableEq T] (items : List T) : Op T → Answer T × Option (List T)
  | .put value => (.done,some (items ++ [value]))
  | .get =>
    match items with
    | value :: items => (.item value,some items)
    | [] => (.failed,none)
  | .head =>
    match items with
    | value :: _ => (.item value,some items)
    | [] => (.failed,none)
  | .contains val => (.truth (decide (val ∈ items)),some items)
  | .isEmpty => (.truth items.isEmpty,some items)
  | .size => (.number items.length,some items)
  | .reset => (.done,some [])

/-- The call does not ask for the size of an empty queue. -/
def SizesSome (items : List T) : Op T → Prop
  | .size => items ≠ []
  | _ => True

/-- No call of the run asks for the size of an empty queue. -/
def AlwaysSizesSome [DecidableEq T] : List T → List (Op T) → Prop
  | _, [] => True
  | items, op :: ops =>
    SizesSome items op ∧
      match fifoStep items op with
      | (_,some items) => AlwaysSizesSome items ops
      | (_,none) => True

theorem Holds.step [DecidableEq T] (holds : Holds q items) (op : Op T) :
    ((Queue.step q op).1 = (fifoStep items op).1 ↔ SizesSome items op) ∧
      ((∃ q' items', (Queue.step q op).2 = some q' ∧ (fifoStep items op).2 = some items' ∧ Holds q' items') ∨
        ((Queue.step q op).2 = none ∧ (fifoStep items op).2 = none)) := by
  cases op with
  | put value => exact ⟨⟨fun _ => trivial,fun _ => rfl⟩,.inl ⟨_,_,rfl,rfl,holds.put value⟩⟩
  | get =>
    cases items with
    | nil =>
      have none : q.get = none := by rw [VectorQueue.get,if_pos (holds.head_eq_tail.mpr rfl)]
      simp [Queue.step,fifoStep,SizesSome,none]
    | cons value items =>
      obtain ⟨q',got,after⟩ := holds.get
      simp [Queue.step,fifoStep,SizesSome,got,after]
  | head =>
    cases items with
    | nil =>
      have none : q.head = none := by rw [VectorQueue.head,if_pos (holds.head_eq_tail.mpr rfl)]
      simp [Queue.step,fifoStep,SizesSome,none]
    | cons value items => simp [Queue.step,fifoStep,SizesSome,holds.head,holds]
  | contains val => simp [Queue.step,fifoStep,SizesSome,holds.contains,holds]
  | isEmpty => simp [Queue.step,fifoStep,SizesSome,holds.isEmpty,holds]
  | size =>
    have cap := Nat.zero_lt_of_lt holds.room
    by_cases empty : items = []
    · subst empty
      simp [Queue.step,fifoStep,SizesSome,holds.size,Nat.ne_of_gt cap,holds]
    · simp [Queue.step,fifoStep,SizesSome,holds.size,empty,holds]
  | reset => exact ⟨⟨fun _ => trivial,fun _ => rfl⟩,.inl ⟨_,_,rfl,rfl,holds.reset⟩⟩

theorem Holds.run_iff [DecidableEq T] (holds : Holds q items) (ops : List (Op T)) :
    run Queue.step q ops = run fifoStep items ops ↔ AlwaysSizesSome items ops := by
  induction ops generalizing q items with
  | nil => exact ⟨fun _ => trivial,fun _ => rfl⟩
  | cons op ops ih =>
    obtain ⟨same,after⟩ := holds.step op
    rw [run,run,AlwaysSizesSome,← same]
    generalize Queue.step q op = ring at after ⊢
    generalize fifoStep items op = list at after ⊢
    obtain ⟨answer,next⟩ := ring
    obtain ⟨answer',next'⟩ := list
    rcases after with ⟨q',items',rfl,rfl,keeps⟩ | ⟨rfl,rfl⟩
    · simp only [List.cons.injEq,ih keeps]
    · simp only [List.cons.injEq,and_true]

/-- A ring that wraps and is enlarged. -/
example : run step (VectorQueue.create 1) [.put 1,.get,.put 2,.put 3,.size,.get,.get,.get] =
    [.done,.item 1,.done,.done,.number 2,.item 2,.item 3,.failed] := by
  decide

end Otawa.Queue
