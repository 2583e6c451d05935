import Otawa.StackValue

/-!
The states of the stack analysis: the values of the registers and of the memory words
that are known, sorted by address. `equals` compares the places that are known but not
what is known of them, and `join` drops a word whose value becomes unknown, which is
then read again from the program image.
-/
namespace Otawa.Stack
open Otawa.SortedAssoc (find store intersect Sorted)

/-! ### The program image -/

abbrev Memory := Word → BitVec 8

def Memory.half (bytes : Memory) (bigEndian : Bool) (a : Word) : BitVec 16 :=
  if bigEndian then bytes a ++ bytes (a + 1) else bytes (a + 1) ++ bytes a

def Memory.word (bytes : Memory) (bigEndian : Bool) (a : Word) : Word :=
  if bigEndian then bytes.half true a ++ bytes.half true (a + 2)
  else bytes.half false (a + 2) ++ bytes.half false a

structure Segment where
  address : Word
  size : Word

def Segment.topAddress (seg : Segment) : Word := seg.address + seg.size

def Segment.contains (seg : Segment) (addr : Word) : Bool :=
  decide (seg.address ≤ addr) && decide (addr < seg.topAddress)

/-- The files of a process with their segments, and what its memory holds at the start. -/
structure Process where
  files : List (List Segment)
  bigEndian : Bool
  bytes : Memory

def Process.inImage (proc : Process) (addr : Word) : Bool := proc.files.any fun file => file.any (·.contains addr)

/-! ### The states -/

/-- `State`: the value of what is not recorded and the recorded values. -/
@[ext]
structure State where
  first : Value
  nodes : List (Value × Value)
  default : first = Value.none ∨ first = Value.all
  empty : first = Value.none → nodes = []
  sorted : Sorted nodes
  known : ∀ node ∈ nodes, node.1.kind ≠ .all ∧ node.2.kind ≠ .all

namespace State

def FULL : State := ⟨Value.all,[],.inr rfl,fun _ => rfl,.nil,by simp⟩

/-- `set` on a known address; an unknown value is forgotten. -/
def record (s : State) (addr val : Value) (live : s.first ≠ Value.none) (exact : addr.kind ≠ .all) : State where
  first := s.first
  nodes := store s.nodes addr (if val.kind ≠ .all then some val else none)
  default := s.default
  empty gone := absurd gone live
  sorted := SortedAssoc.store_sorted s.sorted addr _
  known node member := by
    rcases SortedAssoc.mem_store member with ⟨entry,rfl⟩ | old
    · split at entry
      next kept => cases entry; exact ⟨exact,kept⟩
      next => cases entry
    · exact s.known node old

/-- `set` on an unknown address: the nodes up to the last stack offset are kept. -/
def forget (s : State) (live : s.first ≠ Value.none) : State where
  first := s.first
  nodes := s.nodes.takeWhile fun node => decide (node.1.kind.index ≤ Kind.sp.index)
  default := s.default
  empty gone := absurd gone live
  sorted := s.sorted.sublist (List.takeWhile_sublist _)
  known node member := s.known node ((List.takeWhile_sublist _).subset member)

def set (s : State) (addr val : Value) : State :=
  if live : s.first = Value.none then s
  else if exact : addr.kind = .all then s.forget live
  else s.record addr val live exact

/-- The walk of `equals`: a value is compared with itself. -/
def equalsNodes : List (Value × Value) → List (Value × Value) → Bool
  | (a,v) :: cur,(b,_) :: cur2 =>
    if a ≠ b then false
    else if v ≠ v then false
    else equalsNodes cur cur2
  | [],[] => true
  | _,_ => false

def equals (s t : State) : Bool :=
  if s.first.kind ≠ t.first.kind then false else equalsNodes s.nodes t.nodes

def joinNode (v w : Value) : Option (Option Value) := some (if (v.join w).kind = .all then none else some (v.join w))

/-- The walk of `join` over the two lists. -/
def joinNodes (s t : List (Value × Value)) : List (Value × Value) := (intersect joinNode s t).getD []

private theorem joinNodes_spec (s t : State) :
    Sorted (joinNodes s.nodes t.nodes) ∧
      ∀ a u, (a,u) ∈ joinNodes s.nodes t.nodes ↔
        ∃ v w, (a,v) ∈ s.nodes ∧ (a,w) ∈ t.nodes ∧ u = v.join w ∧ (v.join w).kind ≠ .all := by
  have spec := SortedAssoc.intersect_spec joinNode s.sorted t.sorted
  unfold joinNodes
  cases walk : intersect joinNode s.nodes t.nodes with
  | none =>
    rw [walk] at spec
    obtain ⟨_,_,_,_,_,failed⟩ := spec
    cases failed
  | some u =>
    rw [walk] at spec
    obtain ⟨sorted,entries,_⟩ := spec
    refine ⟨sorted,fun a r => (entries a r).trans ?_⟩
    refine exists_congr fun v => exists_congr fun w => and_congr_right fun _ => and_congr_right fun _ => ?_
    rw [joinNode]
    split
    next gone => simp [gone]
    next kept => simp [kept,eq_comm]

def join (s t : State) : State :=
  if t.first = Value.none then s
  else if live : s.first = Value.none then t
  else {
    first := s.first
    nodes := joinNodes s.nodes t.nodes
    default := s.default
    empty := fun gone => absurd gone live
    sorted := (joinNodes_spec s t).1
    known := fun node member => by
      obtain ⟨v,w,left,_,same,kept⟩ := ((joinNodes_spec s t).2 node.1 node.2).mp member
      exact ⟨(s.known _ left).1,same ▸ kept⟩ }

def fromImage (s : State) (proc : Process) (addr : Word) (size : Nat) : Value :=
  match size with
  | 1 => ⟨.cst,(proc.bytes addr).setWidth 32⟩
  | 2 => ⟨.cst,(proc.bytes.half proc.bigEndian addr).setWidth 32⟩
  | 4 => ⟨.cst,proc.bytes.word proc.bigEndian addr⟩
  | _ => s.first

def get (s : State) (proc : Process) (addr : Value) (size : Nat) : Value :=
  match find s.nodes addr with
  | some val => val
  | none => if addr.kind = .cst ∧ proc.inImage addr.value then s.fromImage proc addr.value size else s.first

end State

structure Machine where
  reg : Word → Word
  mem : Word → Word

def Value.IsPlace (addr : Value) : Prop := addr.kind = .reg ∨ addr.kind = .sp ∨ addr.kind = .cst

/-- The word at a place, the stack starting at `base`. -/
def Machine.read (m : Machine) (base : Word) (addr : Value) : Word :=
  match addr.kind with
  | .reg => m.reg addr.value
  | .sp => m.mem (base + addr.value)
  | _ => m.mem addr.value

namespace State
variable {proc : Process} {base : Word} {s t : State} {a u v w : Value} {m : Machine}

def Covers (proc : Process) (base : Word) (s : State) (m : Machine) : Prop :=
  ∀ addr : Value, addr.IsPlace → Value.Has base (s.get proc addr 4) (m.read base addr)

/-- What `get` answers for an address that is not recorded. -/
def unrecorded (s : State) (proc : Process) (addr : Value) (size : Nat) : Value :=
  if addr.kind = .cst ∧ proc.inImage addr.value then s.fromImage proc addr.value size else s.first

theorem get_recorded (member : (a,v) ∈ s.nodes) (size : Nat) : s.get proc a size = v := by
  rw [get,(SortedAssoc.find_eq_some_iff s.sorted).mpr member]

theorem get_unrecorded (absent : ∀ v, (a,v) ∉ s.nodes) (size : Nat) :
    s.get proc a size = s.unrecorded proc a size := by
  rw [get]
  cases search : find s.nodes a with
  | none => rfl
  | some v => exact absurd ((SortedAssoc.find_eq_some_iff s.sorted).mp search) (absent v)

theorem unrecorded_congr (same : s.first = t.first) (size : Nat) :
    s.unrecorded proc a size = t.unrecorded proc a size := by
  simp only [unrecorded,fromImage,same]

theorem not_covers_of_bottom (bottom : s.first = Value.none) : ¬Covers proc base s m := by
  intro covers
  have word := covers ⟨.reg,0⟩ (.inl rfl)
  rw [get_unrecorded (by simp [s.empty bottom]),unrecorded,if_neg (by simp),bottom] at word
  exact word

theorem nodes_unique (left : (a,v) ∈ s.nodes) (right : (a,w) ∈ s.nodes) : v = w := by
  rw [← SortedAssoc.find_eq_some_iff s.sorted] at left right
  exact Option.some.inj (left.symm.trans right)

/-- The same places are recorded on both sides. -/
def SamePlaces (s t : State) : Prop := s.first.kind = t.first.kind ∧ s.nodes.map Prod.fst = t.nodes.map Prod.fst

private theorem equalsNodes_iff {cur cur2 : List (Value × Value)} :
    equalsNodes cur cur2 = true ↔ cur.map Prod.fst = cur2.map Prod.fst := by
  fun_induction equalsNodes cur cur2 with
  | case1 _ _ _ _ _ _ different => simp [different]
  | case2 _ _ _ _ _ _ _ different => exact absurd rfl different
  | case3 _ _ _ _ _ _ same _ ih => simpa [not_not.mp same] using ih
  | case4 => simp
  | case5 cur cur2 neither one =>
    cases cur with
    | nil => cases cur2 <;> simp_all
    | cons => cases cur2 with
      | nil => simp
      | cons => exact (neither _ _ _ _ _ _ rfl rfl).elim

theorem equals_iff : s.equals t = true ↔ SamePlaces s t := by
  unfold equals SamePlaces
  split
  next different => simp [different]
  next same => simp [not_not.mp same,equalsNodes_iff]

theorem first_eq_of_kind (same : s.first.kind = t.first.kind) : s.first = t.first := by
  rcases s.default with left | left <;> rcases t.default with right | right <;>
    simp_all [Value.none,Value.all]

/-- Two states give the same value for every register and every word of memory. -/
def Agree (proc : Process) (s t : State) : Prop :=
  ∀ addr : Value, addr.IsPlace → ∀ size, s.get proc addr size = t.get proc addr size

theorem agree_iff (same : SamePlaces s t) :
    Agree proc s t ↔ ∀ a v w, a.IsPlace → (a,v) ∈ s.nodes → (a,w) ∈ t.nodes → v = w := by
  refine ⟨fun agree a v w place left right => ?_,fun values a place size => ?_⟩
  · have values := agree a place 4
    rwa [get_recorded left,get_recorded right] at values
  · by_cases recorded : a ∈ s.nodes.map Prod.fst
    · have recorded' := same.2 ▸ recorded
      obtain ⟨⟨_,v⟩,left,rfl⟩ := List.mem_map.mp recorded
      obtain ⟨⟨b,w⟩,right,placed⟩ := List.mem_map.mp recorded'
      cases placed
      rw [get_recorded left,get_recorded right,values _ v w place left right]
    · have absent (v : Value) : (a,v) ∉ s.nodes := fun member => recorded (List.mem_map_of_mem member)
      have absent' (v : Value) : (a,v) ∉ t.nodes := fun member =>
        recorded (same.2 ▸ List.mem_map_of_mem member)
      rw [get_unrecorded absent,get_unrecorded absent',unrecorded_congr (first_eq_of_kind same.1)]

theorem mem_join (liveS : s.first ≠ Value.none) (liveT : t.first ≠ Value.none) :
    (a,u) ∈ (s.join t).nodes ↔ ∃ v w, (a,v) ∈ s.nodes ∧ (a,w) ∈ t.nodes ∧ u = v.join w ∧ (v.join w).kind ≠ .all := by
  rw [join,if_neg liveT,dif_neg liveS]
  exact (joinNodes_spec s t).2 a u

theorem first_join (liveS : s.first ≠ Value.none) (liveT : t.first ≠ Value.none) : (s.join t).first = s.first := by
  rw [join,if_neg liveT,dif_neg liveS]

theorem live_all (live : s.first ≠ Value.none) : s.first = Value.all := s.default.resolve_left live

theorem live_of_covers (covers : Covers proc base s m) : s.first ≠ Value.none :=
  fun bottom => not_covers_of_bottom bottom covers

theorem covers_join_comm (covers : Covers proc base (s.join t) m) : Covers proc base (t.join s) m := by
  by_cases liveS : s.first = Value.none
  · by_cases liveT : t.first = Value.none
    · rw [join,if_pos liveT] at covers
      exact absurd covers (not_covers_of_bottom liveS)
    · rw [join,if_neg liveT,dif_pos liveS] at covers
      rwa [join,if_pos liveS]
  · by_cases liveT : t.first = Value.none
    · rw [join,if_pos liveT] at covers
      rwa [join,if_neg liveS,dif_pos liveT]
    · intro a place
      have word := covers a place
      by_cases recorded : ∃ u, (a,u) ∈ (s.join t).nodes
      · obtain ⟨u,member⟩ := recorded
        rw [get_recorded member] at word
        obtain ⟨v,w,left,right,same,kept⟩ := (mem_join liveS liveT).mp member
        rw [Value.join_comm] at same kept
        rwa [get_recorded ((mem_join liveT liveS).mpr ⟨w,v,right,left,same,kept⟩)]
      · rw [get_unrecorded fun u member => recorded ⟨u,member⟩] at word
        have absent (u : Value) : (a,u) ∉ (t.join s).nodes := fun member => by
          obtain ⟨w,v,right,left,same,kept⟩ := (mem_join liveT liveS).mp member
          rw [Value.join_comm] at same kept
          exact recorded ⟨u,(mem_join liveS liveT).mpr ⟨v,w,left,right,same,kept⟩⟩
        rw [get_unrecorded absent]
        rwa [unrecorded_congr ((first_join liveT liveS).trans ((live_all liveT).trans
          ((live_all liveS).symm.trans (first_join liveS liveT).symm)))]

/-- What a covering state records on its own is lost without harm: the other side does not
    record nothing, and the image, read in its place, holds the recorded word. -/
def Kept (proc : Process) (base : Word) (s other : State) : Prop :=
  other.first ≠ Value.none → (∃ m, Covers proc base s m) →
    ∀ a v, a.IsPlace → (a,v) ∈ s.nodes → (a,v) ∉ other.nodes →
      (∀ w, (a,w) ∈ other.nodes → w.kind ≠ .none) ∧
      (a.kind = .cst → proc.inImage a.value = true → Value.Has base v (proc.bytes.word proc.bigEndian a.value))

private theorem dropped (liveS : s.first ≠ Value.none) (liveT : t.first ≠ Value.none) (left : (a,v) ∈ s.nodes)
    (present : v.kind ≠ .none) (other : (a,v) ∉ t.nodes) (filled : ∀ w, (a,w) ∈ t.nodes → w.kind ≠ .none) (u : Value) :
    (a,u) ∉ (s.join t).nodes := by
  intro member
  obtain ⟨v',w,left',right,_,kept⟩ := (mem_join liveS liveT).mp member
  obtain rfl := nodes_unique left left'
  have different : v ≠ w := fun same => other (same ▸ right)
  exact kept (by rw [Value.join_of_ne different present (filled w right)])

theorem covers_join (kept : Kept proc base s t) (covers : Covers proc base s m) : Covers proc base (s.join t) m := by
  have liveS := live_of_covers covers
  by_cases liveT : t.first = Value.none
  · rwa [join,if_pos liveT]
  · intro a place
    have word := covers a place
    by_cases recorded : ∃ v, (a,v) ∈ s.nodes
    · obtain ⟨v,left⟩ := recorded
      rw [get_recorded left] at word
      by_cases both : (a,v) ∈ t.nodes
      · have member : (a,v) ∈ (s.join t).nodes :=
          (mem_join liveS liveT).mpr ⟨v,v,left,both,by simp,by simpa using (s.known _ left).2⟩
        rwa [get_recorded member]
      · obtain ⟨filled,image⟩ := kept liveT ⟨m,covers⟩ a v place left both
        have present : v.kind ≠ .none := fun gone => by simp [Value.Has,gone] at word
        rw [get_unrecorded (dropped liveS liveT left present both filled),unrecorded]
        split
        next inside =>
          rw [word.unique (image inside.1 inside.2) (s.known _ left).2]
          exact rfl
        next => rw [first_join liveS liveT,live_all liveS]; trivial
    · have absent (v : Value) : (a,v) ∉ s.nodes := fun member => recorded ⟨v,member⟩
      have absent' (u : Value) : (a,u) ∉ (s.join t).nodes := fun member => by
        obtain ⟨v,_,left,_⟩ := (mem_join liveS liveT).mp member
        exact absent v left
      rw [get_unrecorded absent] at word
      rwa [get_unrecorded absent',unrecorded_congr (first_join liveS liveT)]

theorem kept_of_covers (keeps : ∀ m, Covers proc base s m → Covers proc base (s.join t) m) : Kept proc base s t := by
  rintro liveT ⟨m,covers⟩ a v place left other
  have liveS := live_of_covers covers
  have before := covers a place
  have after := keeps m covers a place
  rw [get_recorded left] at before
  have present : v.kind ≠ .none := fun gone => by simp [Value.Has,gone] at before
  have filled (w : Value) (right : (a,w) ∈ t.nodes) : w.kind ≠ .none := fun gone => by
    have different : v ≠ w := fun same => other (same ▸ right)
    have nothing := Value.join_of_none different (s.known _ left).2 gone
    rw [get_recorded ((mem_join liveS liveT).mpr ⟨v,w,left,right,nothing.symm,by simp [nothing]⟩)] at after
    exact after
  refine ⟨filled,fun absolute inside => ?_⟩
  rw [get_unrecorded (dropped liveS liveT left present other filled),unrecorded,if_pos ⟨absolute,inside⟩] at after
  exact (show m.read base a = proc.bytes.word proc.bigEndian a.value from after) ▸ before

/-- `DefaultFixPoint::fixPoint` after the first turn of a loop: whether the loop is declared
    stable, and the new header state. -/
def fixPoint (headerState entryEdgeUnion backEdgeUnion : State) : Bool × State :=
  let newHeaderState := entryEdgeUnion.join backEdgeUnion
  (newHeaderState.equals headerState,newHeaderState)

/-- Equal states agree, and a loop declared stable has the header state of the turn before,
    exactly when no place recorded in both states has two values. A join keeps what both
    operands cover exactly when each one loses nothing to the other. -/
theorem equals_join_iff (proc : Process) (base : Word) (s t : State) :
    ((s.equals t = true → Agree proc s t) ∧
        (∀ entry back, fixPoint t entry back = (true,s) → Agree proc s t) ↔
      (SamePlaces s t → ∀ a v w, a.IsPlace → (a,v) ∈ s.nodes → (a,w) ∈ t.nodes → v = w)) ∧
    ((∀ m, Covers proc base s m ∨ Covers proc base t m → Covers proc base (s.join t) m) ↔
      Kept proc base s t ∧ Kept proc base t s) := by
  refine ⟨⟨fun ⟨faithful,_⟩ same => (agree_iff same).mp (faithful (equals_iff.mpr same)),fun values => ⟨fun equal => ?_,?_⟩⟩,
    ⟨fun keeps => ⟨kept_of_covers fun m covers => keeps m (.inl covers),?_⟩,?_⟩⟩
  · exact (agree_iff (equals_iff.mp equal)).mpr (values (equals_iff.mp equal))
  · rintro entry back turn
    obtain ⟨equal,rfl⟩ := Prod.mk.injEq .. ▸ turn
    exact (agree_iff (equals_iff.mp equal)).mpr (values (equals_iff.mp equal))
  · exact kept_of_covers fun m covers => covers_join_comm (keeps m (.inr covers))
  · rintro ⟨left,right⟩ m (covers | covers)
    · exact covers_join left covers
    · exact covers_join_comm (covers_join right covers)

def zeroHolds (k : Word) : State where
  first := Value.all
  nodes := [(⟨.reg,0⟩,⟨.cst,k⟩)]
  default := .inr rfl
  empty := by simp [Value.all,Value.none]
  sorted := List.pairwise_singleton _ _
  known := by simp

/-- The loop of `header: r0 = 1; r0 = 2` is declared stable when 2 replaces 1. -/
theorem equals_ignores_recorded :
    ¬∀ (proc : Process) (s t : State), s.equals t = true → Agree proc s t := by
  intro faithful
  have values := faithful ⟨[],false,fun _ => 0⟩ (zeroHolds 1) (zeroHolds 2) (by decide)
  have same := (agree_iff (equals_iff.mp (by decide))).mp values ⟨.reg,0⟩ ⟨.cst,1⟩ ⟨.cst,2⟩ (.inl rfl)
    (by decide) (by decide)
  exact absurd same (by decide)

end State
end Otawa.Stack
