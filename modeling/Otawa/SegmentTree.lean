import Mathlib.Data.List.Induction
import Otawa.SortedAssoc

/-!
The segment trees of `elm::stree`. The leaves are the segments of a `SegmentBuilder` and
the gaps between them, in ascending order, and the inner nodes are written after them by
halving the interval of the leaves. A look-up takes the end of the last segment for a key
of this segment.
-/
namespace Otawa.SegmentTree
open SortedAssoc (Sorted store sorted_nil sorted_cons find_eq_some_iff find_store_self find_store_other store_sorted)

/-- `Tree::node_t`: a child is none for `null`, the data none before it is written. -/
structure Node (K T : Type) where
  lb : K
  ub : K
  ll : Option Nat
  rl : Option Nat
  data : Option T

abbrev Nodes (K T : Type) := List (Option (Node K T))

variable {K T : Type}

/-- `nodes[i]`, none outside of the array or before the node is initialised. -/
def read (nodes : Nodes K T) (i : Nat) : Option (Node K T) := nodes[i]?.join

def write (nodes : Nodes K T) (i : Nat) (node : Node K T) : Option (Nodes K T) :=
  if i < nodes.length then some (nodes.set i (some node)) else none

def Node.leaf (lb ub : K) (data : T) : Node K T := ⟨lb,ub,none,none,some data⟩

def Node.inner (nodes : Nodes K T) (ll rl : Nat) : Option (Node K T) :=
  (read nodes ll).bind fun l => (read nodes rl).map fun r => ⟨l.lb,r.ub,some ll,some rl,none⟩

/-! ### Tree -/

structure Tree (K T : Type) where
  root : Option Nat
  nodes : Nodes K T

section
variable [LinearOrder K]

/-- `contains`, for the root node. -/
def Node.contains (root : Node K T) (key : K) : Bool := root.lb ≤ key && key ≤ root.ub

/-- The loop of `find`, for some turns: the data of the leaf. -/
def descend (nodes : Nodes K T) (key : K) : Nat → Nat → Option T
  | 0, _ => none
  | turns + 1, i => (read nodes i).bind fun node =>
    match node.ll with
    | none => node.data
    | some left => node.rl.bind fun right => (read nodes right).bind fun upper =>
      descend nodes key turns (if key < upper.lb then left else right)

/-- `find`, with its assertion; the inner none is the null pointer. -/
def Tree.find (tree : Tree K T) (key : K) : Option (Option T) :=
  tree.root.bind fun root => (read tree.nodes root).bind fun node =>
    if node.contains key then (descend tree.nodes key tree.nodes.length root).map some else some none

/-- `get` with a default value. -/
def Tree.get (tree : Tree K T) (key : K) (deflt : T) : Option T :=
  (tree.find key).map fun val => val.getD deflt

end

/-- `msb`: the place of the leftmost bit at one. -/
def msb (v : Nat) : Option Nat := if v = 0 then none else some v.log2

def leastUpperPowerOf2 (v : Nat) : Nat :=
  match msb v with
  | none => 0
  | some m => if v = 1 <<< m then v else 1 <<< (m + 1)

def allocate (n : Nat) : Nodes K T := List.replicate (n + leastUpperPowerOf2 n - 1) none

/-- `Builder::make`: the root of the tree of the leaves from `start` to `stop`, the nodes and the next free place. -/
def make (nodes : Nodes K T) (s start stop : Nat) : Option (Nat × Nodes K T × Nat) :=
  if start = stop then some (start,nodes,s)
  else if start < stop then
    let m := (start + stop) / 2
    (make nodes s start m).bind fun (l,nodes,s) =>
    (make nodes s (m + 1) stop).bind fun (u,nodes,s) =>
    (Node.inner nodes l u).bind fun node =>
    (write nodes s node).map fun nodes => (s,nodes,s + 1)
  else none
termination_by stop - start

structure Segment (K T : Type) where
  low : K
  high : K
  val : T

/-- `SegmentBuilder`: the map gives the end and the value of the segment that starts at a key. -/
structure SegmentBuilder (K T : Type) where
  segs : List (K × K × T)
  deflt : T

def SegmentBuilder.create (deflt : T) : SegmentBuilder K T := ⟨[],deflt⟩

section
variable [LinearOrder K]

def SegmentBuilder.add (builder : SegmentBuilder K T) (low high : K) (val : T) : SegmentBuilder K T :=
  { builder with segs := store builder.segs low (some (high,val)) }

/-- The loop of `make` that counts the nodes, after a segment that ends at `p`. -/
def count (p : K) : List (K × K × T) → Nat
  | [] => 0
  | (low,high,_) :: rest => (if low ≠ p then 2 else 1) + count high rest

/-- The loop of `make` that inserts the bounds, from the place `i` on. -/
def insertBounds (deflt : T) (p : K) : List (K × K × T) → Nodes K T → Nat → Option (Nodes K T × Nat)
  | [], nodes, i => some (nodes,i)
  | (low,high,val) :: rest, nodes, i =>
    (if low ≠ p then (write nodes i (.leaf p low deflt)).map fun nodes => (nodes,i + 1) else some (nodes,i)).bind
      fun (nodes,i) => (write nodes i (.leaf low high val)).bind fun nodes => insertBounds deflt high rest nodes (i + 1)

def SegmentBuilder.make (builder : SegmentBuilder K T) (tree : Tree K T) : Option (Tree K T) :=
  match builder.segs with
  | [] => some tree
  | (low,high,val) :: rest =>
    (write (allocate (1 + count high rest)) 0 (.leaf low high val)).bind fun nodes =>
    (insertBounds builder.deflt high rest nodes 1).bind fun (nodes,i) =>
    (SegmentTree.make nodes i 0 (i - 1)).map fun (root,nodes,_) => ⟨some root,nodes⟩

def SegmentBuilder.addAll (deflt : T) (segments : List (Segment K T)) : SegmentBuilder K T :=
  segments.foldl (fun builder s => builder.add s.low s.high s.val) (.create deflt)

end

section
variable {nodes nodes' : Nodes K T} {i j s : Nat} {node : Node K T}

theorem write_eq (nodes : Nodes K T) (i : Nat) (node : Node K T) (room : i < nodes.length) : ∃ nodes', write nodes i node = some nodes' ∧ nodes'.length = nodes.length ∧
    read nodes' i = some node ∧ ∀ j, j ≠ i → read nodes' j = read nodes j := by
  refine ⟨_,if_pos room,List.length_set,?_,fun j other => ?_⟩
  · simp [read,room]
  · simp [read,List.getElem?_set_ne (Ne.symm other)]

def SameBefore (s : Nat) (nodes nodes' : Nodes K T) : Prop := ∀ j < s, read nodes' j = read nodes j

theorem SameBefore.trans {s' : Nat} {nodes'' : Nodes K T} (first : SameBefore s nodes nodes')
    (second : SameBefore s' nodes' nodes'') (less : s ≤ s') : SameBefore s nodes nodes'' := by
  intro j before
  rw [second j (before.trans_le less),first j before]

inductive Holds (nodes : Nodes K T) (s : Nat) : Nat → List (Segment K T) → Prop
  | leaf {i : Nat} {seg : Segment K T} (before : i < s) (here : read nodes i = some (.leaf seg.low seg.high seg.val)) :
      Holds nodes s i [seg]
  | inner {i l r : Nat} {lb ub : K} {left right : List (Segment K T)} (before : i < s)
      (here : read nodes i = some ⟨lb,ub,some l,some r,none⟩) (lower : left.head?.map (·.low) = some lb)
      (upper : right.getLast?.map (·.high) = some ub) (low : Holds nodes s l left) (high : Holds nodes s r right) :
      Holds nodes s i (left ++ right)

variable {leaves : List (Segment K T)}

theorem Holds.keep (holds : Holds nodes s i leaves) {s' : Nat} (less : s ≤ s') (same : SameBefore s nodes nodes') :
    Holds nodes' s' i leaves := by
  induction holds with
  | leaf before here => exact .leaf (before.trans_le less) ((same _ before).trans here)
  | inner before here lower upper _ _ left right =>
    exact .inner (before.trans_le less) ((same _ before).trans here) lower upper left right

theorem Holds.bounds (holds : Holds nodes s i leaves) :
    ∃ node, read nodes i = some node ∧ leaves.head?.map (·.low) = some node.lb ∧
      leaves.getLast?.map (·.high) = some node.ub := by
  cases holds with
  | leaf before here => exact ⟨_,here,rfl,rfl⟩
  | @inner i l r lb ub left right before here lower upper low high =>
    refine ⟨_,here,?_,?_⟩
    · obtain ⟨first,start,rfl⟩ := Option.map_eq_some_iff.mp lower
      simp [List.head?_append,start]
    · obtain ⟨last,stop,rfl⟩ := Option.map_eq_some_iff.mp upper
      simp [List.getLast?_append,stop]

theorem Holds.ne_nil (holds : Holds nodes s i leaves) : leaves ≠ [] := by
  obtain ⟨node,-,start,-⟩ := holds.bounds
  rintro rfl
  simp at start

theorem inner_eq {l r : Nat} {left right : List (Segment K T)} (low : Holds nodes s l left) (high : Holds nodes s r right) :
    ∃ lb ub, Node.inner nodes l r = some ⟨lb,ub,some l,some r,none⟩ ∧ left.head?.map (·.low) = some lb ∧
      right.getLast?.map (·.high) = some ub := by
  obtain ⟨lower,here,start,-⟩ := low.bounds
  obtain ⟨upper,there,-,stop⟩ := high.bounds
  exact ⟨_,_,by simp [Node.inner,here,there],start,stop⟩

def Written (nodes : Nodes K T) (start : Nat) (leaves : List (Segment K T)) : Prop :=
  ∀ j (h : j < leaves.length), read nodes (start + j) = some (.leaf leaves[j].low leaves[j].high leaves[j].val)

theorem make_self (nodes : Nodes K T) (s start : Nat) : make nodes s start start = some (start,nodes,s) := by
  rw [make,if_pos rfl]

theorem Written.take {start : Nat} (written : Written nodes start leaves) (c : Nat) :
    Written nodes start (leaves.take c) := by
  intro j inside
  rw [List.length_take] at inside
  rw [List.getElem_take]
  exact written j (by omega)

theorem Written.drop {start : Nat} (written : Written nodes start leaves) (c : Nat) :
    Written nodes (start + c) (leaves.drop c) := by
  intro j inside
  rw [List.length_drop] at inside
  rw [List.getElem_drop,Nat.add_assoc]
  exact written (c + j) (by omega)

theorem Written.keep {start : Nat} (written : Written nodes start leaves) (room : start + leaves.length ≤ s)
    (same : SameBefore s nodes nodes') : Written nodes' start leaves := by
  intro j inside
  rw [same _ (by omega)]
  exact written j inside

theorem Written.cons {start : Nat} {seg : Segment K T} (here : read nodes start = some (.leaf seg.low seg.high seg.val))
    (rest : Written nodes (start + 1) leaves) : Written nodes start (seg :: leaves) := by
  intro j inside
  cases j with
  | zero => exact here
  | succ j =>
    rw [List.getElem_cons_succ,show start + (j + 1) = start + 1 + j by omega]
    exact rest j (by simpa using inside)

theorem make_spec (n : Nat) : ∀ (nodes : Nodes K T) (s start : Nat) (leaves : List (Segment K T)), leaves.length = n + 1 →
    Written nodes start leaves → start + leaves.length ≤ s → s + n ≤ nodes.length →
    ∃ root nodes', make nodes s start (start + n) = some (root,nodes',s + n) ∧ nodes'.length = nodes.length ∧
      SameBefore s nodes nodes' ∧ Holds nodes' (s + n) root leaves := by
  induction n using Nat.strongRecOn with
  | ind n ih =>
    intro nodes s start leaves size written after room
    by_cases single : n = 0
    · subst single
      obtain ⟨seg,rfl⟩ := List.length_eq_one_iff.mp size
      refine ⟨start,nodes,make_self nodes s start,rfl,fun _ _ => rfl,.leaf ?_ ?_⟩
      · simp only [List.length_singleton] at after
        omega
      · exact written 0 (by simp)
    -- the leaves up to the middle, then the others
    have middle : (start + (start + n)) / 2 = start + n / 2 := by omega
    have rest : start + n = start + n / 2 + 1 + (n - n / 2 - 1) := by omega
    obtain ⟨l,nodes₁,made,length₁,same₁,low⟩ := ih (n / 2) (by omega) nodes s start (leaves.take (n / 2 + 1))
      (by rw [List.length_take]; omega) (written.take _) (by rw [List.length_take]; omega) (by omega)
    obtain ⟨r,nodes₂,made',length₂,same₂,high⟩ := ih (n - n / 2 - 1) (by omega) nodes₁ (s + n / 2) (start + n / 2 + 1)
      (leaves.drop (n / 2 + 1)) (by rw [List.length_drop]; omega)
      (((written.drop (n / 2 + 1)).keep (by rw [List.length_drop]; omega) same₁))
      (by rw [List.length_drop]; omega) (by omega)
    have end₂ : s + n / 2 + (n - n / 2 - 1) = s + n - 1 := by omega
    rw [end₂] at made' high
    have low' := low.keep (show s + n / 2 ≤ s + n - 1 by omega) same₂
    obtain ⟨lb,ub,node,lower,upper⟩ := inner_eq low' high
    obtain ⟨nodes₃,wrote,length₃,here,others⟩ := write_eq nodes₂ (s + n - 1)
      ⟨lb,ub,some l,some r,none⟩ (by omega)
    have same₃ : SameBefore (s + n - 1) nodes₂ nodes₃ := fun j before => others j (Nat.ne_of_lt before)
    refine ⟨s + n - 1,nodes₃,?_,by omega,(same₁.trans same₂ (by omega)).trans same₃ (by omega),?_⟩
    · rw [make,if_neg (by omega),if_pos (by omega)]
      simp only [middle,made,Option.bind_some]
      rw [rest,made',Option.bind_some]
      simp only [node,Option.bind_some,wrote,Option.map_some]
      rw [show s + n - 1 + 1 = s + (n / 2 + 1 + (n - n / 2 - 1)) by omega]
      congr 4
      omega
    · rw [← List.take_append_drop (n / 2 + 1) leaves]
      exact .inner (by omega) here lower upper (low'.keep (by omega) same₃) (high.keep (by omega) same₃)

end

section
variable [LinearOrder K] {nodes : Nodes K T} {leaves : List (Segment K T)} {s i : Nat} {key : K}

structure Ascends (leaves : List (Segment K T)) : Prop where
  apart : leaves.Pairwise fun a b => a.high ≤ b.low
  filled : ∀ seg ∈ leaves, seg.low < seg.high

/-- The key is to be found in a leaf: it lies in it, or beyond it if it is the last one. -/
def Owns (leaves : List (Segment K T)) (key : K) (seg : Segment K T) : Prop :=
  seg ∈ leaves ∧ seg.low ≤ key ∧ (key < seg.high ∨ leaves.getLast? = some seg)

theorem Ascends.head_le (ascends : Ascends leaves) {seg : Segment K T} (member : seg ∈ leaves) {lb : K}
    (start : leaves.head?.map (·.low) = some lb) : lb ≤ seg.low := by
  cases leaves with
  | nil => simp at member
  | cons first rest =>
    obtain rfl : first.low = lb := by simpa using start
    rcases List.mem_cons.mp member with rfl | later
    · exact le_refl _
    · exact ((ascends.filled first List.mem_cons_self).trans_le
        ((List.pairwise_cons.mp ascends.apart).1 seg later)).le

theorem descend_spec (holds : Holds nodes s i leaves) : ∀ turns, leaves.length ≤ turns → Ascends leaves →
    ∀ seg, Owns leaves key seg → descend nodes key turns i = some seg.val := by
  induction holds with
  | leaf before here =>
    intro turns enough _ seg owns
    obtain ⟨turns,rfl⟩ := Nat.exists_eq_succ_of_ne_zero (Nat.ne_zero_of_lt enough)
    rw [List.mem_singleton.mp owns.1,descend,here]
    rfl
  | @inner i l r lb ub left right before here lower upper low high ihl ihr =>
    intro turns enough ascends seg owns
    obtain ⟨turns,rfl⟩ := Nat.exists_eq_succ_of_ne_zero (show turns ≠ 0 by
      have := List.length_pos_iff.mpr high.ne_nil
      simp only [List.length_append] at enough
      omega)
    have lengths := List.length_append ▸ enough
    have lefts := List.length_pos_iff.mpr low.ne_nil
    have rights := List.length_pos_iff.mpr high.ne_nil
    obtain ⟨upper,there,start,-⟩ := high.bounds
    obtain ⟨first,second,across⟩ := List.pairwise_append.mp ascends.apart
    have ascendsLeft : Ascends left := ⟨first,fun seg member => ascends.filled seg (List.mem_append_left _ member)⟩
    have ascendsRight : Ascends right := ⟨second,fun seg member => ascends.filled seg (List.mem_append_right _ member)⟩
    rw [descend,here,Option.bind_some]
    simp only [Option.bind_some,there]
    obtain ⟨member,above,place⟩ := owns
    have last : (left ++ right).getLast? = right.getLast? := by
      rw [List.getLast?_append,Option.or_of_isSome (by simp [high.ne_nil])]
    by_cases later : seg ∈ right
    · rw [if_neg (not_lt.mpr ((ascendsRight.head_le later start).trans above))]
      exact ihr turns (by omega) ascendsRight seg ⟨later,above,last ▸ place⟩
    · -- the last leaf is on the right, so that the key lies in the leaf, below the right part
      have earlier := (List.mem_append.mp member).resolve_right later
      have inside : key < seg.high := place.resolve_right fun ends =>
        later (List.mem_of_getLast? (last ▸ ends))
      obtain ⟨bound,found,same⟩ := Option.map_eq_some_iff.mp start
      rw [if_pos (inside.trans_le (same ▸ across seg earlier bound (List.mem_of_head? found)))]
      exact ihl turns (by omega) ascendsLeft seg ⟨earlier,above,.inl inside⟩

/-! ### The leaves of a builder -/

/-- The segments of the map and the gaps between them, after a segment that ends at `p`. -/
def leavesAfter (deflt : T) (p : K) : List (K × K × T) → List (Segment K T)
  | [] => []
  | (low,high,val) :: rest =>
    (if low ≠ p then [⟨p,low,deflt⟩] else []) ++ ⟨low,high,val⟩ :: leavesAfter deflt high rest

variable (deflt : T)

theorem count_eq (p : K) (segs : List (K × K × T)) : count p segs = (leavesAfter deflt p segs).length := by
  induction segs generalizing p with
  | nil => rfl
  | cons seg rest ih =>
    obtain ⟨low,high,val⟩ := seg
    rw [count,leavesAfter,ih high]
    by_cases gap : low ≠ p
    · simp [gap]
      omega
    · simp [gap]
      omega

theorem insertBounds_spec (segs : List (K × K × T)) : ∀ (p : K) (nodes : Nodes K T) (i : Nat),
    i + (leavesAfter deflt p segs).length ≤ nodes.length →
    ∃ nodes', insertBounds deflt p segs nodes i = some (nodes',i + (leavesAfter deflt p segs).length) ∧
      nodes'.length = nodes.length ∧ SameBefore i nodes nodes' ∧ Written nodes' i (leavesAfter deflt p segs) := by
  induction segs with
  | nil =>
    intro p nodes i room
    exact ⟨nodes,rfl,rfl,fun _ _ => rfl,fun j inside => absurd inside (Nat.not_lt_zero j)⟩
  | cons seg rest ih =>
    intro p nodes i room
    obtain ⟨low,high,val⟩ := seg
    -- the segment itself and the later ones
    have segment : ∀ (nodes : Nodes K T) (i : Nat), i + (leavesAfter deflt high rest).length < nodes.length →
        ∃ nodes', ((write nodes i (.leaf low high val)).bind fun nodes => insertBounds deflt high rest nodes (i + 1)) =
            some (nodes',i + 1 + (leavesAfter deflt high rest).length) ∧ nodes'.length = nodes.length ∧
          SameBefore i nodes nodes' ∧ Written nodes' i (⟨low,high,val⟩ :: leavesAfter deflt high rest) := by
      intro nodes i room
      obtain ⟨nodes₁,wrote,length₁,here,others⟩ := write_eq nodes i (.leaf low high val) (by omega)
      obtain ⟨nodes₂,inserted,length₂,same,written⟩ := ih high nodes₁ (i + 1) (by omega)
      refine ⟨nodes₂,by rw [wrote,Option.bind_some,inserted],by omega,fun j before => ?_,.cons ?_ written⟩
      · rw [same j (by omega),others j (Nat.ne_of_lt before)]
      · rw [same i (Nat.lt_succ_self i)]
        exact here
    rw [insertBounds]
    by_cases gap : low ≠ p
    · simp only [leavesAfter,if_pos gap,List.singleton_append,List.length_cons] at room ⊢
      obtain ⟨nodes₁,wrote,length₁,here,others⟩ := write_eq nodes i (.leaf p low deflt) (by omega)
      obtain ⟨nodes₂,inserted,length₂,same,written⟩ := segment nodes₁ (i + 1) (by omega)
      refine ⟨nodes₂,?_,by omega,fun j before => ?_,.cons ?_ written⟩
      · rw [wrote,Option.map_some,Option.bind_some,inserted]
        congr 2
        omega
      · rw [same j (by omega),others j (Nat.ne_of_lt before)]
      · rw [same i (Nat.lt_succ_self i)]
        exact here
    · simp only [leavesAfter,if_neg gap,List.nil_append,List.length_cons] at room ⊢
      obtain ⟨nodes₂,inserted,length₂,same,written⟩ := segment nodes i (by omega)
      refine ⟨nodes₂,?_,length₂,same,written⟩
      rw [Option.bind_some,inserted]
      congr 2
      omega

theorem le_leastUpperPowerOf2 (n : Nat) : n ≤ leastUpperPowerOf2 n := by
  rw [leastUpperPowerOf2,msb]
  by_cases zero : n = 0
  · simp [zero]
  · simp only [if_neg zero]
    split
    · exact le_refl n
    · rw [Nat.one_shiftLeft]
      exact Nat.lt_log2_self.le

def segment (seg : K × K × T) : Segment K T := ⟨seg.1,seg.2.1,seg.2.2⟩

/-- The segments of the map ascend, and none is empty. -/
structure Apart (segs : List (K × K × T)) : Prop where
  apart : segs.Pairwise fun a b => a.2.1 ≤ b.1
  filled : ∀ seg ∈ segs, seg.1 < seg.2.1

theorem Apart.tail {seg : K × K × T} {segs : List (K × K × T)} (apart : Apart (seg :: segs)) : Apart segs :=
  ⟨(List.pairwise_cons.mp apart.apart).2,fun other member => apart.filled other (List.mem_cons_of_mem _ member)⟩

theorem Apart.above {seg : K × K × T} {segs : List (K × K × T)} (apart : Apart (seg :: segs)) :
    ∀ other ∈ segs, seg.2.1 ≤ other.1 := (List.pairwise_cons.mp apart.apart).1

theorem ascends_cons (seg : Segment K T) (filled : seg.low < seg.high) (above : ∀ leaf ∈ leaves, seg.high ≤ leaf.low)
    (ascends : Ascends leaves) : Ascends (seg :: leaves) := by
  refine ⟨List.pairwise_cons.mpr ⟨above,ascends.apart⟩,fun leaf member => ?_⟩
  rcases List.mem_cons.mp member with rfl | later
  · exact filled
  · exact ascends.filled leaf later

theorem ascends_leaves {segs : List (K × K × T)} : ∀ {p : K}, Apart segs → (∀ seg ∈ segs, p ≤ seg.1) →
    Ascends (leavesAfter deflt p segs) ∧ ∀ leaf ∈ leavesAfter deflt p segs, p ≤ leaf.low := by
  induction segs with
  | nil =>
    intro p _ _
    exact ⟨⟨List.Pairwise.nil,by simp [leavesAfter]⟩,by simp [leavesAfter]⟩
  | cons seg rest ih =>
    intro p apart above
    obtain ⟨low,high,val⟩ := seg
    obtain ⟨ascends,later⟩ := ih apart.tail apart.above
    have filled : low < high := apart.filled _ List.mem_cons_self
    have start : p ≤ low := above _ List.mem_cons_self
    have here := ascends_cons ⟨low,high,val⟩ filled later ascends
    have beyond : ∀ leaf ∈ (⟨low,high,val⟩ : Segment K T) :: leavesAfter deflt high rest, low ≤ leaf.low := by
      intro leaf member
      rcases List.mem_cons.mp member with rfl | inside
      · exact le_refl _
      · exact filled.le.trans (later leaf inside)
    by_cases gap : low ≠ p
    · rw [leavesAfter,if_pos gap,List.singleton_append]
      refine ⟨ascends_cons ⟨p,low,deflt⟩ (lt_of_le_of_ne start gap.symm) beyond here,fun leaf member => ?_⟩
      rcases List.mem_cons.mp member with rfl | inside
      · exact le_refl _
      · exact start.trans (beyond leaf inside)
    · rw [leavesAfter,if_neg gap,List.nil_append]
      exact ⟨here,fun leaf member => start.trans (beyond leaf member)⟩

/-- What a leaf that contains the key has: the value of the segment, or the default in a gap. -/
def Covers (deflt : T) (segs : List (K × K × T)) (key : K) (val : T) : Prop :=
  (∃ seg ∈ segs, seg.1 ≤ key ∧ key < seg.2.1 ∧ seg.2.2 = val) ∨
    (∀ seg ∈ segs, ¬(seg.1 ≤ key ∧ key < seg.2.1)) ∧ val = deflt

/-- Every key between two segments or in one of them lies in a leaf. -/
theorem exists_leaf {segs : List (K × K × T)} : ∀ {p : K}, Apart segs → (∀ seg ∈ segs, p ≤ seg.1) →
    p ≤ key → (∃ seg ∈ segs, key < seg.2.1) →
    ∃ leaf ∈ leavesAfter deflt p segs, leaf.low ≤ key ∧ key < leaf.high ∧ Covers deflt segs key leaf.val := by
  induction segs with
  | nil =>
    intro p _ _ _ ⟨seg,member,_⟩
    simp at member
  | cons seg rest ih =>
    intro p apart above from_ ⟨other,member,below⟩
    obtain ⟨low,high,val⟩ := seg
    have filled : low < high := apart.filled _ List.mem_cons_self
    rw [leavesAfter]
    by_cases gap : key < low
    · have differs : low ≠ p := fun same => absurd from_ (not_le.mpr (same ▸ gap))
      refine ⟨⟨p,low,deflt⟩,by simp [differs],from_,gap,.inr ⟨fun seg inside holds => ?_,rfl⟩⟩
      rcases List.mem_cons.mp inside with rfl | later
      · exact absurd holds.1 (not_le.mpr gap)
      · exact absurd holds.1 (not_le.mpr ((gap.trans filled).trans_le (apart.above seg later)))
    by_cases here : key < high
    · exact ⟨⟨low,high,val⟩,by simp,not_lt.mp gap,here,.inl ⟨_,List.mem_cons_self,not_lt.mp gap,here,rfl⟩⟩
    · -- beyond the segment
      have later : other ∈ rest := by
        rcases List.mem_cons.mp member with rfl | later
        · exact absurd below here
        · exact later
      obtain ⟨leaf,found,start,stop,covers⟩ := ih apart.tail apart.above (not_lt.mp here) ⟨other,later,below⟩
      refine ⟨leaf,by simp [found],start,stop,?_⟩
      rcases covers with ⟨seg,inside,rest⟩ | ⟨none,same⟩
      · exact .inl ⟨seg,List.mem_cons_of_mem _ inside,rest⟩
      · refine .inr ⟨fun seg inside => ?_,same⟩
        rcases List.mem_cons.mp inside with rfl | later
        · exact fun holds => here holds.2
        · exact none seg later

def allLeaves (deflt : T) (first : K × K × T) (rest : List (K × K × T)) : List (Segment K T) :=
  segment first :: leavesAfter deflt first.2.1 rest

theorem allLeaves_eq (first : K × K × T) (rest : List (K × K × T)) :
    leavesAfter deflt first.1 (first :: rest) = allLeaves deflt first rest := by
  obtain ⟨low,high,val⟩ := first
  simp [leavesAfter,allLeaves,segment]

theorem getLast_allLeaves (rest : List (K × K × T)) : ∀ first : K × K × T, Apart (first :: rest) →
    ∃ last ∈ first :: rest, (allLeaves deflt first rest).getLast? = some (segment last) ∧
      ∀ other ∈ first :: rest, other.2.1 ≤ last.2.1 := by
  induction rest with
  | nil =>
    intro first _
    refine ⟨first,List.mem_cons_self,rfl,fun other member => ?_⟩
    rw [List.mem_singleton.mp member]
  | cons next rest ih =>
    intro first apart
    obtain ⟨last,member,ends,greatest⟩ := ih next apart.tail
    refine ⟨last,List.mem_cons_of_mem _ member,?_,fun other inside => ?_⟩
    · obtain ⟨low,high,val⟩ := next
      rw [allLeaves] at ends ⊢
      rw [leavesAfter,List.getLast?_cons,List.getLast?_append]
      rw [show (⟨low,high,val⟩ : Segment K T) = segment (low,high,val) from rfl,ends]
      rfl
    · rcases List.mem_cons.mp inside with rfl | later
      · exact (apart.above last member).trans (apart.tail.filled last member).le
      · exact greatest other later

theorem make_holds (first : K × K × T) (rest : List (K × K × T)) (tree : Tree K T) :
    ∃ s root nodes, (SegmentBuilder.mk (first :: rest) deflt).make tree = some ⟨some root,nodes⟩ ∧
      Holds nodes s root (allLeaves deflt first rest) ∧ (allLeaves deflt first rest).length ≤ nodes.length := by
  obtain ⟨low,high,val⟩ := first
  have size : (allLeaves deflt (low,high,val) rest).length = 1 + count high rest := by
    rw [allLeaves,List.length_cons,count_eq deflt,Nat.add_comm]
  have space : (allocate (K := K) (T := T) (1 + count high rest)).length = 1 + count high rest +
      leastUpperPowerOf2 (1 + count high rest) - 1 := List.length_replicate
  have power := le_leastUpperPowerOf2 (1 + count high rest)
  have counted := count_eq deflt high rest
  have after : (allLeaves deflt (low,high,val) rest).length = (leavesAfter deflt high rest).length + 1 := rfl
  obtain ⟨nodes₁,wrote,length₁,here,-⟩ := write_eq (allocate (K := K) (T := T) (1 + count high rest)) 0
    (.leaf low high val) (by omega)
  obtain ⟨nodes₂,inserted,length₂,same₂,written⟩ := insertBounds_spec deflt rest high nodes₁ 1 (by omega)
  have all : Written nodes₂ 0 (allLeaves deflt (low,high,val) rest) :=
    .cons ((same₂ 0 Nat.one_pos).trans here) written
  obtain ⟨root,nodes₃,made,length₃,-,holds⟩ := make_spec (count high rest) nodes₂ (1 + count high rest) 0
    (allLeaves deflt (low,high,val) rest) (by omega) all (by omega) (by omega)
  refine ⟨_,root,nodes₃,?_,holds,by omega⟩
  rw [SegmentBuilder.make]
  simp only [wrote,Option.bind_some,inserted,← counted]
  rw [show 1 + count high rest - 1 = 0 + count high rest by omega,made]
  rfl

theorem get_spec (key low high : K) {root : Nat} (holds : Holds nodes s root leaves)
    (enough : leaves.length ≤ nodes.length) (ascends : Ascends leaves) (start : leaves.head?.map (·.low) = some low)
    (stop : leaves.getLast?.map (·.high) = some high) (d : T) :
    (key < low ∨ high < key → (Tree.mk (some root) nodes).get key d = some d) ∧
      ∀ seg, Owns leaves key seg → key ≤ high → (Tree.mk (some root) nodes).get key d = some seg.val := by
  obtain ⟨node,here,lower,upper⟩ := holds.bounds
  obtain rfl : low = node.lb := Option.some.inj (start.symm.trans lower)
  obtain rfl : high = node.ub := Option.some.inj (stop.symm.trans upper)
  constructor
  · intro out
    have outside : node.contains key = false := by
      rcases out with below | above
      · simp [Node.contains,below]
      · simp [Node.contains,above]
    simp [Tree.get,Tree.find,here,outside]
  · intro seg owns below
    have inside : node.contains key = true := by
      simp [Node.contains,below,(ascends.head_le owns.1 lower).trans owns.2.1]
    simp [Tree.get,Tree.find,here,inside,descend_spec holds nodes.length enough ascends seg owns]

end

section
variable [LinearOrder K]

/-- The segments that are added are disjoint, and none is empty. -/
structure Disjoint (segments : List (Segment K T)) : Prop where
  filled : ∀ seg ∈ segments, seg.low < seg.high
  apart : segments.Pairwise fun a b => a.high ≤ b.low ∨ b.high ≤ a.low

/-- The value that a look-up of a key is to give. -/
inductive Answer (segments : List (Segment K T)) (deflt d : T) (key : K) : T → Prop
  | inside {seg : Segment K T} (member : seg ∈ segments) (from_ : seg.low ≤ key) (below : key < seg.high) :
      Answer segments deflt d key seg.val
  | gap (none : ∀ seg ∈ segments, ¬(seg.low ≤ key ∧ key < seg.high)) (after : ∃ seg ∈ segments, seg.low ≤ key)
      (before : ∃ seg ∈ segments, key < seg.high) : Answer segments deflt d key deflt
  | outside (out : (∀ seg ∈ segments, key < seg.low) ∨ ∀ seg ∈ segments, seg.high ≤ key) :
      Answer segments deflt d key d

theorem Disjoint.pair {segments : List (Segment K T)} (disjoint : Disjoint segments) {a b : Segment K T}
    (first : a ∈ segments) (second : b ∈ segments) (differ : a ≠ b) : a.high ≤ b.low ∨ b.high ≤ a.low :=
  have : Std.Symm fun a b : Segment K T => a.high ≤ b.low ∨ b.high ≤ a.low := ⟨fun _ _ => Or.symm⟩
  disjoint.apart.forall first second differ

theorem Disjoint.lows {segments : List (Segment K T)} (disjoint : Disjoint segments) :
    segments.Pairwise fun a b => a.low ≠ b.low := by
  refine disjoint.apart.imp_of_mem fun {a b} first second apart same => ?_
  have filled := disjoint.filled a first
  have filled' := disjoint.filled b second
  rcases apart with before | after
  · exact absurd (filled.trans_le before) (by rw [same]; exact lt_irrefl _)
  · exact absurd (filled'.trans_le after) (by rw [same]; exact lt_irrefl _)

theorem addAll_segs (deflt : T) (segments : List (Segment K T)) (lows : segments.Pairwise fun a b => a.low ≠ b.low) :
    Sorted (SegmentBuilder.addAll deflt segments).segs ∧ (SegmentBuilder.addAll deflt segments).deflt = deflt ∧
      ∀ seg, seg ∈ (SegmentBuilder.addAll deflt segments).segs ↔ segment seg ∈ segments := by
  induction segments using List.reverseRecOn with
  | nil => exact ⟨sorted_nil,rfl,by simp [SegmentBuilder.addAll,SegmentBuilder.create]⟩
  | append_singleton segments new ih =>
    obtain ⟨earlier,-,differ⟩ := List.pairwise_append.mp lows
    obtain ⟨sorted,same,members⟩ := ih earlier
    have step : SegmentBuilder.addAll deflt (segments ++ [new]) =
        (SegmentBuilder.addAll deflt segments).add new.low new.high new.val := by
      simp [SegmentBuilder.addAll]
    have sorted' := store_sorted sorted new.low (some (new.high,new.val))
    rw [step]
    refine ⟨sorted',same,fun ⟨low,val⟩ => ?_⟩
    rw [SegmentBuilder.add,← find_eq_some_iff sorted',List.mem_append,List.mem_singleton]
    by_cases here : low = new.low
    · rw [here,find_store_self sorted,Option.some.injEq]
      constructor
      · rintro rfl
        exact .inr rfl
      · rintro (older | same)
        · exact absurd rfl (differ _ older new (List.mem_singleton_self _))
        · exact (Prod.ext (congrArg Segment.high same) (congrArg Segment.val same)).symm
    · rw [find_store_other _ here sorted,find_eq_some_iff sorted,members]
      exact ⟨.inl,fun either => either.resolve_right fun same => here (congrArg Segment.low same)⟩

/-- A look-up of a key in the tree of disjoint segments gives what it is to give, unless the key
    is the end of the last segment and the value of this segment is not the given default. -/
theorem get_answers_iff (deflt d : T) (segments : List (Segment K T)) (filled : segments ≠ [])
    (disjoint : Disjoint segments) (tree : Tree K T) (key : K) :
    ∃ made, (SegmentBuilder.addAll deflt segments).make tree = some made ∧
      ((∃ val, made.get key d = some val ∧ Answer segments deflt d key val) ↔
        ∀ seg ∈ segments, seg.high = key → (∀ other ∈ segments, other.high ≤ key) → seg.val = d) := by
  obtain ⟨sorted,same,members⟩ := addAll_segs deflt segments disjoint.lows
  have member : ∀ seg : Segment K T, seg ∈ segments ↔ (seg.low,seg.high,seg.val) ∈ (SegmentBuilder.addAll deflt segments).segs :=
    fun seg => (members (seg.low,seg.high,seg.val)).symm
  have apart : Apart (SegmentBuilder.addAll deflt segments).segs := by
    refine ⟨sorted.imp_of_mem fun {a b} first second less => ?_,fun seg inside => disjoint.filled _ ((members seg).mp inside)⟩
    have differ : segment a ≠ segment b := fun same => less.ne (congrArg Segment.low same)
    refine (disjoint.pair ((members a).mp first) ((members b).mp second) differ).resolve_right fun after => ?_
    exact absurd (less.trans (disjoint.filled _ ((members b).mp second))) (not_lt.mpr after)
  generalize SegmentBuilder.addAll deflt segments = builder at *
  obtain ⟨segs,deflt'⟩ := builder
  obtain rfl : deflt' = deflt := same
  cases segs with
  | nil =>
    obtain ⟨seg,some⟩ := List.exists_mem_of_ne_nil _ filled
    exact absurd ((member seg).mp some) (by simp)
  | cons first rest =>
    obtain ⟨s,root,nodes,made,holds,enough⟩ := make_holds deflt' first rest tree
    refine ⟨_,made,?_⟩
    obtain ⟨later,above⟩ := ascends_leaves deflt' apart.tail apart.above
    have ascends := ascends_cons (segment first) (apart.filled first List.mem_cons_self) above later
    obtain ⟨last,final,ends,greatest⟩ := getLast_allLeaves deflt' rest first apart
    obtain ⟨out,inside⟩ := get_spec key first.1 last.2.1 holds enough ascends rfl
      (by rw [ends]; rfl) d
    have lowest : ∀ seg ∈ segments, first.1 ≤ seg.low := fun seg found => by
      rcases List.mem_cons.mp ((member seg).mp found) with same | later
      · rw [← same]
      · exact (apart.filled first List.mem_cons_self).le.trans (apart.above _ later)
    have highest : ∀ seg ∈ segments, seg.high ≤ last.2.1 := fun seg found => greatest _ ((member seg).mp found)
    have firstIn : segment first ∈ segments := (members first).mp List.mem_cons_self
    have lastIn : segment last ∈ segments := (members last).mp final
    by_cases low : key < first.1
    · refine iff_of_true ⟨d,out (.inl low),.outside (.inl fun seg found => low.trans_le (lowest seg found))⟩ ?_
      rintro seg found rfl -
      exact absurd ((disjoint.filled seg found).trans low) (not_lt.mpr (lowest seg found))
    by_cases high : last.2.1 < key
    · refine iff_of_true ⟨d,out (.inr high),.outside (.inr fun seg found => (highest seg found).trans high.le)⟩ ?_
      rintro seg found rfl -
      exact absurd high (not_lt.mpr (highest seg found))
    have start := not_lt.mp low
    have stop := not_lt.mp high
    by_cases atEnd : key = last.2.1
    · -- the last segment is taken for the one of its end
      have owns : Owns (allLeaves deflt' first rest) key (segment last) :=
        ⟨List.mem_of_getLast? ends,atEnd ▸ (apart.filled last final).le,.inr ends⟩
      have given := inside _ owns stop
      rw [given]
      constructor
      · rintro ⟨val,same,answer⟩ seg found atHigh -
        have same : last.2.2 = val := Option.some.inj same
        have only : segment last = seg := by
          by_contra differ
          have equal : (segment last).high = seg.high := atEnd.symm.trans atHigh.symm
          rcases disjoint.pair lastIn found differ with before | after
          · exact absurd (disjoint.filled seg found) (not_lt.mpr (equal ▸ before))
          · exact absurd (disjoint.filled _ lastIn) (not_lt.mpr (equal ▸ after))
        cases answer with
        | inside member' from_ below => exact absurd (below.trans_le (highest _ member')) (not_lt.mpr atEnd.ge)
        | gap none after before =>
          obtain ⟨other,member',below⟩ := before
          exact absurd (below.trans_le (highest other member')) (not_lt.mpr atEnd.ge)
        | outside out => exact only ▸ same
      · intro same
        exact ⟨_,rfl,same _ lastIn atEnd.symm (atEnd ▸ highest) ▸ .outside (.inr (atEnd ▸ highest))⟩
    · have below := lt_of_le_of_ne stop atEnd
      refine iff_of_true ?_ fun seg found atHigh all => absurd (below.trans_le (all _ lastIn)) (lt_irrefl key)
      have from_ : ∀ seg ∈ first :: rest, first.1 ≤ seg.1 := fun seg found => lowest (segment seg) ((members seg).mp found)
      obtain ⟨leaf,found,low',high',covers⟩ := exists_leaf deflt' apart from_ start ⟨last,final,below⟩
      refine ⟨leaf.val,inside leaf ⟨allLeaves_eq deflt' first rest ▸ found,low',.inl high'⟩ stop,?_⟩
      rcases covers with ⟨seg,inside',from',below',same⟩ | ⟨none,same⟩
      · exact same ▸ .inside ((members seg).mp inside') from' below'
      · rw [same]
        exact .gap (fun seg found' => none _ ((member seg).mp found')) ⟨_,firstIn,start⟩ ⟨_,lastIn,below⟩

theorem get_answers_gap : ∃ made, (SegmentBuilder.addAll 0 [⟨3000,4000,2⟩,⟨1000,2000,1⟩]).make ⟨none,[]⟩ = some made ∧
    ((∃ val, made.get 2500 7 = some val ∧ Answer [⟨3000,4000,2⟩,⟨1000,2000,1⟩] 0 7 2500 val) ↔
      ∀ seg ∈ ([⟨3000,4000,2⟩,⟨1000,2000,1⟩] : List (Segment Nat Nat)), seg.high = 2500 →
        (∀ other ∈ ([⟨3000,4000,2⟩,⟨1000,2000,1⟩] : List (Segment Nat Nat)), other.high ≤ 2500) → seg.val = 7) :=
  get_answers_iff 0 7 [⟨3000,4000,2⟩,⟨1000,2000,1⟩] (by simp) ⟨by simp,by simp⟩ ⟨none,[]⟩ 2500

/-- The end of the last segment is taken for a key of it. -/
theorem get_of_last_end : ¬∀ (deflt d : Bool) (segments : List (Segment Nat Bool)), segments ≠ [] → Disjoint segments →
    ∀ (tree : Tree Nat Bool) (key : Nat), ∃ made, (SegmentBuilder.addAll deflt segments).make tree = some made ∧
      ∃ val, made.get key d = some val ∧ Answer segments deflt d key val := by
  intro law
  obtain ⟨made,same,val,got,answer⟩ := law false false [⟨0,1,true⟩] (by simp) ⟨by simp,by simp⟩ ⟨none,[]⟩ 1
  have tree : (SegmentBuilder.addAll false [⟨0,1,true⟩]).make ⟨none,[]⟩ =
      some (⟨some 0,[some (.leaf 0 1 true)]⟩ : Tree Nat Bool) := by
    change (SegmentTree.make [some (.leaf 0 1 true)] 1 0 0).map _ = _
    rw [make_self]
    rfl
  obtain rfl := Option.some.inj (tree.symm.trans same)
  have given : true = val := Option.some.inj (show some true = some val from got)
  cases answer with
  | inside member from_ below =>
    rw [List.mem_singleton.mp member] at below
    exact absurd below (Nat.lt_irrefl 1)
  | gap none after before => cases given
  | outside out => cases given

end
end Otawa.SegmentTree
