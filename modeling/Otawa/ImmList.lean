import Otawa.BlockAllocator
import Mathlib.Data.List.Perm.Subperm

/-!
The immutable lists of `elm`: nodes that share their tails, in a garbage-collected store of
blocks. A collector marks the lists in use, but its loop over a list goes on while a node is
already marked, so that each call marks one node at most, and the other ones are freed. The
calls of `concat` and `remove` are explicit, as each of them may collect many times.
-/
namespace Otawa.Imm
open Otawa.Blocks (Block Memory width)
open Otawa.Runs
open Otawa.BlockGC

variable {T : Type}

inductive Cell (T : Type) where
  | free (next : Nat)
  | node (hd : T) (tl : Nat)

abbrev Store (T : Type) := Nat → Cell T

instance : Memory (Store T) where
  load m a :=
    match m a with
    | .free next => next
    | .node _ _ => 0
  store m a v := Function.update m a (.free v)
  load_store m a v _ := by simp
  load_store_of_apart m a v b apart := by
    have other : b ≠ a := by
      rintro rfl
      exact apart b ⟨Nat.le_refl _,by simp [width]⟩ ⟨Nat.le_refl _,by simp [width]⟩
    rw [Function.update_of_ne other]

/-- `list<T>`: the node of a list. The other field is not in the program: it has the nodes and the items
    that the list was made of. -/
structure Lst (T : Type) where
  node : Nat
  entries : List (Nat × T)

namespace Lst
variable (l : Lst T)

def cells : List Nat := l.entries.map Prod.fst

def items : List T := l.entries.map Prod.snd

def null : Lst T := ⟨0,[]⟩

end Lst

/-- The store has these items in the list of a node. -/
def Contents (m : Store T) : Nat → List T → Prop
  | node, [] => node = 0
  | node, x :: xs => node ≠ 0 ∧ ∃ tl, m node = .node x tl ∧ Contents m tl xs

/-! ### The collector -/

/-- `Collector::mark`; the fuel is more than the nodes of a list. -/
def markList (s : Allocator (Store T)) : Nat → Nat → List Bool → Option (List Bool)
  | 0, _, _ => none
  | fuel + 1, n, bits =>
    if n = 0 then some bits
    else do
      let (marked,bits) ← s.mark bits n
      if marked then some bits
      else
        match s.mem n with
        | .node _ tl => markList s fuel tl bits
        | .free _ => none

/-- `GC::collect`, with the lists that the collectors mark. -/
def collectLists (s : Allocator (Store T)) (nodes : List Nat) (bits : List Bool) : Option (List Bool) :=
  nodes.foldlM (fun bits n => markList s (s.totalCount + 1) n bits) bits

/-! ### The operations -/

/-- The item of a new node: a value, or a reference to the one of a node. -/
inductive Item (T : Type) where
  | value (x : T)
  | of (node : Nat)

def Item.read (m : Store T) : Item T → Option T
  | value x => some x
  | of node =>
    match m node with
    | .node x _ => some x
    | .free _ => none

/-- `cons`, with the lists that a collection marks and the chunk that the system gives; the item is read after
    the allocation. -/
def cons (s : Allocator (Store T)) (h : Item T) (t : Lst T) (nodes : List Nat) (buffer : Nat) : Option (Lst T × Allocator (Store T)) := do
  let (n,s) ← s.allocate (collectLists s nodes) buffer
  let x ← h.read s.mem
  some (⟨n,(n,x) :: t.entries⟩,{ s with mem := Function.update s.mem n (.node x t.node) })

/-- A call of `concat` or `remove` that waits for the one on the tail. -/
inductive Frame (T : Type) where
  | concat (this : Lst T)
  | remove (this : Lst T)

/-- The call that runs: `concat` or `remove` on a list, or the return of a list to the frames. -/
inductive Call (T : Type) where
  | concat (this l : Lst T)
  | remove (this : Lst T) (h : T)
  | back (t : Lst T)

def Frame.this : Frame T → Lst T
  | concat this | remove this => this

def Call.lists : Call T → List (Lst T)
  | concat this l => [this,l]
  | remove this _ => [this]
  | back t => [t]

/-- The store with the lists of the user, and the calls that run. -/
structure Machine (T : Type) where
  alloc : Allocator (Store T)
  live : List (Lst T)
  frames : List (Frame T)
  call : Option (Call T)

def Machine.lists (m : Machine T) : List (Lst T) :=
  m.live ++ m.frames.map Frame.this ++ m.call.toList.flatMap Call.lists

def Machine.roots (m : Machine T) (marks : List Nat) : List Nat := marks.filterMap fun i => m.lists[i]?.map Lst.node

/-- `sizeof(node_t)` is the size of a block; the chunks have the default size. -/
def Machine.create (size buffer : Nat) (mem : Store T) : Machine T := ⟨.create size (2 ^ 20) buffer mem,[],[],none⟩

/-- An operation of the user, on lists given by their indices, or a step of the call that runs; `marks` are the
    indices of the lists that are marked if there is a collection. -/
inductive Op (T : Type) where
  | null
  | cons (h : T) (i : Nat) (marks : List Nat) (buffer : Nat)
  | tl (i : Nat)
  | concat (i j : Nat)
  | remove (i : Nat) (h : T)
  | forget (i : Nat)
  | step (marks : List Nat) (buffer : Nat)

def Machine.consBack (m : Machine T) (this t : Lst T) (frames : List (Frame T)) (marks : List Nat) (buffer : Nat) : Option (Machine T) :=
  (Imm.cons m.alloc (.of this.node) t (m.roots marks) buffer).map fun (l,alloc) => ⟨alloc,m.live,frames,some (.back l)⟩

section
variable [DecidableEq T]

/-- A step of `concat` or `remove`. -/
def Machine.step (m : Machine T) (marks : List Nat) (buffer : Nat) : Call T → Option (Machine T)
  | .concat this l =>
    if this.node = 0 then some { m with call := some (.back l) }
    else
      match m.alloc.mem this.node with
      | .node _ tl => some { m with frames := .concat this :: m.frames, call := some (.concat ⟨tl,this.entries.tail⟩ l) }
      | .free _ => none
  | .remove this h =>
    if this.node = 0 then some { m with call := some (.back this) }
    else
      match m.alloc.mem this.node with
      | .node x tl =>
        if h = x then some { m with call := some (.back ⟨tl,this.entries.tail⟩) }
        else some { m with frames := .remove this :: m.frames, call := some (.remove ⟨tl,this.entries.tail⟩ h) }
      | .free _ => none
  | .back t =>
    match m.frames with
    | [] => some { m with live := t :: m.live, call := none }
    | .concat this :: frames => m.consBack this t frames marks buffer
    | .remove this :: frames =>
      if this.node = t.node then some { m with frames, call := some (.back this) }
      else m.consBack this t frames marks buffer

/-- An operation of the user. -/
def Op.user (m : Machine T) : Op T → Option (Machine T)
  | null => some { m with live := .null :: m.live }
  | cons h i marks buffer => do
    let t ← m.live[i]?
    let (l,alloc) ← Imm.cons m.alloc (.value h) t (m.roots marks) buffer
    some { m with alloc, live := l :: m.live }
  | tl i => do
    let l ← m.live[i]?
    match m.alloc.mem l.node with
    | .node _ next => some { m with live := ⟨next,l.entries.tail⟩ :: m.live }
    | .free _ => none
  | concat i j => do
    let this ← m.live[i]?
    let l ← m.live[j]?
    some { m with call := some (.concat this l) }
  | remove i h => do
    let this ← m.live[i]?
    some { m with call := some (.remove this h) }
  | forget i => some { m with live := m.live.eraseIdx i }
  | step _ _ => none

def Op.apply (m : Machine T) (op : Op T) : Option (Machine T) :=
  match m.call, op with
  | some call, .step marks buffer => m.step marks buffer call
  | some _, _ => none
  | none, op => op.user m

/-- The operation makes a node, with these marks and this chunk if there is no free block. -/
def Op.Conses (m : Machine T) (op : Op T) (marks : List Nat) (buffer : Nat) : Prop :=
  match op with
  | cons _ _ marks' buffer' => marks' = marks ∧ buffer' = buffer
  | step marks' buffer' => marks' = marks ∧ buffer' = buffer ∧ ∃ t this frames, m.call = some (.back t) ∧
      (m.frames = .concat this :: frames ∨ m.frames = .remove this :: frames ∧ this.node ≠ t.node)
  | _ => False

/-- The node needs a collection. -/
def Op.Collects (m : Machine T) (op : Op T) (marks : List Nat) (buffer : Nat) : Prop :=
  op.Conses m marks buffer ∧ m.alloc.freeList = 0 ∧ ¬m.alloc.top + m.alloc.bsize ≤ m.alloc.last + m.alloc.csize

def Op.Allowed (m : Machine T) : Op T → Prop
  | null | forget _ => m.call = none
  | cons _ i _ _ | remove i _ => m.call = none ∧ i < m.live.length
  | tl i => m.call = none ∧ ∃ l, m.live[i]? = some l ∧ l.node ≠ 0
  | concat i j => m.call = none ∧ i < m.live.length ∧ j < m.live.length
  | step _ _ => m.call ≠ none

def Op.Valid (m : Machine T) (op : Op T) : Prop :=
  op.Allowed m ∧ ∀ marks buffer, op.Collects m marks buffer → (∀ i < m.live.length, i ∈ marks) ∧ Fresh m.alloc buffer

def Op.Safe (_ : Machine T) (_ : Op T) (m' : Machine T) : Prop :=
  ∀ l ∈ m'.lists, Contents m'.alloc.mem l.node l.items

def takeFirst (seen cells : List Nat) : List Nat :=
  match cells.find? fun a => decide (a ∉ seen) with
  | some a => a :: seen
  | none => seen

def Op.Exact (m : Machine T) (op : Op T) : Prop :=
  ∀ marks buffer, op.Collects m marks buffer → Sized m.alloc ∧ ∀ l ∈ m.lists, ∀ a ∈ l.cells,
    a ∈ (marks.filterMap fun i => m.lists[i]?.map Lst.cells).foldl takeFirst []

end
def Reads (m : Store T) : Nat → List (Nat × T) → Prop
  | node, [] => node = 0
  | node, (a,x) :: rest => node = a ∧ a ≠ 0 ∧ ∃ tl, m a = .node x tl ∧ Reads m tl rest

section
variable {m m' : Store T} {node a : Nat} {x : T} {entries entries' before after : List (Nat × T)}

theorem Reads.contents (reads : Reads m node entries) : Contents m node (entries.map Prod.snd) := by
  induction entries generalizing node with
  | nil => exact reads
  | cons entry rest ih =>
    obtain ⟨rfl,some,tl,here,reads⟩ := reads
    exact ⟨some,tl,here,ih reads⟩

theorem Reads.congr (reads : Reads m node entries) (same : ∀ a ∈ entries.map Prod.fst, m' a = m a) : Reads m' node entries := by
  induction entries generalizing node with
  | nil => exact reads
  | cons entry rest ih =>
    obtain ⟨rfl,some,tl,here,reads⟩ := reads
    refine ⟨rfl,some,tl,(same _ List.mem_cons_self).trans here,ih reads ?_⟩
    intro a member
    exact same a (List.mem_cons_of_mem _ member)

theorem Reads.unique (reads : Reads m node entries) (reads' : Reads m node entries') : entries = entries' := by
  induction entries generalizing node entries' with
  | nil =>
    cases entries' with
    | nil => rfl
    | cons entry rest =>
      obtain ⟨rfl,some,-⟩ := reads'
      exact absurd reads some
  | cons entry rest ih =>
    obtain ⟨rfl,some,tl,here,reads⟩ := reads
    cases entries' with
    | nil => exact absurd reads' some
    | cons entry' rest' =>
      obtain ⟨same,-,tl',here',reads'⟩ := reads'
      rw [← same,here] at here'
      obtain ⟨sameItem,rfl⟩ := Cell.node.inj here'
      rw [ih reads reads',Prod.ext same sameItem]

theorem Reads.suffix (reads : Reads m node (before ++ (a,x) :: after)) : Reads m a ((a,x) :: after) := by
  induction before generalizing node with
  | nil =>
    obtain ⟨rfl,rest⟩ := reads
    exact ⟨rfl,rest⟩
  | cons entry before ih =>
    obtain ⟨-,-,tl,-,reads⟩ := reads
    exact ih reads

theorem Reads.nodup (reads : Reads m node entries) : (entries.map Prod.fst).Nodup := by
  induction entries generalizing node with
  | nil => exact .nil
  | cons entry rest ih =>
    obtain ⟨rfl,some,tl,here,tail⟩ := reads
    have whole : Reads m entry.1 (entry :: rest) := ⟨rfl,some,tl,here,tail⟩
    refine List.nodup_cons.mpr ⟨?_,ih tail⟩
    intro member
    obtain ⟨⟨a,x⟩,again,same⟩ := List.mem_map.mp member
    obtain rfl : a = entry.1 := same
    obtain ⟨before,after,rfl⟩ := List.append_of_mem again
    have cyclic := whole.unique tail.suffix
    have longer := congrArg List.length cyclic
    simp at longer
    omega

end

structure Seen (s : Allocator (Store T)) (seen : List Nat) (bits : List Bool) : Prop where
  length : bits.length = s.chunks.length * (s.csize / s.bsize)
  exact : ∀ n a, s.address n = some a → (bits[n]? = some true ↔ a ∈ seen)

section
variable {s : Allocator (Store T)} {seen cells : List Nat} {bits : List Bool} {n a node fuel : Nat} {entries : List (Nat × T)}

theorem Seen.set (shape : Shape s) (seenBits : Seen s seen bits) (found : s.address n = some a) : Seen s (a :: seen) (bits.set n true) := by
  refine ⟨by rw [List.length_set,seenBits.length],?_⟩
  intro i b found'
  have inside : i < bits.length := seenBits.length ▸ lt_of_address shape found'
  rw [List.getElem?_set,List.mem_cons,← seenBits.exact i b found']
  by_cases same : n = i
  · subst same
    obtain rfl : a = b := Option.some.inj (found.symm.trans found')
    simp [inside]
  · have other : b ≠ a := fun equal => same (address_inj shape found (equal ▸ found'))
    simp [same,other]

theorem takeFirst_of_mem (member : a ∈ seen) : takeFirst seen (a :: cells) = takeFirst seen cells := by
  rw [takeFirst,takeFirst,List.find?_cons_of_neg]
  simpa using member

theorem takeFirst_of_not_mem (absent : a ∉ seen) : takeFirst seen (a :: cells) = a :: seen := by
  rw [takeFirst,List.find?_cons_of_pos]
  simpa using absent

theorem markList_spec (shape : Shape s) (reads : Reads s.mem node entries) (blocks : ∀ a ∈ entries.map Prod.fst, ∃ n, s.address n = some a)
    (seenBits : Seen s seen bits) (enough : entries.length < fuel) :
    ∃ bits', markList s fuel node bits = some bits' ∧ Seen s (takeFirst seen (entries.map Prod.fst)) bits' := by
  induction entries generalizing node fuel bits with
  | nil =>
    obtain ⟨fuel,rfl⟩ := Nat.exists_eq_succ_of_ne_zero (Nat.ne_zero_of_lt enough)
    obtain rfl : node = 0 := reads
    exact ⟨bits,by rw [markList,if_pos rfl],seenBits⟩
  | cons entry rest ih =>
    obtain ⟨fuel,rfl⟩ := Nat.exists_eq_succ_of_ne_zero (Nat.ne_zero_of_lt enough)
    obtain ⟨rfl,some,tl,here,reads⟩ := reads
    obtain ⟨n,found⟩ := blocks entry.1 List.mem_cons_self
    have inside : n < bits.length := seenBits.length ▸ lt_of_address shape found
    have marked := mark_address shape found (List.getElem?_eq_getElem inside)
    have seenBits' := seenBits.set shape found
    rw [markList,if_neg some,marked,List.map_cons,Option.bind_eq_bind,Option.bind_some]
    by_cases member : entry.1 ∈ seen
    · have one : bits[n] = true := by
        have := (seenBits.exact n _ found).mpr member
        rwa [List.getElem?_eq_getElem inside,Option.some.injEq] at this
      have again : Seen s seen (bits.set n true) := by
        refine ⟨seenBits'.length,?_⟩
        intro i b found'
        rw [seenBits'.exact i b found',List.mem_cons,or_iff_right_of_imp]
        rintro rfl
        exact member
      rw [takeFirst_of_mem member]
      simp only [one,here,Bool.not_true,Bool.false_eq_true,if_false]
      exact ih reads (fun a member => blocks a (List.mem_cons_of_mem _ member)) again (Nat.lt_of_succ_lt_succ enough)
    · have null : bits[n] = false := by
        rw [← Bool.not_eq_true]
        intro one
        exact member ((seenBits.exact n _ found).mp (by rw [List.getElem?_eq_getElem inside,one]))
      rw [takeFirst_of_not_mem member]
      simp only [null,Bool.not_false,if_true]
      exact ⟨_,rfl,seenBits'⟩

theorem length_le_totalCount {cells : List Nat} (nodup : cells.Nodup) (used : ∀ a ∈ cells, Used s a) : cells.length ≤ s.totalCount := by
  have sub : cells ⊆ (List.range s.totalCount).filterMap s.address := by
    intro a member
    obtain ⟨n,less,found⟩ := used a member
    exact List.mem_filterMap.mpr ⟨n,List.mem_range.mpr less,found⟩
  have le := (nodup.subperm sub).length_le
  exact le.trans ((List.length_filterMap_le _ _).trans (List.length_range).le)

/-- The marks of a collection are the nodes that the calls of `mark` see. -/
theorem collectLists_spec (shape : Shape s) {lists : List (Lst T)}
    (reads : ∀ l ∈ lists, Reads s.mem l.node l.entries ∧ ∀ a ∈ l.cells, Used s a) (seenBits : Seen s seen bits) :
    ∃ bits', collectLists s (lists.map Lst.node) bits = some bits' ∧ Seen s ((lists.map Lst.cells).foldl takeFirst seen) bits' := by
  induction lists generalizing seen bits with
  | nil => exact ⟨bits,rfl,seenBits⟩
  | cons l lists ih =>
    obtain ⟨here,used⟩ := reads l List.mem_cons_self
    have blocks : ∀ a ∈ l.cells, ∃ n, s.address n = some a := by
      intro a member
      obtain ⟨n,-,found⟩ := used a member
      exact ⟨n,found⟩
    have enough : l.entries.length < s.totalCount + 1 := by
      have le := length_le_totalCount here.nodup used
      rw [List.length_map] at le
      exact Nat.lt_succ_of_le le
    obtain ⟨bits₁,marked,seen₁⟩ := markList_spec shape here blocks seenBits enough
    obtain ⟨bits₂,rest,seen₂⟩ := ih (fun l member => reads l (List.mem_cons_of_mem _ member)) seen₁
    refine ⟨bits₂,?_,seen₂⟩
    rw [collectLists,List.map_cons,List.foldlM_cons,marked]
    exact rest

end

def InUse (m : Machine T) (a : Nat) : Prop := ∃ l ∈ m.lists, a ∈ l.cells

/-- The live lists have their items, and their nodes are the blocks in use of the store. -/
structure Good (m : Machine T) : Prop where
  store : ∃ free, Inv m.alloc (InUse m) free
  reads : ∀ l ∈ m.lists, Reads m.alloc.mem l.node l.entries
  frames : ∀ frame ∈ m.frames, frame.this.node ≠ 0
  large : width ≤ m.alloc.bsize

section
variable {m m' : Machine T} {marks : List Nat} {buffer : Nat}

theorem marked_of_taken (good : Good m) (full : ¬m.alloc.top + m.alloc.bsize ≤ m.alloc.last + m.alloc.csize)
    (all : ∀ l ∈ m.lists, ∀ a ∈ l.cells, a ∈ (marks.filterMap fun i => m.lists[i]?.map Lst.cells).foldl takeFirst []) :
    ∃ bits, collectLists m.alloc (m.roots marks) (List.replicate (m.alloc.chunks.length * (m.alloc.csize / m.alloc.bsize)) false) =
      some bits ∧ Marked m.alloc (InUse m) [] bits := by
  obtain ⟨free,inv⟩ := good.store
  have start : Seen m.alloc [] (List.replicate (m.alloc.chunks.length * (m.alloc.csize / m.alloc.bsize)) false) := by
    refine ⟨List.length_replicate ..,?_⟩
    intro n a _
    simp [List.getElem?_replicate]
  have reads : ∀ l ∈ marks.filterMap fun i => m.lists[i]?, Reads m.alloc.mem l.node l.entries ∧ ∀ a ∈ l.cells, Used m.alloc a := by
    intro l member
    obtain ⟨i,-,found⟩ := List.mem_filterMap.mp member
    have live := List.mem_of_getElem? found
    exact ⟨good.reads l live,fun a inside => inv.inUse a ⟨l,live,inside⟩⟩
  obtain ⟨bits,collected,seen⟩ := collectLists_spec inv.shape reads start
  rw [List.map_filterMap] at collected seen
  refine ⟨bits,collected,seen.length,?_,?_⟩
  · rintro n a found ⟨l,live,inside⟩
    exact (seen.exact n a found).mpr (all l live a inside)
  · intro n a found _
    refine ⟨⟨n,?_,found⟩,List.not_mem_nil⟩
    rw [totalCount_of_full inv.shape inv.place full,Nat.mul_comm]
    exact lt_of_address inv.shape found

theorem stored_eq {dead : Nat → Prop} {mem mem' : Store T} (stored : Stored dead mem mem') {a : Nat} (live : ¬dead a) : mem' a = mem a := by
  induction stored with
  | refl => rfl
  | store before isDead v ih =>
    have other : a ≠ _ := fun same => live (same ▸ isDead)
    exact (Function.update_of_ne other ..).trans ih

/-- A new node of a live list: the live lists are kept, and the new one has its items. -/
structure Consed (m : Machine T) (l : Lst T) (alloc : Allocator (Store T)) : Prop where
  store : ∃ free, Inv alloc (fun a => InUse m a ∨ a = l.node) free
  reads : ∀ l' ∈ m.lists, Reads alloc.mem l'.node l'.entries
  new : Reads alloc.mem l.node l.entries
  sizes : width ≤ alloc.bsize

theorem cons_spec (good : Good m)
    (ready : m.alloc.freeList = 0 → ¬m.alloc.top + m.alloc.bsize ≤ m.alloc.last + m.alloc.csize →
      Sized m.alloc ∧ Fresh m.alloc buffer ∧
        ∀ l ∈ m.lists, ∀ a ∈ l.cells, a ∈ (marks.filterMap fun i => m.lists[i]?.map Lst.cells).foldl takeFirst [])
    {h : Item T} {x : T} (item : ∀ mem', (∀ a, InUse m a → mem' a = m.alloc.mem a) → h.read mem' = some x)
    {t : Lst T} (live : t ∈ m.lists) :
    ∃ n alloc, cons m.alloc h t (m.roots marks) buffer = some (⟨n,(n,x) :: t.entries⟩,alloc) ∧
      Consed m ⟨n,(n,x) :: t.entries⟩ alloc := by
  obtain ⟨free,inv⟩ := good.store
  obtain ⟨n,s,free',allocated,handed⟩ := @Inv.allocate _ _ _ _ _ inv (collectLists m.alloc (m.roots marks)) buffer (by
    intro null full
    obtain ⟨sized,fresh,all⟩ := ready null full
    exact ⟨good.large,sized,fresh,marked_of_taken good full all⟩)
  have kept : ∀ a, InUse m a → s.mem a = m.alloc.mem a := by
    intro a isLive
    exact stored_eq handed.stored fun dead => dead.2 isLive
  have keptNew : ∀ a, InUse m a → Function.update s.mem n (.node x t.node) a = m.alloc.mem a := by
    intro a isLive
    have other : a ≠ n := fun same => handed.fresh (same ▸ isLive)
    exact (Function.update_of_ne other ..).trans (kept a isLive)
  have reads : ∀ l ∈ m.lists, Reads (Function.update s.mem n (.node x t.node)) l.node l.entries := by
    intro l member
    exact (good.reads l member).congr fun a inside => keptNew a ⟨l,member,inside⟩
  refine ⟨n,{ s with mem := Function.update s.mem n (.node x t.node) },?_,⟨free',?_⟩,reads,?_,?_⟩
  · simp only [cons,allocated,Option.bind_eq_bind,Option.bind_some,item s.mem kept]
  · obtain ⟨⟨positive,fits,chunks⟩,place,inUse,dead,nodup,large,chain⟩ := handed.inv
    refine ⟨⟨positive,fits,chunks⟩,place,inUse,dead,nodup,large,chain.congr ?_⟩
    intro a member
    have other : a ≠ n := fun same => (dead a member).2 (.inr same)
    simp only [next,Memory.load,Function.update_of_ne other]
  · have positive := (handed.used.bounds handed.inv.shape).1
    exact ⟨rfl,Nat.ne_of_gt positive,t.node,Function.update_self ..,reads t live⟩
  · exact handed.sizes.1 ▸ good.large

/-- What a step that makes no node leaves: its lists were live, or are the tail of a live one, or null. -/
def Derived (m : Machine T) (l : Lst T) : Prop :=
  l ∈ m.lists ∨ l = .null ∨ ∃ l' ∈ m.lists, l'.node ≠ 0 ∧ (∃ x, m.alloc.mem l'.node = .node x l.node) ∧ l.entries = l'.entries.tail

theorem Derived.reads (good : Good m) {l : Lst T} (derived : Derived m l) :
    Reads m.alloc.mem l.node l.entries ∧ ∀ a ∈ l.cells, InUse m a := by
  rcases derived with live | rfl | ⟨l',live,some,⟨x,here⟩,tail⟩
  · exact ⟨good.reads l live,fun a inside => ⟨l,live,inside⟩⟩
  · refine ⟨rfl,?_⟩
    intro a inside
    cases inside
  · have reads := good.reads l' live
    have cells : l.cells = l'.cells.tail := by rw [Lst.cells,tail,Lst.cells,List.map_tail]
    refine ⟨?_,?_⟩
    · rw [tail]
      cases entries : l'.entries with
      | nil =>
        rw [entries] at reads
        exact absurd reads some
      | cons entry rest =>
        rw [entries] at reads
        obtain ⟨same,-,next,here',reads⟩ := reads
        rw [← same,here] at here'
        obtain ⟨-,rfl⟩ := Cell.node.inj here'
        exact reads
    · intro a inside
      exact ⟨l',live,List.mem_of_mem_tail (cells ▸ inside)⟩

theorem Good.derive (good : Good m) (alloc : m'.alloc = m.alloc) (lists : ∀ l ∈ m'.lists, Derived m l)
    (frames : ∀ frame ∈ m'.frames, frame.this.node ≠ 0) : Good m' := by
  obtain ⟨free,inv⟩ := good.store
  refine ⟨?_,?_,frames,alloc ▸ good.large⟩
  · refine ⟨free,alloc ▸ inv.congr ?_⟩
    rintro a ⟨l,live,inside⟩
    exact ((lists l live).reads good).2 a inside
  · intro l live
    rw [alloc]
    exact ((lists l live).reads good).1

theorem Consed.good {n : Nat} {x : T} {t : Lst T} {alloc : Allocator (Store T)} (consed : Consed m ⟨n,(n,x) :: t.entries⟩ alloc)
    (live : t ∈ m.lists) (same : m'.alloc = alloc) (lists : ∀ l ∈ m'.lists, l ∈ m.lists ∨ l = ⟨n,(n,x) :: t.entries⟩)
    (frames : ∀ frame ∈ m'.frames, frame.this.node ≠ 0) : Good m' := by
  obtain ⟨free,inv⟩ := consed.store
  refine ⟨?_,?_,frames,same ▸ consed.sizes⟩
  · refine ⟨free,same ▸ inv.congr ?_⟩
    rintro a ⟨l,member,inside⟩
    rcases lists l member with old | rfl
    · exact .inl ⟨l,old,inside⟩
    · rcases List.mem_cons.mp inside with new | tail
      · exact .inr new
      · exact .inl ⟨t,live,tail⟩
  · intro l member
    rw [same]
    rcases lists l member with old | rfl
    · exact consed.reads l old
    · exact consed.new

theorem mem_lists {l : Lst T} :
    l ∈ m.lists ↔ l ∈ m.live ∨ (∃ frame ∈ m.frames, frame.this = l) ∨ ∃ call, m.call = some call ∧ l ∈ call.lists := by
  simp [Machine.lists]

theorem node_of_live (good : Good m) {this : Lst T} (live : this ∈ m.lists) (some : this.node ≠ 0) :
    (∃ x tl, m.alloc.mem this.node = .node x tl) ∧ InUse m this.node := by
  have reads := good.reads this live
  cases entries : this.entries with
  | nil =>
    rw [entries] at reads
    exact absurd reads some
  | cons entry rest =>
    rw [entries] at reads
    obtain ⟨same,-,next,here,-⟩ := reads
    exact ⟨⟨entry.2,next,same ▸ here⟩,this,live,by simp [Lst.cells,entries,same]⟩

theorem read_of (good : Good m) {this : Lst T} (live : this ∈ m.lists) (some : this.node ≠ 0) :
    ∃ x, ∀ mem', (∀ a, InUse m a → mem' a = m.alloc.mem a) → (Item.of this.node).read mem' = .some x := by
  obtain ⟨⟨x,tl,here⟩,inUse⟩ := node_of_live good live some
  refine ⟨x,?_⟩
  intro mem' kept
  rw [Item.read,kept _ inUse,here]

theorem Good.safe (good : Good m') : ∀ l ∈ m'.lists, Contents m'.alloc.mem l.node l.items :=
  fun l live => (good.reads l live).contents

/-- The condition of the collection of an operation that makes a node. -/
theorem ready_of_conses {op : Op T} (valid : op.Valid m) (exact : op.Exact m) (conses : op.Conses m marks buffer)
    (null : m.alloc.freeList = 0) (full : ¬m.alloc.top + m.alloc.bsize ≤ m.alloc.last + m.alloc.csize) :
    Sized m.alloc ∧ Fresh m.alloc buffer ∧
      ∀ l ∈ m.lists, ∀ a ∈ l.cells, a ∈ (marks.filterMap fun i => m.lists[i]?.map Lst.cells).foldl takeFirst [] := by
  have collects : op.Collects m marks buffer := ⟨conses,null,full⟩
  obtain ⟨sized,all⟩ := exact marks buffer collects
  exact ⟨sized,(valid.2 marks buffer collects).2,all⟩

theorem consBack_holds (good : Good m) {op : Op T} (valid : op.Valid m) (exact : op.Exact m) (conses : op.Conses m marks buffer)
    {t : Lst T} {frame : Frame T} {frames : List (Frame T)} (call : m.call = some (.back t)) (split : m.frames = frame :: frames) :
    ∃ m', m.consBack frame.this t frames marks buffer = some m' ∧ Good m' := by
  have live : t ∈ m.lists := mem_lists.mpr (.inr (.inr ⟨_,call,List.mem_singleton_self t⟩))
  have this : frame.this ∈ m.lists := mem_lists.mpr (.inr (.inl ⟨frame,by simp [split],rfl⟩))
  obtain ⟨x,item⟩ := read_of good this (good.frames frame (by simp [split]))
  obtain ⟨n,alloc,made,consed⟩ := cons_spec good (ready_of_conses valid exact conses) item live
  refine ⟨⟨alloc,m.live,frames,some (.back ⟨n,(n,x) :: t.entries⟩)⟩,?_,consed.good live rfl ?_ ?_⟩
  · rw [Machine.consBack,made]
    rfl
  · intro l member
    rcases mem_lists.mp member with user | ⟨frame',member',rfl⟩ | ⟨call',same,member'⟩
    · exact .inl (mem_lists.mpr (.inl user))
    · exact .inl (mem_lists.mpr (.inr (.inl ⟨frame',by simp [split,member'],rfl⟩)))
    · cases same
      exact .inr (List.mem_singleton.mp member')
  · intro frame' member
    exact good.frames frame' (by simp [split,member])

end

/-! ### A step -/

section
variable [DecidableEq T] {m : Machine T} {marks : List Nat} {buffer : Nat}

omit [DecidableEq T] in
/-- A step that makes no node and leaves calls on live lists or on the tails of live lists. -/
theorem Good.turn (good : Good m) {frames : List (Frame T)} {call : Call T}
    (waiting : ∀ frame ∈ frames, frame.this ∈ m.lists ∧ frame.this.node ≠ 0) (lists : ∀ l ∈ call.lists, Derived m l) :
    Good { m with frames, call := some call } := by
  refine good.derive rfl ?_ fun frame member => (waiting frame member).2
  intro l member
  rcases mem_lists.mp member with user | ⟨frame,member',rfl⟩ | ⟨call',same,member'⟩
  · exact .inl (mem_lists.mpr (.inl user))
  · exact .inl (waiting frame member').1
  · cases same
    exact lists l member'

omit [DecidableEq T] in
theorem Good.waiting (good : Good m) : ∀ frame ∈ m.frames, frame.this ∈ m.lists ∧ frame.this.node ≠ 0 :=
  fun frame member => ⟨mem_lists.mpr (.inr (.inl ⟨frame,member,rfl⟩)),good.frames frame member⟩

omit [DecidableEq T] in
theorem Good.push (good : Good m) (first : Frame T) (live : first.this ∈ m.lists) (some : first.this.node ≠ 0) :
    ∀ frame ∈ first :: m.frames, frame.this ∈ m.lists ∧ frame.this.node ≠ 0 := by
  intro frame member
  rcases List.mem_cons.mp member with rfl | old
  · exact ⟨live,some⟩
  · exact good.waiting frame old

theorem step_holds (good : Good m) (valid : (Op.step marks buffer).Valid m) (exact : (Op.step marks buffer).Exact m) {call : Call T}
    (running : m.call = some call) : ∃ m', m.step marks buffer call = some m' ∧ Good m' := by
  have lists : ∀ l ∈ call.lists, l ∈ m.lists := fun l member => mem_lists.mpr (.inr (.inr ⟨call,running,member⟩))
  cases call with
  | concat this l =>
    have live : this ∈ m.lists := lists this (by simp [Call.lists])
    have liveL : l ∈ m.lists := lists l (by simp [Call.lists])
    by_cases null : this.node = 0
    · refine ⟨{ m with call := some (.back l) },by rw [Machine.step,if_pos null],good.turn good.waiting ?_⟩
      intro l' member
      obtain rfl := List.mem_singleton.mp member
      exact .inl liveL
    · obtain ⟨⟨x,tl,here⟩,-⟩ := node_of_live good live null
      refine ⟨{ m with frames := .concat this :: m.frames, call := some (.concat ⟨tl,this.entries.tail⟩ l) },?_,
        good.turn (good.push (.concat this) live null) ?_⟩
      · simp only [Machine.step,if_neg null,here]
      intro l' member
      rcases List.mem_cons.mp member with rfl | member
      · exact .inr (.inr ⟨this,live,null,⟨x,here⟩,rfl⟩)
      · obtain rfl := List.mem_singleton.mp member
        exact .inl liveL
  | remove this h =>
    have live : this ∈ m.lists := lists this (by simp [Call.lists])
    by_cases null : this.node = 0
    · refine ⟨{ m with call := some (.back this) },by rw [Machine.step,if_pos null],good.turn good.waiting ?_⟩
      intro l' member
      obtain rfl := List.mem_singleton.mp member
      exact .inl live
    · obtain ⟨⟨x,tl,here⟩,-⟩ := node_of_live good live null
      have tail : ∀ l' ∈ [(⟨tl,this.entries.tail⟩ : Lst T)], Derived m l' := by
        intro l' member
        obtain rfl := List.mem_singleton.mp member
        exact .inr (.inr ⟨this,live,null,⟨x,here⟩,rfl⟩)
      by_cases same : h = x
      · refine ⟨{ m with call := some (.back ⟨tl,this.entries.tail⟩) },?_,good.turn good.waiting tail⟩
        simp only [Machine.step,if_neg null,here,if_pos same]
      · refine ⟨{ m with frames := .remove this :: m.frames, call := some (.remove ⟨tl,this.entries.tail⟩ h) },?_,
          good.turn (good.push (.remove this) live null) tail⟩
        simp only [Machine.step,if_neg null,here,if_neg same]
  | back t =>
    have live : t ∈ m.lists := lists t (by simp [Call.lists])
    cases split : m.frames with
    | nil =>
      refine ⟨{ m with live := t :: m.live, call := none },by simp only [Machine.step,split],good.derive rfl ?_ good.frames⟩
      intro l member
      rcases mem_lists.mp member with user | ⟨frame,member',rfl⟩ | ⟨call',same,-⟩
      · rcases List.mem_cons.mp user with rfl | old
        · exact .inl live
        · exact .inl (mem_lists.mpr (.inl old))
      · exact .inl (good.waiting frame member').1
      · cases same
    | cons frame frames =>
      cases frame with
      | concat this =>
        have conses : (Op.step marks buffer).Conses m marks buffer := ⟨rfl,rfl,t,this,frames,running,.inl split⟩
        obtain ⟨m',made,good'⟩ := consBack_holds good valid exact conses running split
        exact ⟨m',by simpa only [Machine.step,split,Frame.this] using made,good'⟩
      | remove this =>
        by_cases same : this.node = t.node
        · refine ⟨{ m with frames, call := some (.back this) },by simp only [Machine.step,split,if_pos same],good.turn ?_ ?_⟩
          · intro frame member
            exact good.waiting frame (by simp [split,member])
          · intro l' member
            obtain rfl := List.mem_singleton.mp member
            exact .inl (good.waiting (.remove l') (by simp [split])).1
        · have conses : (Op.step marks buffer).Conses m marks buffer := ⟨rfl,rfl,t,this,frames,running,.inr ⟨split,same⟩⟩
          obtain ⟨m',made,good'⟩ := consBack_holds good valid exact conses running split
          exact ⟨m',by simpa only [Machine.step,split,if_neg same,Frame.this] using made,good'⟩

omit [DecidableEq T] in
theorem Good.user (good : Good m) (idle : m.call = none) {live : List (Lst T)} (lists : ∀ l ∈ live, Derived m l) :
    Good { m with live } := by
  refine good.derive rfl ?_ good.frames
  intro l member
  rcases mem_lists.mp member with user | ⟨frame,member',rfl⟩ | ⟨call',same,-⟩
  · exact lists l user
  · exact .inl (good.waiting frame member').1
  · exact absurd (idle.symm.trans same) (by simp)

omit [DecidableEq T] in
theorem user_holds (good : Good m) {op : Op T} (valid : op.Valid m) (exact : op.Exact m) (idle : m.call = none)
    (user : ∀ marks buffer, op ≠ .step marks buffer) : ∃ m', op.user m = some m' ∧ Good m' := by
  have old : ∀ l ∈ m.live, Derived m l := fun l member => .inl (mem_lists.mpr (.inl member))
  cases op with
  | null =>
    refine ⟨_,rfl,good.user idle ?_⟩
    intro l member
    rcases List.mem_cons.mp member with rfl | member
    · exact .inr (.inl rfl)
    · exact old l member
  | cons h i marks buffer =>
    obtain ⟨-,inside⟩ := valid.1
    have member : m.live[i] ∈ m.lists := mem_lists.mpr (.inl (List.getElem_mem inside))
    obtain ⟨n,alloc,made,consed⟩ := cons_spec good (ready_of_conses valid exact ⟨rfl,rfl⟩) (h := .value h) (x := h) (fun _ _ => rfl) member
    refine ⟨{ m with alloc, live := ⟨n,(n,h) :: m.live[i].entries⟩ :: m.live },?_,consed.good member rfl ?_ good.frames⟩
    · simp only [Op.user,List.getElem?_eq_getElem inside,Option.bind_eq_bind,Option.bind_some,made]
    · intro l member
      rcases mem_lists.mp member with user | ⟨frame,member',rfl⟩ | ⟨call',same,-⟩
      · rcases List.mem_cons.mp user with new | old
        · exact .inr new
        · exact .inl (mem_lists.mpr (.inl old))
      · exact .inl (good.waiting frame member').1
      · exact absurd (idle.symm.trans same) (by simp)
  | tl i =>
    obtain ⟨-,l,found,some⟩ := valid.1
    have live : l ∈ m.lists := mem_lists.mpr (.inl (List.mem_of_getElem? found))
    obtain ⟨⟨x,tl,here⟩,-⟩ := node_of_live good live some
    refine ⟨{ m with live := ⟨tl,l.entries.tail⟩ :: m.live },?_,good.user idle ?_⟩
    · simp only [Op.user,found,Option.bind_eq_bind,Option.bind_some,here]
    · intro l' member
      rcases List.mem_cons.mp member with rfl | member
      · exact .inr (.inr ⟨l,live,some,⟨x,here⟩,rfl⟩)
      · exact old l' member
  | concat i j =>
    obtain ⟨-,insideI,insideJ⟩ := valid.1
    refine ⟨{ m with call := some (.concat m.live[i] m.live[j]) },?_,good.turn good.waiting ?_⟩
    · simp only [Op.user,List.getElem?_eq_getElem insideI,List.getElem?_eq_getElem insideJ,Option.bind_eq_bind,Option.bind_some]
    · intro l member
      rcases List.mem_cons.mp member with rfl | member
      · exact old _ (List.getElem_mem insideI)
      · obtain rfl := List.mem_singleton.mp member
        exact old _ (List.getElem_mem insideJ)
  | remove i h =>
    obtain ⟨-,inside⟩ := valid.1
    refine ⟨{ m with call := some (.remove m.live[i] h) },?_,good.turn good.waiting ?_⟩
    · simp only [Op.user,List.getElem?_eq_getElem inside,Option.bind_eq_bind,Option.bind_some]
    · intro l member
      obtain rfl := List.mem_singleton.mp member
      exact old _ (List.getElem_mem inside)
  | forget i =>
    refine ⟨_,rfl,good.user idle ?_⟩
    intro l member
    exact old l (List.mem_of_mem_eraseIdx member)
  | step marks buffer => exact absurd rfl (user marks buffer)

theorem Op.holds {op : Op T} (good : Good m) (valid : op.Valid m) (exact : op.Exact m) :
    ∃ m', op.apply m = some m' ∧ op.Safe m m' ∧ Good m' := by
  cases running : m.call with
  | none =>
    have user : ∀ marks buffer, op ≠ .step marks buffer := by
      rintro marks buffer rfl
      exact valid.1 running
    obtain ⟨m',applied,good'⟩ := user_holds good valid exact running user
    exact ⟨m',by unfold Op.apply; rw [running]; exact applied,good'.safe,good'⟩
  | some call =>
    have busy : m.call ≠ none := by simp [running]
    cases op with
    | step marks buffer =>
      obtain ⟨m',applied,good'⟩ := step_holds good valid exact running
      exact ⟨m',by unfold Op.apply; rw [running]; exact applied,good'.safe,good'⟩
    | null => exact absurd valid.1 busy
    | forget i => exact absurd valid.1 busy
    | cons h i marks buffer => exact absurd valid.1.1 busy
    | tl i => exact absurd valid.1.1 busy
    | concat i j => exact absurd valid.1.1 busy
    | remove i h => exact absurd valid.1.1 busy

end

theorem good_create {size buffer : Nat} {mem : Store T} (pointer : width ≤ size) (fits : size < 2 ^ 20) (start : 0 < buffer)
    (stop : buffer + 2 ^ 20 < 256 ^ width) : Good (.create size buffer mem) := by
  have none : ∀ a, ¬InUse (Machine.create size buffer mem) a := by
    rintro a ⟨l,member,-⟩
    cases member
  refine ⟨⟨[],inv_create none mem (Nat.lt_of_lt_of_le (by decide) pointer) fits start stop⟩,?_,?_,pointer⟩
  · intro l member
    cases member
  · intro frame member
    cases member

/-- In a run whose collections meet their condition, every live list keeps its items. -/
theorem contents_kept [DecidableEq T] (size buffer : Nat) (mem : Store T) (ops : List (Op T)) (pointer : width ≤ size)
    (fits : size < 2 ^ 20) (start : 0 < buffer) (stop : buffer + 2 ^ 20 < 256 ^ width)
    (valid : Along Op.apply Op.Valid (.create size buffer mem) ops) (exact : Along Op.apply Op.Exact (.create size buffer mem) ops) :
    SafeAlong Op.apply Op.Safe (.create size buffer mem) ops :=
  safeAlong_of_along (fun _ _ good valid exact => Op.holds good valid exact) (good_create pointer fits start stop) valid exact

def Machine.twoNodes (top : Nat) (mem : Store Nat) (live : List (Lst Nat)) : Machine Nat :=
  ⟨⟨[2 ^ 20],top,0,0,2 ^ 19,2 ^ 20,mem⟩,live,[],none⟩

def one : Lst Nat := ⟨1048576,[(1048576,1)]⟩

def twoOne : Lst Nat := ⟨1572864,[(1572864,2),(1048576,1)]⟩

def empty : Store Nat := fun _ => .free 0

def filled : Store Nat := Function.update (Function.update empty 1048576 (.node 1 0)) 1572864 (.node 2 1048576)

def fullChunk (marks : List Nat) : List (Op Nat) := [.null,.cons 1 0 [] 0,.cons 2 0 [] 0,.forget 1,.cons 3 1 marks 4194304]

theorem valid_fullChunk {marks : List Nat} (all : ∀ i < 2, i ∈ marks) :
    Along Op.apply Op.Valid (.create (2 ^ 19) (2 ^ 20) empty) (fullChunk marks) := by
  have fresh : Fresh (Machine.twoNodes 2097152 filled [twoOne,.null]).alloc 4194304 := by
    refine ⟨by decide,by decide,?_⟩
    intro c member
    obtain rfl := List.mem_singleton.mp member
    exact .inl (by decide)
  refine .cons (t := .twoNodes 1048576 empty [.null]) rfl ⟨rfl,fun _ _ collects => collects.1.elim⟩ ?_
  refine .cons (t := .twoNodes 1572864 (Function.update empty 1048576 (.node 1 0)) [one,.null]) rfl
    ⟨⟨rfl,by decide⟩,fun _ _ collects => absurd (by decide) collects.2.2⟩ ?_
  refine .cons (t := .twoNodes 2097152 filled [twoOne,one,.null]) rfl
    ⟨⟨rfl,by decide⟩,fun _ _ collects => absurd (by decide) collects.2.2⟩ ?_
  refine .cons (t := .twoNodes 2097152 filled [twoOne,.null]) rfl ⟨rfl,fun _ _ collects => collects.1.elim⟩ ?_
  refine ⟨⟨⟨rfl,by decide⟩,?_⟩,fun _ _ => trivial⟩
  rintro _ _ ⟨⟨rfl,rfl⟩,-⟩
  exact ⟨all,fresh⟩

/-- A list is marked once for each of its nodes. -/
theorem contents_kept_marked :
    SafeAlong Op.apply Op.Safe (.create (2 ^ 19) (2 ^ 20) empty) (fullChunk [0,0,1]) := by
  refine contents_kept (2 ^ 19) (2 ^ 20) empty _ (by decide) (by decide) (by decide) (by decide) (valid_fullChunk (by decide)) ?_
  refine .cons (t := .twoNodes 1048576 empty [.null]) rfl (fun _ _ collects => collects.1.elim) ?_
  refine .cons (t := .twoNodes 1572864 (Function.update empty 1048576 (.node 1 0)) [one,.null]) rfl
    (fun _ _ collects => absurd (by decide) collects.2.2) ?_
  refine .cons (t := .twoNodes 2097152 filled [twoOne,one,.null]) rfl (fun _ _ collects => absurd (by decide) collects.2.2) ?_
  refine .cons (t := .twoNodes 2097152 filled [twoOne,.null]) rfl (fun _ _ collects => collects.1.elim) ?_
  refine ⟨?_,fun _ _ => trivial⟩
  rintro _ _ ⟨⟨rfl,rfl⟩,-⟩
  exact ⟨⟨by decide,by decide⟩,by decide⟩

/-- The marks of the live lists leave the second node of a list, which becomes a node of another list. -/
theorem mark_frees_tail :
    Along Op.apply Op.Valid (.create (2 ^ 19) (2 ^ 20) empty) (fullChunk [0,1]) ∧
      ¬SafeAlong Op.apply Op.Safe (.create (2 ^ 19) (2 ^ 20) empty) (fullChunk [0,1]) := by
  refine ⟨valid_fullChunk (by decide),?_⟩
  intro run
  have run := run.tail (t := .twoNodes 1048576 empty [.null]) rfl
  have run := run.tail (t := .twoNodes 1572864 (Function.update empty 1048576 (.node 1 0)) [one,.null]) rfl
  have run := run.tail (t := .twoNodes 2097152 filled [twoOne,one,.null]) rfl
  have run := run.tail (t := .twoNodes 2097152 filled [twoOne,.null]) rfl
  obtain ⟨m,applied,safe,-⟩ := run
  have last := Option.some.inj applied
  subst last
  obtain ⟨-,tl,here,-,tl',tail,-⟩ := safe twoOne (List.mem_cons_of_mem _ List.mem_cons_self)
  cases here
  cases tail

end Otawa.Imm
