import Otawa.StackAllocator

/-!
The garbage collector `SimpleGC` of `elm`, over the stack allocator: when the current chunk is
full, the user marks the live blocks, each run of units that are not marked becomes a free block,
and the next blocks are taken from the end of the free ones. A free block is not put at the start
of its run but at its end, so that a collection is safe only if it finds nothing to free.
-/
namespace Otawa.Collecting
open Otawa.Blocks (Block)
open Otawa.Runs
open Otawa.Stacking (StackAllocator Chunks Under Fresh)

/-- `sizeof(block_t)`. -/
def unit : Nat := 16

/-- `round`, the next multiple of the unit. -/
def round (size : Nat) : Nat := (size + unit - 1) / unit * unit

/-- `gc_chunk_t`: the buffer of a chunk and the marks of its units. -/
structure GcChunk where
  buffer : Nat
  bits : List Bool

/-- The loop of `mark` on the bits from `p` on. -/
def setBits (bits : List Bool) (p s : Nat) : List Bool := bits.mapIdx fun i bit => bit || decide (p ≤ i ∧ i < p + s)

/-- The place from `i` on where a loop of `endGC` on the set bits stops. -/
def skip (bits : List Bool) (i : Nat) : Nat := i + (bits.drop i).findIdx not

/-- The loop of `endGC` on a chunk: where the loop that follows a null bit stops, and how far it is from this bit. -/
def freeRuns (bits : List Bool) : Nat → Nat → List (Nat × Nat)
  | 0, _ => []
  | fuel + 1, i =>
    let b := skip bits i
    if b < bits.length then
      let i := skip bits (b + 1)
      (i,i - b) :: freeRuns bits fuel i
    else []

namespace GcChunk

def has (size data : Nat) (c : GcChunk) : Bool := c.buffer ≤ data && data < c.buffer + size

/-- The free blocks of a chunk, in the order of `endGC`. -/
def freeBlocks (c : GcChunk) : List Block :=
  (freeRuns c.bits (c.bits.length + 1) 0).map fun (i,n) => ⟨c.buffer + i * unit,n * unit⟩

end GcChunk

/-- `mark`, with its result; `st` finds the chunk of the segment of the data. -/
def mark (size : Nat) (chunks : List GcChunk) (data n : Nat) : Option (Bool × List GcChunk) :=
  (chunks.find? (GcChunk.has size data)).map fun c =>
    let p := (data - c.buffer) / unit
    let s := n / unit
    (((c.bits.drop p).take s).all id,
      chunks.map fun d => if d.buffer = c.buffer then { d with bits := setBits d.bits p s } else d)

/-- `SimpleGC`: the stack that it extends and the free list, its first block first. -/
structure SimpleGC where
  stack : StackAllocator
  free : List Block

namespace SimpleGC
variable (g : SimpleGC)

def create (size buffer : Nat) : SimpleGC := ⟨(StackAllocator.create (round size)).newChunk buffer,[]⟩

/-- `allocFromFreeList`: the block it returns and the list it leaves. -/
def allocFromFreeList (size : Nat) : List Block → Option (Nat × List Block)
  | [] => none
  | block :: rest =>
    if size ≤ block.size then
      let res := block.base + block.size - size
      some (res,if res = block.base then rest else block :: rest)
    else (allocFromFreeList size rest).map fun (res,rest) => (res,block :: rest)

def beginGC : List GcChunk :=
  (g.stack.chunks.map fun c => ⟨c,List.replicate (g.stack.size / unit) false⟩).reverse

/-- `collect`, which marks the given blocks. -/
def collect (marks : List Block) (chunks : List GcChunk) : Option (List GcChunk) :=
  marks.foldlM (fun chunks b => (mark g.stack.size chunks b.base b.size).map Prod.snd) chunks

def endGC (chunks : List GcChunk) : SimpleGC :=
  { g with free := (chunks.flatMap GcChunk.freeBlocks).reverse ++ g.free }

def doGC (marks : List Block) : Option SimpleGC := (g.collect marks g.beginGC).map g.endGC

def takeFree (size : Nat) : Option (Nat × SimpleGC) :=
  (allocFromFreeList size g.free).map fun (res,free) => (res,{ g with free })

/-- A block of the current chunk, as `StackAllocator::allocate` takes it. -/
def takeTop (size : Nat) : Option (Nat × SimpleGC) :=
  (g.stack.take size).map fun (res,stack) => (res,{ g with stack })

/-- `chunkFilled`, with the blocks that `collect` marks and the buffer that the system gives. -/
def chunkFilled (marks : List Block) (buffer size : Nat) : Option (Nat × SimpleGC) := do
  let g ← g.doGC marks
  (g.takeFree size).or (takeTop { g with stack := g.stack.newChunk buffer } size)

def allocate (size buffer : Nat) (marks : List Block) : Option (Nat × SimpleGC) :=
  let size := round size
  (g.takeFree size).or <|
    if size ≤ g.stack.size then (g.takeTop size).or (g.chunkFilled marks buffer size) else none

end SimpleGC

structure Machine where
  gc : SimpleGC
  live : List Block

/-- An operation; `marks` are the blocks that `collect` marks if there is a collection. The user forgets a
    live block by its index. -/
inductive Op where
  | allocate (n buffer : Nat) (marks : List Block)
  | forget (i : Nat)
  | doGC (marks : List Block)

def Machine.create (size buffer : Nat) : Machine := ⟨.create size buffer,[]⟩

def Op.apply (m : Machine) : Op → Option Machine
  | allocate n buffer marks => (m.gc.allocate n buffer marks).map fun (p,gc) => ⟨gc,⟨p,n⟩ :: m.live⟩
  | forget i => some ⟨m.gc,m.live.eraseIdx i⟩
  | doGC marks => (m.gc.doGC marks).map fun gc => ⟨gc,m.live⟩

/-- The operation makes a collection with these marks. -/
def Op.Collects (m : Machine) (op : Op) (marks : List Block) : Prop :=
  match op with
  | allocate n _ marks' => marks' = marks ∧ m.gc.takeFree (round n) = none ∧ m.gc.takeTop (round n) = none
  | forget _ => False
  | doGC marks' => marks' = marks

structure Marks (m : Machine) (marks : List Block) : Prop where
  live : ∀ b ∈ m.live, 0 < b.size → b ∈ marks
  inside : ∀ b ∈ marks, ∃ c ∈ m.gc.stack.chunks, b.Within ⟨c,m.gc.stack.size⟩ ∧ b.base < c + m.gc.stack.size

/-- The size is at most the one of a chunk, and a collection marks the live blocks. -/
def Op.Valid (m : Machine) (op : Op) : Prop :=
  (∀ marks, op.Collects m marks → Marks m marks) ∧
    match op with
    | allocate n buffer marks => round n ≤ m.gc.stack.size ∧ ((allocate n buffer marks).Collects m marks → Fresh m.gc.stack buffer)
    | forget _ | doGC _ => True

def Freed (m : Machine) (marks : List Block) : Prop :=
  ∀ chunks, m.gc.collect marks m.gc.beginGC = some chunks → ∀ c ∈ chunks, ∀ b ∈ c.freeBlocks,
    b.Within ⟨c.buffer,m.gc.stack.size⟩ ∧ ∀ i, c.bits[i]? = some true → b.Apart ⟨c.buffer + i * unit,unit⟩

def Op.Safe (m : Machine) (op : Op) (m' : Machine) : Prop :=
  (∀ marks, op.Collects m marks → Freed m marks) ∧
    match op with
    | allocate n _ _ => ∃ p, m'.live = ⟨p,n⟩ :: m.live ∧ ∀ b ∈ m.live, (Block.mk p n).Apart b
    | forget _ | doGC _ => True

def covered (size : Nat) (marks : List Block) (c i : Nat) : Bool :=
  marks.any fun b => decide (c ≤ b.base ∧ b.base < c + size ∧ (b.base - c) / unit ≤ i ∧ i < (b.base - c) / unit + b.size / unit)

def Op.Exact (m : Machine) (op : Op) : Prop :=
  ∀ marks, op.Collects m marks → ∀ c ∈ m.gc.stack.chunks, ∀ i < m.gc.stack.size / unit, covered m.gc.stack.size marks c i

section
variable {bits : List Bool} {i j fuel : Nat}

theorem le_skip (bits : List Bool) (i : Nat) : i ≤ skip bits i := Nat.le_add_right _ _

theorem skip_le (inside : i ≤ bits.length) : skip bits i ≤ bits.length := by
  have := @List.findIdx_le_length _ not (bits.drop i)
  rw [List.length_drop] at this
  unfold skip
  omega

theorem skip_lt (after : i ≤ j) (zero : bits[j]? = some false) : skip bits i < bits.length := by
  obtain ⟨inside,-⟩ := List.getElem?_eq_some_iff.mp zero
  have member : false ∈ bits.drop i := by
    refine List.mem_iff_getElem?.mpr ⟨j - i,?_⟩
    rw [List.getElem?_drop,Nat.add_sub_cancel' after,zero]
  have := List.findIdx_lt_length_of_exists (p := not) ⟨false,member,rfl⟩
  rw [List.length_drop] at this
  unfold skip
  omega

theorem getElem_skip (inside : skip bits i < bits.length) : bits[skip bits i]? = some false := by
  have lt : (bits.drop i).findIdx not < (bits.drop i).length := by
    rw [List.length_drop]
    unfold skip at inside
    omega
  have found := List.findIdx_getElem (w := lt)
  rw [List.getElem_drop,Bool.not_eq_true'] at found
  exact List.getElem?_eq_some_iff.mpr ⟨inside,found⟩

theorem freeRuns_eq_nil (ones : ∀ b ∈ bits, b = true) (i fuel : Nat) : freeRuns bits fuel i = [] := by
  cases fuel with
  | zero => rfl
  | succ fuel =>
    rw [freeRuns,if_neg]
    intro inside
    have zero := List.mem_of_getElem? (getElem_skip inside)
    exact absurd (ones false zero) (by simp)

/-- When there is a null bit, a free block is put after the last bit. -/
theorem freeRuns_last (enough : bits.length < fuel + i) (after : i ≤ j) (zero : bits[j]? = some false) :
    ∃ n, 0 < n ∧ (bits.length,n) ∈ freeRuns bits fuel i := by
  induction fuel generalizing i j with
  | zero =>
    obtain ⟨inside,-⟩ := List.getElem?_eq_some_iff.mp zero
    omega
  | succ fuel ih =>
    have inside := skip_lt after zero
    have first := le_skip bits i
    have second := le_skip bits (skip bits i + 1)
    rw [freeRuns,if_pos inside]
    by_cases more : skip bits (skip bits i + 1) < bits.length
    · obtain ⟨n,positive,member⟩ := ih (by omega) (Nat.le_refl _) (getElem_skip more)
      exact ⟨n,positive,List.mem_cons_of_mem _ member⟩
    · have last : skip bits (skip bits i + 1) = bits.length :=
        Nat.le_antisymm (skip_le inside) (Nat.not_lt.mp more)
      refine ⟨bits.length - skip bits i,by omega,?_⟩
      rw [last]
      exact List.mem_cons_self

end

section
variable {size data n : Nat} {chunks : List Nat} {gs gs' : List GcChunk} {marks : List Block}

theorem covered_cons (b : Block) (marks : List Block) (c i : Nat) :
    covered size (b :: marks) c i = (covered size [b] c i || covered size marks c i) := by
  simp [covered]

def GcChunk.add (size : Nat) (marks : List Block) (d : GcChunk) : GcChunk :=
  ⟨d.buffer,d.bits.mapIdx fun i bit => bit || covered size marks d.buffer i⟩

theorem GcChunk.add_nil (d : GcChunk) : d.add size [] = d := by
  simp [GcChunk.add,covered,List.mapIdx_eq_zipIdx_map]

theorem GcChunk.add_cons (b : Block) (d : GcChunk) : (d.add size [b]).add size marks = d.add size (b :: marks) := by
  simp only [GcChunk.add,List.mapIdx_mapIdx]
  congr 2
  funext i bit
  simp [covered_cons b marks,Bool.or_assoc]

theorem mark_eq (ok : Chunks size chunks) (inside : ∀ d ∈ gs, d.buffer ∈ chunks) {res : Bool}
    (marked : mark size gs data n = some (res,gs')) : gs' = gs.map (GcChunk.add size [⟨data,n⟩]) := by
  obtain ⟨c,found,same⟩ := Option.map_eq_some_iff.mp marked
  obtain ⟨rfl,rfl⟩ := Prod.mk.inj same
  have member := List.mem_of_find?_eq_some found
  have has := List.find?_some found
  simp only [GcChunk.has,Bool.and_eq_true,decide_eq_true_eq] at has
  refine List.map_congr_left ?_
  intro d member'
  by_cases same : d.buffer = c.buffer
  · rw [if_pos same]
    simp [GcChunk.add,covered,setBits,same,has]
  · rw [if_neg same]
    have apart := ok.of_ne (inside d member') (inside c member) same
    have away : ¬(d.buffer ≤ data ∧ data < d.buffer + size) := by omega
    have none : ∀ i, covered size [⟨data,n⟩] d.buffer i = false := by
      intro i
      simp only [covered,List.any_cons,List.any_nil,Bool.or_false,decide_eq_false_iff_not]
      exact fun all => away ⟨all.1,all.2.1⟩
    simp [GcChunk.add,none,List.mapIdx_eq_zipIdx_map]

theorem mark_some {c : GcChunk} (member : c ∈ gs) (has : c.has size data) : ∃ r, mark size gs data n = some r := by
  obtain ⟨d,found⟩ := Option.isSome_iff_exists.mp (List.find?_isSome.mpr ⟨c,member,has⟩)
  exact ⟨_,by rw [mark,found]; rfl⟩

variable {g : SimpleGC}

theorem collect_eq (ok : Chunks g.stack.size chunks) (inside : ∀ d ∈ gs, d.buffer ∈ chunks)
    (collected : g.collect marks gs = some gs') : gs' = gs.map (GcChunk.add g.stack.size marks) := by
  induction marks generalizing gs with
  | nil =>
    obtain rfl : gs = gs' := Option.some.inj collected
    exact (List.map_id'' GcChunk.add_nil gs).symm
  | cons b marks ih =>
    rw [SimpleGC.collect,List.foldlM_cons,Option.bind_eq_bind,Option.bind_eq_some_iff] at collected
    obtain ⟨mid,first,rest⟩ := collected
    obtain ⟨⟨res,_⟩,marked,rfl⟩ := Option.map_eq_some_iff.mp first
    obtain rfl := mark_eq ok inside marked
    rw [ih ?_ rest,List.map_map]
    · exact List.map_congr_left fun d _ => GcChunk.add_cons b d
    · intro d member
      obtain ⟨d',member',rfl⟩ := List.mem_map.mp member
      exact inside d' member'

theorem collect_some (found : ∀ b ∈ marks, ∃ d ∈ gs, d.buffer ≤ b.base ∧ b.base < d.buffer + g.stack.size)
    (ok : Chunks g.stack.size chunks) (inside : ∀ d ∈ gs, d.buffer ∈ chunks) : ∃ gs', g.collect marks gs = some gs' := by
  induction marks generalizing gs with
  | nil => exact ⟨gs,rfl⟩
  | cons b marks ih =>
    obtain ⟨d,member,start,stop⟩ := found b List.mem_cons_self
    have has : d.has g.stack.size b.base := by simp [GcChunk.has,start,stop]
    obtain ⟨⟨res,mid⟩,marked⟩ := mark_some (n := b.size) member has
    obtain rfl := mark_eq ok inside marked
    have found' : ∀ b' ∈ marks, ∃ d ∈ gs.map (GcChunk.add g.stack.size [b]), d.buffer ≤ b'.base ∧ b'.base < d.buffer + g.stack.size := by
      intro b' member'
      obtain ⟨d',member'',within⟩ := found b' (List.mem_cons_of_mem _ member')
      exact ⟨_,List.mem_map_of_mem member'',within⟩
    have inside' : ∀ d ∈ gs.map (GcChunk.add g.stack.size [b]), d.buffer ∈ chunks := by
      intro d' member'
      obtain ⟨d'',member'',rfl⟩ := List.mem_map.mp member'
      exact inside d'' member''
    obtain ⟨gs',rest⟩ := ih found' inside'
    refine ⟨gs',?_⟩
    rw [SimpleGC.collect,List.foldlM_cons,marked]
    exact rest

def collectedChunk (size : Nat) (marks : List Block) (c : Nat) : GcChunk :=
  ⟨c,(List.range (size / unit)).map (covered size marks c)⟩

theorem add_null (c : Nat) :
    GcChunk.add size marks ⟨c,List.replicate (size / unit) false⟩ = collectedChunk size marks c := by
  simp only [GcChunk.add,collectedChunk,GcChunk.mk.injEq,true_and]
  refine List.ext_getElem (by simp) ?_
  intro i _ _
  simp

theorem collect_beginGC (ok : Chunks g.stack.size g.stack.chunks) (collected : g.collect marks g.beginGC = some gs) :
    gs = (g.stack.chunks.map (collectedChunk g.stack.size marks)).reverse := by
  rw [collect_eq ok ?_ collected,SimpleGC.beginGC,List.map_reverse,List.map_map]
  · congr 1
    exact List.map_congr_left fun c _ => add_null c
  · intro d member
    obtain ⟨c,member',rfl⟩ := List.mem_map.mp (List.mem_reverse.mp member)
    exact member'

end

/-- Nothing was freed: the blocks are under the top of the stack, whose end is the one of the current chunk. -/
structure Good (m : Machine) : Prop where
  free : m.gc.free = []
  units : unit ∣ m.gc.stack.size
  chunks : Chunks m.gc.stack.size m.gc.stack.chunks
  place : ∃ c rest, m.gc.stack.chunks = c :: rest ∧ c ≤ m.gc.stack.top ∧ m.gc.stack.top ≤ c + m.gc.stack.size ∧
    m.gc.stack.max = c + m.gc.stack.size
  under : ∀ b ∈ m.live, Under m.gc.stack.size m.gc.stack.chunks m.gc.stack.top b

section
variable {m m' : Machine} {n buffer : Nat} {marks : List Block}

theorem le_round (n : Nat) : n ≤ round n := by
  unfold round unit
  omega

theorem good_create {size : Nat} (fresh : Fresh (.create (round size)) buffer) : Good (.create size buffer) := by
  have ok : Chunks (round size) [buffer] := (Stacking.good_create (round size)).chunks.cons fresh
  refine ⟨rfl,Nat.dvd_mul_left _ _,ok,⟨buffer,[],rfl,Nat.le_refl _,Nat.le_add_right _ _,rfl⟩,?_⟩
  intro b member
  cases member

theorem Marks.collect_some (good : Good m) (marked : Marks m marks) : ∃ gs, m.gc.collect marks m.gc.beginGC = some gs := by
  refine Collecting.collect_some ?_ good.chunks ?_
  · intro b member
    obtain ⟨c,member',within,stop⟩ := marked.inside b member
    refine ⟨⟨c,_⟩,List.mem_reverse.mpr (List.mem_map_of_mem member'),within.1,stop⟩
  · intro d member
    obtain ⟨c,member',rfl⟩ := List.mem_map.mp (List.mem_reverse.mp member)
    exact member'

theorem mem_freeBlocks {c : GcChunk} {i n : Nat} (member : (i,n) ∈ freeRuns c.bits (c.bits.length + 1) 0) :
    ⟨c.buffer + i * unit,n * unit⟩ ∈ c.freeBlocks := List.mem_map.mpr ⟨(i,n),member,rfl⟩

theorem freeBlocks_eq_nil {size c : Nat} (all : ∀ i < size / unit, covered size marks c i) :
    (collectedChunk size marks c).freeBlocks = [] := by
  rw [GcChunk.freeBlocks,freeRuns_eq_nil,List.map_nil]
  intro b member
  obtain ⟨i,inside,rfl⟩ := List.mem_map.mp member
  exact all i (List.mem_range.mp inside)

theorem freed_iff (good : Good m) (marked : Marks m marks) :
    Freed m marks ↔ ∀ c ∈ m.gc.stack.chunks, ∀ i < m.gc.stack.size / unit, covered m.gc.stack.size marks c i := by
  constructor
  · intro freed c member i inside
    obtain ⟨gs,collected⟩ := marked.collect_some good
    have same := collect_beginGC good.chunks collected
    by_contra null
    have zero : (collectedChunk m.gc.stack.size marks c).bits[i]? = some false := by
      simpa [collectedChunk,inside] using null
    obtain ⟨n,positive,last⟩ := freeRuns_last (Nat.lt_succ_self _) (Nat.zero_le i) zero
    have listed := mem_freeBlocks last
    have here : collectedChunk m.gc.stack.size marks c ∈ gs := by
      rw [same]
      exact List.mem_reverse.mpr (List.mem_map_of_mem member)
    have within := (freed gs collected _ here _ listed).1.2
    have length : (collectedChunk m.gc.stack.size marks c).bits.length * unit = m.gc.stack.size := by
      rw [collectedChunk,List.length_map,List.length_range,Nat.div_mul_cancel good.units]
    have more : 0 < n * unit := Nat.mul_pos positive (by decide)
    simp only [length] at within
    change c + m.gc.stack.size + n * unit ≤ c + m.gc.stack.size at within
    omega
  · intro all gs collected d member b listed
    rw [collect_beginGC good.chunks collected] at member
    obtain ⟨c,member',rfl⟩ := List.mem_map.mp (List.mem_reverse.mp member)
    rw [freeBlocks_eq_nil (all c member')] at listed
    cases listed

theorem doGC_eq (good : Good m) (marked : Marks m marks)
    (all : ∀ c ∈ m.gc.stack.chunks, ∀ i < m.gc.stack.size / unit, covered m.gc.stack.size marks c i) :
    m.gc.doGC marks = some m.gc := by
  obtain ⟨gs,collected⟩ := marked.collect_some good
  have none : gs.flatMap GcChunk.freeBlocks = [] := by
    refine List.flatMap_eq_nil_iff.mpr ?_
    intro d member
    rw [collect_beginGC good.chunks collected] at member
    obtain ⟨c,member',rfl⟩ := List.mem_map.mp (List.mem_reverse.mp member)
    exact freeBlocks_eq_nil (all c member')
  rw [SimpleGC.doGC,collected,Option.map_some,SimpleGC.endGC,none]
  rfl

theorem Good.took (good : Good m) {c : Nat} {rest : List Nat} (current : m.gc.stack.chunks = c :: rest)
    (room : m.gc.stack.top + round n ≤ c + m.gc.stack.size) :
    (∀ b ∈ m.live, (Block.mk m.gc.stack.top n).Apart b) ∧
      Good ⟨{ m.gc with stack := { m.gc.stack with top := m.gc.stack.top + round n } },⟨m.gc.stack.top,n⟩ :: m.live⟩ := by
  obtain ⟨c',rest',current',start,-,ends⟩ := good.place
  obtain ⟨rfl,rfl⟩ := List.cons.inj (current'.symm.trans current)
  have larger := le_round n
  have ok : Chunks m.gc.stack.size (c' :: rest') := current ▸ good.chunks
  refine ⟨?_,good.free,good.units,good.chunks,⟨c',rest',current,?_,room,ends⟩,?_⟩
  · intro b member
    have apart := (current ▸ good.under b member).apart ok start room
    exact apart.within ⟨Nat.le_refl _,Nat.add_le_add_left larger _⟩
  · exact Nat.le_trans start (Nat.le_add_right _ _)
  · intro b member
    rcases List.mem_cons.mp member with rfl | old
    · refine ⟨[],c',rest',current,⟨start,?_⟩,fun _ => Nat.add_le_add_left larger _⟩
      exact Nat.le_trans (Nat.add_le_add_left larger _) room
    · exact (good.under b old).mono (.inl ⟨rfl,Nat.le_add_right _ _⟩)

theorem Good.newChunk (good : Good m) (fresh : Fresh m.gc.stack buffer) :
    Good ⟨{ m.gc with stack := m.gc.stack.newChunk buffer },m.live⟩ := by
  refine ⟨good.free,good.units,good.chunks.cons fresh,⟨buffer,_,rfl,Nat.le_refl _,Nat.le_add_right _ _,rfl⟩,?_⟩
  intro b member
  exact (good.under b member).mono (.inr ⟨[buffer],by simp,rfl⟩)

theorem takeFree_of_nil {g : SimpleGC} (free : g.free = []) (n : Nat) : g.takeFree n = none := by
  rw [SimpleGC.takeFree,free]
  rfl

/-- A block of the current chunk when it has place for it. -/
theorem apply_allocate_old (good : Good m) (ok : round n ≤ m.gc.stack.size) {stack : StackAllocator} {p : Nat}
    (taken : m.gc.stack.take (round n) = some (p,stack)) :
    Op.apply m (.allocate n buffer marks) = some ⟨{ m.gc with stack },⟨p,n⟩ :: m.live⟩ := by
  simp [Op.apply,SimpleGC.allocate,takeFree_of_nil good.free,ok,SimpleGC.takeTop,taken]

theorem apply_allocate_new (good : Good m) (ok : round n ≤ m.gc.stack.size) (full : m.gc.stack.take (round n) = none)
    (collected : m.gc.doGC marks = some m.gc) (fresh : Fresh m.gc.stack buffer) :
    Op.apply m (.allocate n buffer marks) =
      some ⟨{ m.gc with stack := { m.gc.stack.newChunk buffer with top := buffer + round n } },⟨buffer,n⟩ :: m.live⟩ := by
  have bound : m.gc.stack.size < 2 ^ 64 := by
    have := fresh.stop
    omega
  simp [Op.apply,SimpleGC.allocate,takeFree_of_nil good.free,ok,SimpleGC.takeTop,full,SimpleGC.chunkFilled,collected,
    Stacking.take_newChunk ok bound]

theorem allocate_holds (good : Good m) (valid : (Op.allocate n buffer marks).Valid m)
    (exact : (Op.allocate n buffer marks).Exact m) :
    ∃ m', Op.apply m (.allocate n buffer marks) = some m' ∧ (Op.allocate n buffer marks).Safe m m' ∧ Good m' := by
  obtain ⟨marked,ok,system⟩ := valid
  have freed : ∀ marks', (Op.allocate n buffer marks).Collects m marks' → Freed m marks' := by
    intro marks' collects
    exact (freed_iff good (marked marks' collects)).mpr (exact marks' collects)
  obtain ⟨c,rest,current,start,stop,ends⟩ := good.place
  cases taken : m.gc.stack.take (round n) with
  | none =>
    have collects : (Op.allocate n buffer marks).Collects m marks := by
      refine ⟨rfl,takeFree_of_nil good.free _,?_⟩
      rw [SimpleGC.takeTop,taken,Option.map_none]
    have collected := doGC_eq good (marked marks collects) (exact marks collects)
    obtain ⟨apart,good'⟩ := (good.newChunk (system collects)).took (n := n) rfl (Nat.add_le_add_left ok _)
    exact ⟨_,apply_allocate_new good ok taken collected (system collects),⟨freed,buffer,rfl,apart⟩,good'⟩
  | some r =>
    have room : ¬Stacking.sizeT (m.gc.stack.max - m.gc.stack.top) < round n := by
      intro less
      rw [Stacking.take_of_lt less] at taken
      cases taken
    rw [Stacking.take_of_le current room,Option.some.injEq] at taken
    have less : m.gc.stack.top + round n ≤ c + m.gc.stack.size := by
      have bound := (good.chunks.bounds c (by simp [current])).2
      have same : (m.gc.stack.max : Int) - m.gc.stack.top = (c + m.gc.stack.size - m.gc.stack.top : Nat) := by omega
      rw [same,Stacking.sizeT_cast (by omega)] at room
      omega
    obtain ⟨apart,good'⟩ := good.took current less
    have applied := @apply_allocate_old m n buffer marks good ok _ _ (Stacking.take_of_le current room)
    exact ⟨_,applied,⟨freed,m.gc.stack.top,rfl,apart⟩,good'⟩

theorem Op.holds {op : Op} (good : Good m) (valid : op.Valid m) (exact : op.Exact m) :
    ∃ m', op.apply m = some m' ∧ op.Safe m m' ∧ Good m' := by
  cases op with
  | allocate n buffer marks => exact allocate_holds good valid exact
  | forget i =>
    refine ⟨_,rfl,⟨fun _ none => none.elim,trivial⟩,good.free,good.units,good.chunks,good.place,?_⟩
    intro b member
    exact good.under b (List.mem_of_mem_eraseIdx member)
  | doGC marks =>
    have marked := valid.1 marks rfl
    have all := exact marks rfl
    refine ⟨m,?_,⟨?_,trivial⟩,good⟩
    · rw [Op.apply,doGC_eq good marked all]
      rfl
    · rintro _ rfl
      exact (freed_iff good marked).mpr all

theorem Op.exact_of_safe {op : Op} (good : Good m) (valid : op.Valid m) (safe : op.Safe m m') : op.Exact m := by
  intro marks collects
  exact (freed_iff good (valid.1 marks collects)).mp (safe.1 marks collects)

end

/-- In a run of the collector the blocks overlap no live block and the free list covers only units of the chunks
    that were not marked exactly when every collection finds all the units of the chunks marked. -/
theorem safeAlong_iff_covered (size buffer : Nat) (ops : List Op) (fresh : Fresh (.create (round size)) buffer)
    (valid : Along Op.apply Op.Valid (.create size buffer) ops) :
    SafeAlong Op.apply Op.Safe (.create size buffer) ops ↔ Along Op.apply Op.Exact (.create size buffer) ops :=
  safeAlong_iff_along (fun _ _ good valid exact => Op.holds good valid exact)
    (fun _ _ _ good valid _ safe => Op.exact_of_safe good valid safe) (good_create fresh) valid

def Machine.oneChunk (size top : Nat) (free live : List Block) : Machine := ⟨⟨⟨[1000],top,1000 + size,size⟩,free⟩,live⟩

theorem fresh_oneChunk {size : Nat} (bound : 1000 + round size < 2 ^ 64) : Fresh (.create (round size)) 1000 := by
  refine ⟨by decide,bound,?_⟩
  intro c member
  cases member

section
variable {m : Machine} {n buffer : Nat} {marks : List Block}

theorem not_collects (place : ((m.gc.takeFree (round n)).or (m.gc.takeTop (round n))).isSome) (marks' : List Block) :
    ¬(Op.allocate n buffer marks).Collects m marks' := by
  rintro ⟨-,none,none'⟩
  rw [none,none'] at place
  cases place

theorem valid_of_place (place : ((m.gc.takeFree (round n)).or (m.gc.takeTop (round n))).isSome) (ok : round n ≤ m.gc.stack.size) :
    (Op.allocate n buffer marks).Valid m :=
  ⟨fun marks' collects => absurd collects (not_collects place marks'),ok,fun collects => absurd collects (not_collects place marks)⟩

theorem exact_of_place (place : ((m.gc.takeFree (round n)).or (m.gc.takeTop (round n))).isSome) :
    (Op.allocate n buffer marks).Exact m :=
  fun marks' collects => absurd collects (not_collects place marks')

theorem marks_oneChunk {size top : Nat} {free : List Block} {b c : Block}
    (inside : ∀ d ∈ [b,c], 1000 ≤ d.base ∧ d.base + d.size ≤ 1000 + size ∧ d.base < 1000 + size) :
    Marks (.oneChunk size top free [b,c]) [b,c] := by
  refine ⟨fun _ member _ => member,?_⟩
  intro d member
  obtain ⟨start,stop,less⟩ := inside d member
  exact ⟨1000,List.mem_cons_self,⟨start,stop⟩,less⟩

end

/-- A new chunk after a collection that finds the first one full of live blocks. -/
theorem safeAlong_fullChunk :
    SafeAlong Op.apply Op.Safe (.create 32 1000) [.allocate 16 0 [],.allocate 16 0 [],.allocate 20 5000 [⟨1016,16⟩,⟨1000,16⟩]] := by
  have second : Fresh (Machine.oneChunk 32 1032 [] [⟨1016,16⟩,⟨1000,16⟩]).gc.stack 5000 := by
    refine ⟨by decide,by decide,?_⟩
    intro c member
    obtain rfl : c = 1000 := List.mem_singleton.mp member
    exact .inl (by decide)
  refine (safeAlong_iff_covered 32 1000 _ (fresh_oneChunk (by decide)) ?_).mpr ?_
  · refine .cons (t := .oneChunk 32 1016 [] [⟨1000,16⟩]) rfl (valid_of_place rfl (by decide)) ?_
    refine .cons (t := .oneChunk 32 1032 [] [⟨1016,16⟩,⟨1000,16⟩]) rfl (valid_of_place rfl (by decide)) ?_
    refine .cons rfl ⟨?_,by decide,fun _ => second⟩ trivial
    rintro marks ⟨rfl,-⟩
    exact marks_oneChunk (by decide)
  · refine .cons (t := .oneChunk 32 1016 [] [⟨1000,16⟩]) rfl (exact_of_place rfl) ?_
    refine .cons (t := .oneChunk 32 1032 [] [⟨1016,16⟩,⟨1000,16⟩]) rfl (exact_of_place rfl) ?_
    refine .cons rfl ?_ trivial
    rintro marks ⟨rfl,-⟩
    decide

/-- The collection of a chunk of four units in which the first and the third one are free: the free block of the
    first unit is put at the third one and goes over the fourth one, which is marked, and the other one is put
    after the chunk. The second block that is allocated then overlaps the one of the fourth unit. -/
theorem endGC_over_live :
    let ops : List Op := [.allocate 16 0 [],.allocate 16 0 [],.allocate 16 0 [],.allocate 16 0 [],.forget 1,.forget 2,
      .doGC [⟨1048,16⟩,⟨1016,16⟩],.allocate 32 0 [],.allocate 32 0 []]
    Along Op.apply Op.Valid (.create 64 1000) ops ∧ ¬SafeAlong Op.apply Op.Safe (.create 64 1000) ops ∧
      (ops.foldlM Op.apply (.create 64 1000)).map Machine.live = some [⟨1032,32⟩,⟨1064,32⟩,⟨1048,16⟩,⟨1016,16⟩] := by
  refine ⟨?_,?_,rfl⟩
  · refine .cons (t := .oneChunk 64 1016 [] [⟨1000,16⟩]) rfl (valid_of_place rfl (by decide)) ?_
    refine .cons (t := .oneChunk 64 1032 [] [⟨1016,16⟩,⟨1000,16⟩]) rfl (valid_of_place rfl (by decide)) ?_
    refine .cons (t := .oneChunk 64 1048 [] [⟨1032,16⟩,⟨1016,16⟩,⟨1000,16⟩]) rfl (valid_of_place rfl (by decide)) ?_
    refine .cons (t := .oneChunk 64 1064 [] [⟨1048,16⟩,⟨1032,16⟩,⟨1016,16⟩,⟨1000,16⟩]) rfl (valid_of_place rfl (by decide)) ?_
    refine .cons (t := .oneChunk 64 1064 [] [⟨1048,16⟩,⟨1016,16⟩,⟨1000,16⟩]) rfl ⟨fun _ none => none.elim,trivial⟩ ?_
    refine .cons (t := .oneChunk 64 1064 [] [⟨1048,16⟩,⟨1016,16⟩]) rfl ⟨fun _ none => none.elim,trivial⟩ ?_
    refine .cons (t := .oneChunk 64 1064 [⟨1064,32⟩,⟨1032,32⟩] [⟨1048,16⟩,⟨1016,16⟩]) rfl ⟨?_,trivial⟩ ?_
    · rintro marks rfl
      exact marks_oneChunk (by decide)
    refine .cons (t := .oneChunk 64 1064 [⟨1032,32⟩] [⟨1064,32⟩,⟨1048,16⟩,⟨1016,16⟩]) rfl (valid_of_place rfl (by decide)) ?_
    exact .cons rfl (valid_of_place rfl (by decide)) trivial
  · intro run
    have run := run.tail (t := .oneChunk 64 1016 [] [⟨1000,16⟩]) rfl
    have run := run.tail (t := .oneChunk 64 1032 [] [⟨1016,16⟩,⟨1000,16⟩]) rfl
    have run := run.tail (t := .oneChunk 64 1048 [] [⟨1032,16⟩,⟨1016,16⟩,⟨1000,16⟩]) rfl
    have run := run.tail (t := .oneChunk 64 1064 [] [⟨1048,16⟩,⟨1032,16⟩,⟨1016,16⟩,⟨1000,16⟩]) rfl
    have run := run.tail (t := .oneChunk 64 1064 [] [⟨1048,16⟩,⟨1016,16⟩,⟨1000,16⟩]) rfl
    have run := run.tail (t := .oneChunk 64 1064 [] [⟨1048,16⟩,⟨1016,16⟩]) rfl
    have run := run.tail (t := .oneChunk 64 1064 [⟨1064,32⟩,⟨1032,32⟩] [⟨1048,16⟩,⟨1016,16⟩]) rfl
    have run := run.tail (t := .oneChunk 64 1064 [⟨1032,32⟩] [⟨1064,32⟩,⟨1048,16⟩,⟨1016,16⟩]) rfl
    obtain ⟨m,applied,⟨-,p,same,apart⟩,-⟩ := run
    have last := Option.some.inj applied
    subst last
    obtain rfl : p = 1032 := by cases same; rfl
    have overlap := apart ⟨1048,16⟩ (List.mem_cons_of_mem _ List.mem_cons_self) 1048
    exact overlap ⟨by decide,by decide⟩ ⟨by decide,by decide⟩

end Otawa.Collecting
