import Otawa.Blocks
import Otawa.LinkedList
import Otawa.Runs

/-!
The allocator of blocks of one size of `elm`, with its garbage collection: the chunks, the place
of the next block in the last one, and the list of the free blocks, which are linked in their
own memory. A collection numbers the blocks of the chunks, and frees those that are not marked.
-/
namespace Otawa.BlockGC
open Otawa.Blocks (Block Memory Bytes width)
open Otawa.Runs
open Otawa.LinkedList (Chain)

variable {M : Type}

/-- `AbstractBlockAllocatorWithGC`, with the memory of its blocks. -/
structure Allocator (M : Type) where
  chunks : List Nat
  top : Nat
  freeList : Nat
  freeCnt : Int
  bsize : Nat
  csize : Nat
  mem : M

/-- The numbers of the null bits, as `BitVector::ZeroIterator` gives them. -/
def zeros (bits : List Bool) : List Nat := (List.range bits.length).filter fun n => bits[n]? == some false

namespace Allocator

def create (bsize csize buffer : Nat) (mem : M) : Allocator M := ⟨[buffer],buffer,0,0,bsize,csize,mem⟩

variable (s : Allocator M)

/-- `chunks.top()`. -/
def last : Nat := s.chunks.getLastD 0

def totalCount : Nat := s.csize / s.bsize * (s.chunks.length - 1) + (s.top - s.last) / s.bsize

/-- `mark`, with its result: the block was not marked before. Its assertions are that the pointer is in a chunk,
    and that the bits have the number of the block. -/
def mark (bits : List Bool) (ptr : Nat) : Option (Bool × List Bool) := do
  let chunk ← s.chunks.findIdx? fun c => decide (c ≤ ptr ∧ ptr < c + s.csize)
  let c ← s.chunks[chunk]?
  let n := (ptr - c) / s.bsize + chunk * (s.csize / s.bsize)
  let bit ← bits[n]?
  if bit then some (false,bits) else some (true,bits.set n true)

/-- The block of a number, in the loop of `collectGarbage`. -/
def address (n : Nat) : Option Nat :=
  let chunk := n / (s.csize / s.bsize)
  s.chunks[chunk]?.map fun c => c + (n - chunk * (s.csize / s.bsize)) * s.bsize

variable [Memory M]

def pop : Nat × Allocator M :=
  (s.freeList,{ s with freeList := Memory.load s.mem s.freeList, freeCnt := s.freeCnt - 1 })

def link (block : Nat) : Allocator M :=
  { s with mem := Memory.store s.mem block s.freeList, freeList := block, freeCnt := s.freeCnt + 1 }

/-- The loop of `collectGarbage`. -/
def sweep (bits : List Bool) : Option (Allocator M) :=
  (zeros bits).foldlM (fun s n => (s.address n).map s.link) s

/-- `collectGarbage`, with the marks that `collect` adds; the size of the bit vector is an `int`. -/
def collectGarbage (collect : List Bool → Option (List Bool)) : Option (Allocator M) :=
  let size := s.chunks.length * s.csize / s.bsize
  if size < 2 ^ 31 then do
    let bits ← collect (List.replicate size false)
    sweep { s with freeCnt := 0 } bits
  else none

/-- The top moves over a block. -/
def advance : Allocator M := { s with top := s.top + s.bsize }

/-- A new chunk, whose first block is handed out. -/
def addChunk (buffer : Nat) : Allocator M := { s with chunks := s.chunks ++ [buffer], top := buffer + s.bsize }

/-- `allocate`, with the chunk that the system gives if there is need for one. -/
def allocate (collect : List Bool → Option (List Bool)) (buffer : Nat) : Option (Nat × Allocator M) :=
  if s.freeList ≠ 0 then some s.pop
  else if s.top + s.bsize ≤ s.last + s.csize then some (s.top,s.advance)
  else do
    let s ← s.collectGarbage collect
    if s.freeList ≠ 0 then some s.pop
    else some (buffer,s.addChunk buffer)

end Allocator

/-! ### The numbers of the blocks -/

structure Chunks (size : Nat) (chunks : List Nat) : Prop where
  bounds : ∀ c ∈ chunks, 0 < c ∧ c + size < 256 ^ width
  apart : chunks.Pairwise fun c d => c + size ≤ d ∨ d + size ≤ c

structure Shape (s : Allocator M) : Prop where
  positive : 0 < s.bsize
  fits : s.bsize ≤ s.csize
  chunks : Chunks s.csize s.chunks

section
variable {s : Allocator M} {n n' a a' : Nat}

theorem Shape.perChunk_pos (shape : Shape s) : 0 < s.csize / s.bsize := Nat.div_pos shape.fits shape.positive

theorem address_eq_some : s.address n = some a ↔
    ∃ c, s.chunks[n / (s.csize / s.bsize)]? = some c ∧ a = c + n % (s.csize / s.bsize) * s.bsize := by
  have rest : n - n / (s.csize / s.bsize) * (s.csize / s.bsize) = n % (s.csize / s.bsize) := by
    rw [Nat.mul_comm,← Nat.mod_eq_sub]
  simp only [Allocator.address,rest,Option.map_eq_some_iff,eq_comm (a := a)]

theorem address_some (shape : Shape s) (less : n < s.chunks.length * (s.csize / s.bsize)) : ∃ a, s.address n = some a := by
  have inside : n / (s.csize / s.bsize) < s.chunks.length := (Nat.div_lt_iff_lt_mul shape.perChunk_pos).mpr less
  exact ⟨_,address_eq_some.mpr ⟨_,List.getElem?_eq_getElem inside,rfl⟩⟩

theorem lt_of_address (shape : Shape s) (found : s.address n = some a) : n < s.chunks.length * (s.csize / s.bsize) := by
  obtain ⟨c,at_,-⟩ := address_eq_some.mp found
  obtain ⟨inside,-⟩ := List.getElem?_eq_some_iff.mp at_
  exact (Nat.div_lt_iff_lt_mul shape.perChunk_pos).mp inside

theorem offset_le (shape : Shape s) (n : Nat) :
    n % (s.csize / s.bsize) * s.bsize + s.bsize ≤ s.csize := by
  have less := Nat.mod_lt n shape.perChunk_pos
  have : (n % (s.csize / s.bsize) + 1) * s.bsize ≤ s.csize / s.bsize * s.bsize := Nat.mul_le_mul_right _ less
  have := Nat.div_mul_le_self s.csize s.bsize
  rw [Nat.succ_mul] at *
  omega

theorem address_within (shape : Shape s) (found : s.address n = some a) :
    ∃ c ∈ s.chunks, (Block.mk a s.bsize).Within ⟨c,s.csize⟩ := by
  obtain ⟨c,at_,rfl⟩ := address_eq_some.mp found
  refine ⟨c,List.mem_of_getElem? at_,Nat.le_add_right _ _,?_⟩
  have := offset_le shape n
  simp only
  omega

theorem address_bounds (shape : Shape s) (found : s.address n = some a) : 0 < a ∧ a < 256 ^ width := by
  obtain ⟨c,member,start,stop⟩ := address_within shape found
  have := shape.chunks.bounds c member
  have := shape.positive
  simp only at start stop
  omega

theorem Chunks.of_ne {size : Nat} {chunks : List Nat} (ok : Chunks size chunks) {i j c d : Nat} (first : chunks[i]? = some c)
    (second : chunks[j]? = some d) (ne : i ≠ j) : c + size ≤ d ∨ d + size ≤ c := by
  obtain ⟨insideI,rfl⟩ := List.getElem?_eq_some_iff.mp first
  obtain ⟨insideJ,rfl⟩ := List.getElem?_eq_some_iff.mp second
  rcases Nat.lt_or_gt_of_ne ne with before | after
  · exact List.pairwise_iff_getElem.mp ok.apart i j insideI insideJ before
  · exact (List.pairwise_iff_getElem.mp ok.apart j i insideJ insideI after).symm

theorem address_apart (shape : Shape s) (found : s.address n = some a) (found' : s.address n' = some a') (ne : n ≠ n') :
    (Block.mk a s.bsize).Apart ⟨a',s.bsize⟩ := by
  have positive := shape.positive
  obtain ⟨c,at_,rfl⟩ := address_eq_some.mp found
  obtain ⟨c',at',rfl⟩ := address_eq_some.mp found'
  have offset := offset_le shape n
  have offset' := offset_le shape n'
  refine (Block.apart_iff positive positive).mpr ?_
  simp only
  by_cases same : n / (s.csize / s.bsize) = n' / (s.csize / s.bsize)
  · obtain rfl : c = c' := by
      rw [same,at'] at at_
      exact (Option.some.inj at_).symm
    have other : n % (s.csize / s.bsize) ≠ n' % (s.csize / s.bsize) := by
      intro rest
      apply ne
      rw [← Nat.div_add_mod n (s.csize / s.bsize),← Nat.div_add_mod n' (s.csize / s.bsize),same,rest]
    rcases Nat.lt_or_gt_of_ne other with before | after
    · left
      have := Nat.mul_le_mul_right s.bsize before
      rw [Nat.succ_mul] at this
      omega
    · right
      have := Nat.mul_le_mul_right s.bsize after
      rw [Nat.succ_mul] at this
      omega
  · have apart := shape.chunks.of_ne at_ at' same
    omega

theorem address_inj (shape : Shape s) (found : s.address n = some a) (found' : s.address n' = some a) : n = n' := by
  by_contra ne
  have positive := shape.positive
  have here : (Block.mk a s.bsize).Has a := ⟨Nat.le_refl _,by simpa using positive⟩
  exact address_apart shape found found' ne a here here

theorem mark_address (shape : Shape s) (found : s.address n = some a) {bits : List Bool} {bit : Bool} (here : bits[n]? = some bit) :
    s.mark bits a = some (!bit,bits.set n true) := by
  obtain ⟨c,at_,same⟩ := address_eq_some.mp found
  have offset := offset_le shape n
  have positive := shape.positive
  obtain ⟨inside,value⟩ := List.getElem?_eq_some_iff.mp at_
  have chunk : s.chunks.findIdx? (fun c => decide (c ≤ a ∧ a < c + s.csize)) = some (n / (s.csize / s.bsize)) := by
    refine List.findIdx?_eq_some_iff_getElem.mpr ⟨inside,?_,?_⟩
    · rw [value,decide_eq_true_iff]
      omega
    · intro j before
      have inside' : j < s.chunks.length := before.trans inside
      have apart := shape.chunks.of_ne (List.getElem?_eq_getElem inside') at_ (Nat.ne_of_lt before)
      rw [decide_eq_true_iff]
      omega
  have number : (a - c) / s.bsize + n / (s.csize / s.bsize) * (s.csize / s.bsize) = n := by
    rw [same,Nat.add_sub_cancel_left,Nat.mul_div_cancel _ positive,Nat.mod_add_div']
  simp only [Allocator.mark,chunk,at_,number,here,Option.bind_eq_bind,Option.bind_some]
  cases bit with
  | false => rfl
  | true =>
    obtain ⟨inside,marked⟩ := List.getElem?_eq_some_iff.mp here
    have kept := List.set_getElem_self inside
    rw [marked] at kept
    rw [kept]
    rfl

end

variable [Memory M]

/-- A pointer to a free block, or the end of the list. -/
def pointer (v : Nat) : Option Nat := if v = 0 then none else some v

def next (m : M) (block : Nat) : Option Nat := pointer (Memory.load m block)

def Used (s : Allocator M) (a : Nat) : Prop := ∃ n < s.totalCount, s.address n = some a

/-- The blocks in use and the free ones were handed out, no block is both, and the free ones are the free list. -/
structure Inv (s : Allocator M) (live : Nat → Prop) (free : List Nat) : Prop where
  shape : Shape s
  place : ∃ before c j, s.chunks = before ++ [c] ∧ s.top = c + j * s.bsize ∧ j ≤ s.csize / s.bsize
  inUse : ∀ a, live a → Used s a
  dead : ∀ a ∈ free, Used s a ∧ ¬live a
  nodup : free.Nodup
  large : free = [] ∨ width ≤ s.bsize
  chain : Chain (next s.mem) (pointer s.freeList) free

section
variable {s s' : Allocator M} {live live' : Nat → Prop} {free : List Nat} {n a b c j : Nat}

omit [Memory M] in
theorem Used.apart (shape : Shape s) (used : Used s a) (used' : Used s b) (ne : a ≠ b) :
    (Block.mk a s.bsize).Apart ⟨b,s.bsize⟩ := by
  obtain ⟨n,-,found⟩ := used
  obtain ⟨n',-,found'⟩ := used'
  refine address_apart shape found found' ?_
  rintro rfl
  exact ne (Option.some.inj (found.symm.trans found'))

/-- A word of a block that was handed out is not changed by a word of another one. -/
theorem load_store_of_ne (shape : Shape s) (large : width ≤ s.bsize) (used : Used s a) (used' : Used s b) (ne : a ≠ b) (m : M) (v : Nat) :
    Memory.load (Memory.store m a v) b = Memory.load m b := by
  apply Memory.load_store_of_apart
  have within : ∀ x, (Block.mk x width).Within ⟨x,s.bsize⟩ :=
    fun x => ⟨Nat.le_refl _,Nat.add_le_add_left large x⟩
  exact (((used.apart shape used' ne).within (within a)).symm.within (within b)).symm

omit [Memory M] in
theorem Used.bounds (shape : Shape s) (used : Used s a) : 0 < a ∧ a < 256 ^ width := by
  obtain ⟨n,-,found⟩ := used
  exact address_bounds shape found

theorem pointer_eq_some (positive : 0 < a) : pointer a = some a := if_neg (Nat.ne_of_gt positive)

theorem Inv.congr (inv : Inv s live free) (sub : ∀ a, live' a → live a) : Inv s live' free :=
  ⟨inv.shape,inv.place,fun a isLive => inv.inUse a (sub a isLive),
    fun a member => ⟨(inv.dead a member).1,fun isLive => (inv.dead a member).2 (sub a isLive)⟩,inv.nodup,inv.large,inv.chain⟩

theorem Inv.freeList_lt (inv : Inv s live free) : s.freeList < 256 ^ width := by
  by_cases null : s.freeList = 0
  · rw [null]
    decide
  · have chain := inv.chain
    rw [pointer,if_neg null] at chain
    cases free with
    | nil => cases chain
    | cons a rest =>
      obtain ⟨same,-⟩ := chain
      obtain rfl := Option.some.inj same
      exact ((inv.dead _ List.mem_cons_self).1.bounds inv.shape).2

theorem Inv.link (inv : Inv s live free) (large : width ≤ s.bsize) (used : Used s a) (dead : ¬live a) (absent : a ∉ free) :
    Inv (s.link a) live (a :: free) := by
  refine ⟨⟨inv.shape.positive,inv.shape.fits,inv.shape.chunks⟩,inv.place,inv.inUse,?_,
    List.nodup_cons.mpr ⟨absent,inv.nodup⟩,.inr large,?_⟩
  · intro b member
    rcases List.mem_cons.mp member with rfl | member
    · exact ⟨used,dead⟩
    · exact inv.dead b member
  · refine ⟨pointer_eq_some (used.bounds inv.shape).1,?_⟩
    have back : next (s.link a).mem a = pointer s.freeList :=
      congrArg pointer (Memory.load_store s.mem a s.freeList inv.freeList_lt)
    rw [back]
    refine inv.chain.congr ?_
    intro b member
    exact congrArg pointer (load_store_of_ne inv.shape large used (inv.dead b member).1 (ne_of_mem_of_not_mem member absent).symm ..)

theorem Inv.pop (inv : Inv s live free) (listed : s.freeList ≠ 0) :
    ∃ rest, free = s.freeList :: rest ∧ Used s s.freeList ∧ ¬live s.freeList ∧
      Inv s.pop.2 (fun b => live b ∨ b = s.freeList) rest := by
  have chain := inv.chain
  rw [pointer,if_neg listed] at chain
  cases free with
  | nil => cases chain
  | cons a rest =>
    obtain ⟨same,chain⟩ := chain
    obtain rfl := Option.some.inj same
    obtain ⟨used,dead⟩ := inv.dead _ List.mem_cons_self
    obtain ⟨absent,nodup⟩ := List.nodup_cons.mp inv.nodup
    refine ⟨rest,rfl,used,dead,⟨inv.shape.positive,inv.shape.fits,inv.shape.chunks⟩,inv.place,?_,?_,nodup,?_,chain⟩
    · rintro b (isLive | rfl)
      · exact inv.inUse b isLive
      · exact used
    · intro b member
      obtain ⟨usedB,deadB⟩ := inv.dead b (List.mem_cons_of_mem _ member)
      refine ⟨usedB,?_⟩
      rintro (isLive | rfl)
      · exact deadB isLive
      · exact absent member
    · exact .inr (inv.large.resolve_left (by simp))

/-- A chunk that the system can give. -/
structure Fresh (s : Allocator M) (buffer : Nat) : Prop where
  start : 0 < buffer
  stop : buffer + s.csize < 256 ^ width
  apart : ∀ c ∈ s.chunks, c + s.csize ≤ buffer ∨ buffer + s.csize ≤ c

section
omit [Memory M]
variable {before : List Nat} {buffer : Nat}

theorem last_eq (split : s.chunks = before ++ [c]) : s.last = c := by
  rw [Allocator.last,split]
  simp

theorem totalCount_eq (positive : 0 < s.bsize) (split : s.chunks = before ++ [c]) (top : s.top = c + j * s.bsize) :
    s.totalCount = s.csize / s.bsize * before.length + j := by
  rw [Allocator.totalCount,last_eq split,split,top,Nat.add_sub_cancel_left,Nat.mul_div_cancel _ positive]
  simp

theorem address_last (before : List Nat) (split : s.chunks = before ++ [c]) (less : j < s.csize / s.bsize) :
    s.address (s.csize / s.bsize * before.length + j) = some (c + j * s.bsize) := by
  have positive : 0 < s.csize / s.bsize := Nat.zero_lt_of_lt less
  refine address_eq_some.mpr ⟨c,?_,?_⟩
  · rw [Nat.mul_add_div positive,Nat.div_eq_of_lt less,split]
    simp
  · rw [Nat.mul_add_mod,Nat.mod_eq_of_lt less]

end

theorem Inv.hand (inv : Inv s live free) (shape : Shape s')
    (place : ∃ before c j, s'.chunks = before ++ [c] ∧ s'.top = c + j * s'.bsize ∧ j ≤ s'.csize / s'.bsize)
    (list : s'.freeList = s.freeList ∧ s'.mem = s.mem) (sizes : s'.bsize = s.bsize)
    (addresses : ∀ n a, s.address n = some a → s'.address n = some a)
    (total : s'.totalCount = s.totalCount + 1) (found : s'.address s.totalCount = some a) :
    ¬Used s a ∧ Inv s' (fun b => live b ∨ b = a) free := by
  have fresh : ¬Used s a := by
    rintro ⟨n,less,found'⟩
    exact absurd (address_inj shape (addresses n a found') found) (Nat.ne_of_lt less)
  have keeps : ∀ b, Used s b → Used s' b := by
    rintro b ⟨n,less,found'⟩
    exact ⟨n,by omega,addresses n b found'⟩
  refine ⟨fresh,shape,place,?_,?_,inv.nodup,?_,?_⟩
  · rintro b (isLive | rfl)
    · exact keeps b (inv.inUse b isLive)
    · exact ⟨s.totalCount,by omega,found⟩
  · intro b member
    obtain ⟨used,dead⟩ := inv.dead b member
    refine ⟨keeps b used,?_⟩
    rintro (isLive | rfl)
    · exact dead isLive
    · exact fresh used
  · rw [sizes]
    exact inv.large
  · rw [list.1,list.2]
    exact inv.chain

theorem Inv.takeTop (inv : Inv s live free) (room : s.top + s.bsize ≤ s.last + s.csize) :
    ¬Used s s.top ∧ Inv s.advance (fun b => live b ∨ b = s.top) free := by
  obtain ⟨before,c,j,split,top,inside⟩ := inv.place
  have positive := inv.shape.positive
  have less : j + 1 ≤ s.csize / s.bsize := by
    rw [last_eq split,top] at room
    refine (Nat.le_div_iff_mul_le positive).mpr ?_
    rw [Nat.succ_mul]
    omega
  have top' : s.top + s.bsize = c + (j + 1) * s.bsize := by
    rw [top,Nat.succ_mul,Nat.add_assoc]
  refine inv.hand ⟨inv.shape.positive,inv.shape.fits,inv.shape.chunks⟩ ⟨before,c,j + 1,split,top',less⟩ ⟨rfl,rfl⟩ rfl
    (fun _ _ found => found) ?_ ?_
  · rw [totalCount_eq positive split top,totalCount_eq (s := s.advance) positive split top']
    rfl
  · rw [totalCount_eq positive split top,top]
    exact address_last (s := s.advance) before split less

omit [Memory M] in
theorem totalCount_of_full (shape : Shape s)
    (place : ∃ before c j, s.chunks = before ++ [c] ∧ s.top = c + j * s.bsize ∧ j ≤ s.csize / s.bsize)
    (full : ¬s.top + s.bsize ≤ s.last + s.csize) : s.totalCount = s.csize / s.bsize * s.chunks.length := by
  obtain ⟨before,c,j,split,top,inside⟩ := place
  have positive := shape.positive
  have all : j = s.csize / s.bsize := by
    refine Nat.le_antisymm inside (Nat.not_lt.mp fun less => full ?_)
    have := (Nat.le_div_iff_mul_le positive).mp (Nat.succ_le_of_lt less)
    rw [last_eq split,top]
    rw [Nat.succ_mul] at this
    omega
  rw [totalCount_eq positive split top,split,all]
  simp [Nat.mul_succ]

theorem Inv.newChunk (inv : Inv s live free) (full : ¬s.top + s.bsize ≤ s.last + s.csize) {buffer : Nat} (fresh : Fresh s buffer) :
    ¬Used s buffer ∧
      Inv (s.addChunk buffer) (fun b => live b ∨ b = buffer) free := by
  have positive := inv.shape.positive
  have enough := inv.shape.perChunk_pos
  have total := totalCount_of_full inv.shape inv.place full
  have chunks : Chunks s.csize (s.chunks ++ [buffer]) := by
    constructor
    · intro d member
      rcases List.mem_append.mp member with old | new
      · exact inv.shape.chunks.bounds d old
      · obtain rfl := List.mem_singleton.mp new
        exact ⟨fresh.start,fresh.stop⟩
    · refine List.pairwise_append.mpr ⟨inv.shape.chunks.apart,List.pairwise_singleton _ _,?_⟩
      intro d old e new
      obtain rfl := List.mem_singleton.mp new
      exact fresh.apart d old
  have top' : buffer + s.bsize = buffer + 1 * s.bsize := by rw [Nat.one_mul]
  refine inv.hand ⟨inv.shape.positive,inv.shape.fits,chunks⟩ ⟨s.chunks,buffer,1,rfl,top',enough⟩ ⟨rfl,rfl⟩ rfl ?_ ?_ ?_
  · intro n a found
    obtain ⟨d,at_,same⟩ := address_eq_some.mp found
    obtain ⟨inside,-⟩ := List.getElem?_eq_some_iff.mp at_
    exact address_eq_some.mpr ⟨d,(List.getElem?_append_left inside).trans at_,same⟩
  · rw [total,totalCount_eq (s := s.addChunk buffer) positive rfl top']
    rfl
  · rw [total]
    have found : (s.addChunk buffer).address (s.csize / s.bsize * s.chunks.length + 0) = some (buffer + 0 * s.bsize) :=
      address_last s.chunks rfl enough
    simpa using found

/-! ### A collection -/

/-- Only words of blocks that are not in use were written. -/
inductive Stored (dead : Nat → Prop) (m : M) : M → Prop where
  | refl : Stored dead m m
  | store {m' : M} {a : Nat} (before : Stored dead m m') (isDead : dead a) (v : Nat) : Stored dead m (Memory.store m' a v)

/-- The bits after the marks of a collection: the blocks in use are marked, and those that are not marked were
    handed out and are not in the free list. -/
structure Marked (s : Allocator M) (live : Nat → Prop) (free : List Nat) (bits : List Bool) : Prop where
  length : bits.length = s.chunks.length * (s.csize / s.bsize)
  inUse : ∀ n a, s.address n = some a → live a → bits[n]? = some true
  handed : ∀ n a, s.address n = some a → bits[n]? = some false → Used s a ∧ a ∉ free

/-- The size of the bit vector is the number of the blocks of the chunks, and is an `int`. -/
def Sized (s : Allocator M) : Prop :=
  s.chunks.length * (s.csize % s.bsize) < s.bsize ∧ s.chunks.length * (s.csize / s.bsize) < 2 ^ 31

omit [Memory M] in
theorem Sized.size_eq (sized : Sized s) : s.chunks.length * s.csize / s.bsize = s.chunks.length * (s.csize / s.bsize) := by
  have positive : 0 < s.bsize := Nat.zero_lt_of_lt sized.1
  have split : s.chunks.length * s.csize = s.bsize * (s.chunks.length * (s.csize / s.bsize)) + s.chunks.length * (s.csize % s.bsize) := by
    conv_lhs => rw [← Nat.div_add_mod s.csize s.bsize]
    rw [Nat.mul_add,Nat.mul_left_comm]
  rw [split,Nat.mul_add_div positive,Nat.div_eq_of_lt sized.1,Nat.add_zero]

structure SamePlaces (s s' : Allocator M) : Prop where
  chunks : s'.chunks = s.chunks
  top : s'.top = s.top
  bsize : s'.bsize = s.bsize
  csize : s'.csize = s.csize

omit [Memory M] in
theorem SamePlaces.address (same : SamePlaces s s') (n : Nat) : s'.address n = s.address n := by
  simp [Allocator.address,same.chunks,same.bsize,same.csize]

omit [Memory M] in
theorem SamePlaces.used (same : SamePlaces s s') : Used s' a ↔ Used s a := by
  have total : s'.totalCount = s.totalCount := by
    simp [Allocator.totalCount,Allocator.last,same.chunks,same.top,same.bsize,same.csize]
  simp [Used,total,same.address]

theorem Inv.sweepList {numbers : List Nat} (inv : Inv s live free) (large : width ≤ s.bsize) (nodup : numbers.Nodup)
    (dead : ∀ n ∈ numbers, ∃ a, s.address n = some a ∧ Used s a ∧ ¬live a ∧ a ∉ free) :
    ∃ s' free', numbers.foldlM (fun s n => (s.address n).map s.link) s = some s' ∧ Inv s' live free' ∧ SamePlaces s s' ∧
      Stored (fun a => Used s a ∧ ¬live a) s.mem s'.mem := by
  induction numbers generalizing s free with
  | nil => exact ⟨s,free,rfl,inv,⟨rfl,rfl,rfl,rfl⟩,.refl⟩
  | cons n rest ih =>
    obtain ⟨absent,nodup⟩ := List.nodup_cons.mp nodup
    obtain ⟨a,found,used,isDead,notFree⟩ := dead n List.mem_cons_self
    have places : SamePlaces s (s.link a) := ⟨rfl,rfl,rfl,rfl⟩
    obtain ⟨s',free',swept,inv',same,stored⟩ := ih (inv.link large used isDead notFree) large nodup (by
      intro n' member
      obtain ⟨a',found',used',isDead',notFree'⟩ := dead n' (List.mem_cons_of_mem _ member)
      refine ⟨a',found',places.used.mpr used',isDead',?_⟩
      intro inFree
      rcases List.mem_cons.mp inFree with rfl | inFree
      · exact absent (address_inj inv.shape found found' ▸ member)
      · exact notFree' inFree)
    refine ⟨s',free',?_,inv',⟨same.chunks,same.top,same.bsize,same.csize⟩,?_⟩
    · rw [List.foldlM_cons,found]
      exact swept
    · clear swept inv' same ih
      generalize s'.mem = m at stored
      induction stored with
      | refl => exact .store .refl ⟨used,isDead⟩ s.freeList
      | store before isDead v ih => exact .store ih isDead v

theorem mem_zeros {bits : List Bool} {n : Nat} : n ∈ zeros bits ↔ bits[n]? = some false := by
  rw [zeros,List.mem_filter,List.mem_range,beq_iff_eq]
  constructor
  · exact fun both => both.2
  · exact fun null => ⟨(List.getElem?_eq_some_iff.mp null).1,null⟩

/-- A collection frees the blocks that are not marked, and nothing else changes. -/
theorem Inv.collectGarbage (inv : Inv s live free) (large : width ≤ s.bsize) (sized : Sized s) {collect : List Bool → Option (List Bool)} {bits : List Bool}
    (collected : collect (List.replicate (s.chunks.length * (s.csize / s.bsize)) false) = some bits)
    (marked : Marked s live free bits) :
    ∃ s' free', s.collectGarbage collect = some s' ∧ Inv s' live free' ∧ SamePlaces s s' ∧
      Stored (fun a => Used s a ∧ ¬live a) s.mem s'.mem := by
  have start : Inv { s with freeCnt := 0 } live free :=
    ⟨⟨inv.shape.positive,inv.shape.fits,inv.shape.chunks⟩,inv.place,inv.inUse,inv.dead,inv.nodup,inv.large,inv.chain⟩
  have dead : ∀ n ∈ zeros bits, ∃ a, s.address n = some a ∧ Used s a ∧ ¬live a ∧ a ∉ free := by
    intro n member
    have null := mem_zeros.mp member
    have inside := (List.getElem?_eq_some_iff.mp null).1
    rw [marked.length] at inside
    obtain ⟨a,found⟩ := address_some inv.shape inside
    obtain ⟨used,notFree⟩ := marked.handed n a found null
    refine ⟨a,found,used,?_,notFree⟩
    intro isLive
    have set := marked.inUse n a found isLive
    rw [null] at set
    cases set
  obtain ⟨s',free',swept,inv',same,stored⟩ := start.sweepList large (List.nodup_range.filter _) dead
  refine ⟨s',free',?_,inv',⟨same.chunks,same.top,same.bsize,same.csize⟩,stored⟩
  simp only [Allocator.collectGarbage,sized.size_eq,if_pos sized.2,collected]
  exact swept

structure Handed (s : Allocator M) (live : Nat → Prop) (a : Nat) (s' : Allocator M) (free' : List Nat) : Prop where
  fresh : ¬live a
  used : Used s' a
  inv : Inv s' (fun b => live b ∨ b = a) free'
  sizes : s'.bsize = s.bsize ∧ s'.csize = s.csize
  stored : Stored (fun a => Used s a ∧ ¬live a) s.mem s'.mem

theorem Inv.popHanded (inv : Inv s live free) (listed : s.freeList ≠ 0) : ∃ free', Handed s live s.freeList s.pop.2 free' := by
  obtain ⟨rest,-,used,dead,inv'⟩ := inv.pop listed
  exact ⟨rest,dead,used,inv',⟨rfl,rfl⟩,.refl⟩

theorem Inv.freeList_nil (inv : Inv s live free) (null : s.freeList = 0) : free = [] := by
  have chain := inv.chain
  rw [null] at chain
  cases free with
  | nil => rfl
  | cons a rest => cases chain.1

theorem Inv.allocate (inv : Inv s live free) {collect : List Bool → Option (List Bool)} {buffer : Nat}
    (ready : s.freeList = 0 → ¬s.top + s.bsize ≤ s.last + s.csize →
      width ≤ s.bsize ∧ Sized s ∧ Fresh s buffer ∧ ∃ bits,
      collect (List.replicate (s.chunks.length * (s.csize / s.bsize)) false) = some bits ∧ Marked s live [] bits) :
    ∃ a s' free', s.allocate collect buffer = some (a,s') ∧ Handed s live a s' free' := by
  unfold Allocator.allocate
  by_cases listed : s.freeList ≠ 0
  · rw [if_pos listed]
    obtain ⟨free',handed⟩ := inv.popHanded listed
    exact ⟨_,_,free',rfl,handed⟩
  · rw [if_neg listed]
    by_cases room : s.top + s.bsize ≤ s.last + s.csize
    · rw [if_pos room]
      obtain ⟨fresh,inv'⟩ := inv.takeTop room
      exact ⟨_,_,free,rfl,fun isLive => fresh (inv.inUse _ isLive),inv'.inUse s.top (.inr rfl),inv',⟨rfl,rfl⟩,.refl⟩
    · rw [if_neg room]
      obtain rfl := inv.freeList_nil (not_not.mp listed)
      obtain ⟨large,sized,fresh,bits,collected,marked⟩ := ready (not_not.mp listed) room
      obtain ⟨s₁,free₁,collected₁,inv₁,same,stored⟩ := inv.collectGarbage large sized collected marked
      rw [collected₁,Option.bind_eq_bind,Option.bind_some]
      by_cases listed₁ : s₁.freeList ≠ 0
      · rw [if_pos listed₁]
        obtain ⟨free',handed⟩ := inv₁.popHanded listed₁
        exact ⟨_,_,free',rfl,handed.fresh,handed.used,handed.inv,⟨same.bsize,same.csize⟩,stored⟩
      · rw [if_neg listed₁]
        have full : ¬s₁.top + s₁.bsize ≤ s₁.last + s₁.csize := by
          rwa [same.top,same.bsize,same.csize,Allocator.last,same.chunks]
        have fresh₁ : Fresh s₁ buffer := by
          refine ⟨fresh.start,?_,?_⟩
          · rw [same.csize]
            exact fresh.stop
          · rw [same.chunks,same.csize]
            exact fresh.apart
        obtain ⟨new,inv'⟩ := inv₁.newChunk full fresh₁
        exact ⟨_,_,free₁,rfl,fun isLive => new (inv₁.inUse _ isLive),inv'.inUse buffer (.inr rfl),inv',
          ⟨same.bsize,same.csize⟩,stored⟩

end

/-- The allocator with the blocks that are in use, the last one first. -/
structure Machine where
  alloc : Allocator Bytes
  live : List Nat

/-- An operation; `marks` are the blocks that `collect` marks if there is a collection, and `buffer` is where the
    system puts a new chunk. The user forgets a block by its index, and writes in the blocks in use. -/
inductive Op where
  | allocate (marks : List Nat) (buffer : Nat)
  | forget (i : Nat)
  | write (mem : Bytes)
  | collectGarbage (marks : List Nat)

/-- `collect`, which calls `mark` on the given blocks. -/
def Allocator.collect (s : Allocator M) (marks : List Nat) (bits : List Bool) : Option (List Bool) :=
  marks.foldlM (fun bits ptr => (s.mark bits ptr).map Prod.snd) bits

def Machine.create (bsize csize buffer : Nat) (mem : Bytes) : Machine := ⟨.create bsize csize buffer mem,[]⟩

def Op.apply (m : Machine) : Op → Option Machine
  | allocate marks buffer => (m.alloc.allocate (m.alloc.collect marks) buffer).map fun (p,alloc) => ⟨alloc,p :: m.live⟩
  | forget i => some ⟨m.alloc,m.live.eraseIdx i⟩
  | write mem => some ⟨{ m.alloc with mem },m.live⟩
  | collectGarbage marks => (m.alloc.collectGarbage (m.alloc.collect marks)).map fun alloc => ⟨alloc,m.live⟩

/-- The operation makes a collection with these marks. -/
def Op.Collects (m : Machine) (op : Op) (marks : List Nat) : Prop :=
  match op with
  | allocate marks' _ => marks' = marks ∧ m.alloc.freeList = 0 ∧ ¬m.alloc.top + m.alloc.bsize ≤ m.alloc.last + m.alloc.csize
  | forget _ | write _ => False
  | collectGarbage marks' => marks' = marks

def Op.Valid (m : Machine) (op : Op) : Prop :=
  (∀ marks, op.Collects m marks → (∀ a ∈ m.live, a ∈ marks) ∧ ∀ a ∈ marks, ∃ n, m.alloc.address n = some a) ∧
    match op with
    | allocate marks buffer => (allocate marks buffer).Collects m marks → Fresh m.alloc buffer
    | write mem => ∀ x, (∀ a ∈ m.live, ¬(Block.mk a m.alloc.bsize).Has x) → mem x = m.alloc.mem x
    | forget _ | collectGarbage _ => True

def Listed (s : Allocator Bytes) (a : Nat) : Prop := ∃ free, Chain (next s.mem) (pointer s.freeList) free ∧ a ∈ free

def FreeInside (s : Allocator Bytes) : Prop :=
  ∃ free, Chain (next s.mem) (pointer s.freeList) free ∧ ∀ a ∈ free, ∃ c ∈ s.chunks, (Block.mk a s.bsize).Within ⟨c,s.csize⟩

/-- An allocated block overlaps no block in use, and the free blocks lie in the chunks. -/
def Op.Safe (m : Machine) (op : Op) (m' : Machine) : Prop :=
  FreeInside m'.alloc ∧
    match op with
    | allocate _ _ => ∃ p, m'.live = p :: m.live ∧ ∀ a ∈ m.live, (Block.mk p m.alloc.bsize).Apart ⟨a,m.alloc.bsize⟩
    | forget _ | write _ | collectGarbage _ => True

/-- The blocks are as large as a pointer, the two numbers of blocks of a collection are the same one and an `int`,
    and each block that the collection does not mark was handed out and is not in the free list. -/
def Op.Exact (m : Machine) (op : Op) : Prop :=
  ∀ marks, op.Collects m marks → width ≤ m.alloc.bsize ∧ Sized m.alloc ∧
    ∀ n a, m.alloc.address n = some a → a ∉ marks → Used m.alloc a ∧ ¬Listed m.alloc a

/-! ### What the operations keep -/

section
variable {s : Allocator M} {m : Machine} {marks : List Nat} {bits : List Bool}

omit [Memory M] in
theorem collect_spec (shape : Shape s) (blocks : ∀ a ∈ marks, ∃ n, s.address n = some a)
    (length : bits.length = s.chunks.length * (s.csize / s.bsize)) :
    ∃ bits', s.collect marks bits = some bits' ∧ bits'.length = bits.length ∧
      ∀ n, bits'[n]? = some true ↔ bits[n]? = some true ∨ ∃ a ∈ marks, s.address n = some a := by
  induction marks generalizing bits with
  | nil => exact ⟨bits,rfl,rfl,fun n => by simp⟩
  | cons a marks ih =>
    obtain ⟨n,found⟩ := blocks a List.mem_cons_self
    have inside : n < bits.length := length ▸ lt_of_address shape found
    have marked := mark_address shape found (List.getElem?_eq_getElem inside)
    obtain ⟨bits',rest,length',exact⟩ := @ih (bits.set n true) (fun b member => blocks b (List.mem_cons_of_mem _ member))
      (by rw [List.length_set,length])
    refine ⟨bits',?_,?_,?_⟩
    · rw [Allocator.collect,List.foldlM_cons,marked]
      exact rest
    · rw [length',List.length_set]
    · intro i
      rw [exact,List.getElem?_set]
      by_cases same : n = i
      · subst same
        simp [inside,found]
      · have other : s.address i ≠ some a := fun found' => same (address_inj shape found found')
        simp [same,other]

/-- The blocks in use and the free ones of a machine. -/
def Good (m : Machine) : Prop := ∃ free, Inv m.alloc (· ∈ m.live) free

theorem inv_create {live : Nat → Prop} (none : ∀ a, ¬live a) {bsize csize buffer : Nat} (mem : M) (positive : 0 < bsize)
    (fits : bsize < csize) (start : 0 < buffer) (stop : buffer + csize < 256 ^ width) :
    Inv (.create bsize csize buffer mem) live [] := by
  have chunks : Chunks csize [buffer] := by
    refine ⟨?_,List.pairwise_singleton _ _⟩
    intro c member
    obtain rfl := List.mem_singleton.mp member
    exact ⟨start,stop⟩
  refine ⟨⟨positive,fits.le,chunks⟩,⟨[],buffer,0,rfl,by simp [Allocator.create],Nat.zero_le _⟩,?_,?_,.nil,.inl rfl,rfl⟩
  · intro a isLive
    exact absurd isLive (none a)
  · intro a member
    cases member

theorem Inv.freeInside {s : Allocator Bytes} {live : Nat → Prop} {free : List Nat} (inv : Inv s live free) : FreeInside s := by
  refine ⟨free,inv.chain,?_⟩
  intro a member
  obtain ⟨n,-,found⟩ := (inv.dead a member).1
  exact address_within inv.shape found

theorem marked_of_exact {free : List Nat} (inv : Inv m.alloc (· ∈ m.live) free) {op : Op} (valid : op.Valid m) (exact : op.Exact m)
    (collects : op.Collects m marks) : ∃ bits,
      m.alloc.collect marks (List.replicate (m.alloc.chunks.length * (m.alloc.csize / m.alloc.bsize)) false) = some bits ∧
      Marked m.alloc (· ∈ m.live) free bits := by
  obtain ⟨all,blocks⟩ := valid.1 marks collects
  obtain ⟨-,-,handed⟩ := exact marks collects
  obtain ⟨bits,collected,length,set⟩ := collect_spec inv.shape blocks (List.length_replicate ..)
  refine ⟨bits,collected,⟨length.trans (List.length_replicate ..),?_,?_⟩⟩
  · intro n a found isLive
    exact (set n).mpr (.inr ⟨a,all a isLive,found⟩)
  · intro n a found null
    have notMarked : a ∉ marks := by
      intro member
      have one := (set n).mpr (.inr ⟨a,member,found⟩)
      rw [null] at one
      cases one
    obtain ⟨used,notListed⟩ := handed n a found notMarked
    exact ⟨used,fun member => notListed ⟨free,inv.chain,member⟩⟩

theorem Op.holds {op : Op} (good : Good m) (valid : op.Valid m) (exact : op.Exact m) :
    ∃ m', op.apply m = some m' ∧ op.Safe m m' ∧ Good m' := by
  obtain ⟨free,inv⟩ := good
  cases op with
  | allocate marks buffer =>
    obtain ⟨p,alloc,free',allocated,handed⟩ := @Inv.allocate _ _ _ _ _ inv (m.alloc.collect marks) buffer (by
      intro null full
      have collects : (Op.allocate marks buffer).Collects m marks := ⟨rfl,null,full⟩
      obtain rfl := inv.freeList_nil null
      obtain ⟨large,sized,-⟩ := exact marks collects
      exact ⟨large,sized,valid.2 collects,marked_of_exact inv valid exact collects⟩)
    refine ⟨⟨alloc,p :: m.live⟩,?_,⟨handed.inv.freeInside,p,rfl,?_⟩,free',handed.inv.congr ?_⟩
    · rw [Op.apply,allocated]
      rfl
    · intro a member
      have ne : p ≠ a := fun same => handed.fresh (same ▸ member)
      have apart := handed.used.apart handed.inv.shape (handed.inv.inUse a (.inl member)) ne
      rwa [handed.sizes.1] at apart
    · intro a member
      exact (List.mem_cons.mp member).symm
  | forget i =>
    exact ⟨_,rfl,⟨inv.freeInside,trivial⟩,free,inv.congr fun a member => List.mem_of_mem_eraseIdx member⟩
  | write mem =>
    have chain : Chain (next mem) (pointer m.alloc.freeList) free := by
      refine inv.chain.congr ?_
      intro a member
      obtain ⟨used,dead⟩ := inv.dead a member
      have large : width ≤ m.alloc.bsize := inv.large.resolve_left (List.ne_nil_of_mem member)
      refine congrArg pointer (Blocks.Bytes.load_congr ?_)
      intro x inWord
      apply valid.2
      intro b isLive inLive
      have ne : a ≠ b := fun same => dead (same ▸ isLive)
      have within : (Block.mk a width).Within ⟨a,m.alloc.bsize⟩ := ⟨Nat.le_refl _,Nat.add_le_add_left large a⟩
      exact used.apart inv.shape (inv.inUse b isLive) ne x (within.has inWord) inLive
    have inv' : Inv { m.alloc with mem } (· ∈ m.live) free :=
      ⟨⟨inv.shape.positive,inv.shape.fits,inv.shape.chunks⟩,inv.place,inv.inUse,inv.dead,inv.nodup,inv.large,chain⟩
    exact ⟨_,rfl,⟨inv'.freeInside,trivial⟩,free,inv'⟩
  | collectGarbage marks =>
    obtain ⟨bits,collected,marked⟩ := marked_of_exact inv valid exact rfl
    obtain ⟨large,sized,-⟩ := exact marks rfl
    obtain ⟨alloc,free',swept,inv',-⟩ := inv.collectGarbage large sized collected marked
    refine ⟨⟨alloc,m.live⟩,?_,⟨inv'.freeInside,trivial⟩,free',inv'⟩
    rw [Op.apply,swept]
    rfl

/-- The collection of an allocation finds all blocks handed out and none free, so that only the sizes matter. -/
theorem exact_allocate {buffer : Nat} (shape : Shape m.alloc)
    (place : ∃ before c j, m.alloc.chunks = before ++ [c] ∧ m.alloc.top = c + j * m.alloc.bsize ∧ j ≤ m.alloc.csize / m.alloc.bsize)
    (large : width ≤ m.alloc.bsize) (sized : Sized m.alloc) : (Op.allocate marks buffer).Exact m := by
  rintro _ ⟨rfl,null,full⟩
  refine ⟨large,sized,?_⟩
  intro n a found _
  constructor
  · refine ⟨n,?_,found⟩
    rw [totalCount_of_full shape place full,Nat.mul_comm]
    exact lt_of_address shape found
  · rintro ⟨free,chain,member⟩
    rw [null] at chain
    cases free with
    | nil => cases member
    | cons b rest => cases chain.1

theorem valid_of_place {buffer : Nat} (place : m.alloc.freeList ≠ 0 ∨ m.alloc.top + m.alloc.bsize ≤ m.alloc.last + m.alloc.csize) :
    (Op.allocate marks buffer).Valid m := by
  have not : ∀ marks', ¬(Op.allocate marks buffer).Collects m marks' := by
    rintro marks' ⟨-,null,full⟩
    rcases place with listed | room
    · exact listed null
    · exact full room
  exact ⟨fun marks' collects => absurd collects (not marks'),fun collects => absurd collects (not marks)⟩

end

/-- In a run whose collections meet their condition, an allocated block overlaps no block in use and the blocks of
    the free list lie in the chunks. -/
theorem safeAlong_of_exact (bsize csize buffer : Nat) (mem : Bytes) (ops : List Op) (positive : 0 < bsize) (fits : bsize < csize)
    (start : 0 < buffer) (stop : buffer + csize < 256 ^ width) (valid : Along Op.apply Op.Valid (.create bsize csize buffer mem) ops)
    (exact : Along Op.apply Op.Exact (.create bsize csize buffer mem) ops) :
    SafeAlong Op.apply Op.Safe (.create bsize csize buffer mem) ops :=
  safeAlong_of_along (fun _ _ good valid exact => Op.holds good valid exact)
    ⟨[],inv_create (fun _ => List.not_mem_nil) mem positive fits start stop⟩ valid exact

/-- An allocator with one chunk, at 1024, of so many blocks of 16 bytes. -/
def Machine.oneChunk (count top freeList : Nat) (freeCnt : Int) (mem : Bytes) (live : List Nat) : Machine :=
  ⟨⟨[1024],top,freeList,freeCnt,16,16 * count,mem⟩,live⟩

/-- The block that is no longer in use is found by a collection and allocated again. -/
theorem safeAlong_again :
    SafeAlong Op.apply Op.Safe (.create 16 32 1024 fun _ => 0) [.allocate [] 0,.allocate [] 0,.forget 1,.allocate [1040] 4096] := by
  have last : (Op.allocate [1040] 4096).Valid (.oneChunk 2 1056 0 0 (fun _ => 0) [1040]) := by
    refine ⟨?_,fun _ => ⟨by decide,by decide,?_⟩⟩
    · rintro _ ⟨rfl,-⟩
      refine ⟨fun a member => member,?_⟩
      intro a member
      obtain rfl := List.mem_singleton.mp member
      exact ⟨1,rfl⟩
    · intro c member
      obtain rfl := List.mem_singleton.mp member
      exact .inl (by decide)
  have shape : ∀ {top live}, Shape (Machine.oneChunk 2 top 0 0 (fun _ => 0) live).alloc := by
    intro top live
    refine ⟨(by decide : 0 < 16),(by decide : 16 ≤ 16 * 2),?_,List.pairwise_singleton _ _⟩
    intro c member
    obtain rfl := List.mem_singleton.mp member
    exact ⟨by decide,(by decide : 1024 + 16 * 2 < 256 ^ width)⟩
  have sized : ∀ {top live}, Sized (Machine.oneChunk 2 top 0 0 (fun _ => 0) live).alloc :=
    ⟨(by decide : 1 * (16 * 2 % 16) < 16),(by decide : 1 * (16 * 2 / 16) < 2 ^ 31)⟩
  refine safeAlong_of_exact 16 32 1024 _ _ (by decide) (by decide) (by decide) (by decide) ?_ ?_
  · refine .cons (t := .oneChunk 2 1040 0 0 _ [1024]) rfl (valid_of_place (.inr (by decide))) ?_
    refine .cons (t := .oneChunk 2 1056 0 0 _ [1040,1024]) rfl (valid_of_place (.inr (by decide))) ?_
    refine .cons (t := .oneChunk 2 1056 0 0 _ [1040]) rfl ⟨fun _ none => none.elim,trivial⟩ ?_
    exact .cons rfl last trivial
  · refine .cons (t := .oneChunk 2 1040 0 0 _ [1024]) rfl (exact_allocate shape ⟨[],1024,0,rfl,rfl,by decide⟩ (by decide) sized) ?_
    refine .cons (t := .oneChunk 2 1056 0 0 _ [1040,1024]) rfl
      (exact_allocate shape ⟨[],1024,1,rfl,rfl,by decide⟩ (by decide) sized) ?_
    refine .cons (t := .oneChunk 2 1056 0 0 _ [1040]) rfl (fun _ none => none.elim) ?_
    exact .cons rfl (exact_allocate shape ⟨[],1024,2,rfl,rfl,by decide⟩ (by decide) sized) trivial

/-- The bytes after a collection that links the last three blocks of a chunk of four. -/
def linked : Bytes := Memory.store (Memory.store (Memory.store (fun _ => 0) 1040 0) 1056 1040) 1072 1056

/-- A collection while the chunk has place lists its last three blocks, of which the first one is at the top:
    it is allocated from the list, and again from the top. -/
theorem collectGarbage_over_top :
    let ops : List Op := [.allocate [] 0,.collectGarbage [1024],.allocate [] 0,.allocate [] 0,.allocate [] 0,.allocate [] 0]
    Along Op.apply Op.Valid (.create 16 64 1024 fun _ => 0) ops ∧ ¬SafeAlong Op.apply Op.Safe (.create 16 64 1024 fun _ => 0) ops := by
  constructor
  · refine .cons (t := .oneChunk 4 1040 0 0 _ [1024]) rfl (valid_of_place (.inr (by decide))) ?_
    refine .cons (t := .oneChunk 4 1040 1072 3 linked [1024]) rfl ⟨?_,trivial⟩ ?_
    · rintro _ rfl
      refine ⟨fun a member => member,?_⟩
      intro a member
      obtain rfl := List.mem_singleton.mp member
      exact ⟨0,rfl⟩
    refine .cons (t := .oneChunk 4 1040 1056 2 linked [1072,1024]) rfl (valid_of_place (.inl (by decide))) ?_
    refine .cons (t := .oneChunk 4 1040 1040 1 linked [1056,1072,1024]) rfl (valid_of_place (.inl (by decide))) ?_
    refine .cons (t := .oneChunk 4 1040 0 0 linked [1040,1056,1072,1024]) rfl (valid_of_place (.inl (by decide))) ?_
    exact .cons rfl (valid_of_place (.inr (by decide))) trivial
  · intro run
    have run := run.tail (t := .oneChunk 4 1040 0 0 _ [1024]) rfl
    have run := run.tail (t := .oneChunk 4 1040 1072 3 linked [1024]) rfl
    have run := run.tail (t := .oneChunk 4 1040 1056 2 linked [1072,1024]) rfl
    have run := run.tail (t := .oneChunk 4 1040 1040 1 linked [1056,1072,1024]) rfl
    have run := run.tail (t := .oneChunk 4 1040 0 0 linked [1040,1056,1072,1024]) rfl
    obtain ⟨m,applied,⟨-,p,same,apart⟩,-⟩ := run
    have last := Option.some.inj applied
    subst last
    obtain rfl : p = 1040 := by cases same; rfl
    have overlap := apart 1040 List.mem_cons_self 1040
    exact overlap ⟨by decide,by decide⟩ ⟨by decide,by decide⟩

end Otawa.BlockGC
