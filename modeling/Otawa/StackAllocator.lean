import Mathlib.Algebra.Group.Int.Defs
import Mathlib.Algebra.Group.Nat.Defs
import Otawa.Blocks
import Otawa.Runs

/-!
The stack allocator of `elm`: chunks of one size, the place of the next block in the current
one, and marks of this place. A release comes back to the chunk of its mark, but `max` stays
the end of the last chunk that was made; a mark at the end of a chunk is not found in it.
-/
namespace Otawa.Stacking
open Otawa.Blocks (Block)
open Otawa.Runs

/-- `StackAllocator`: the buffers of the chunks, the current one first. -/
structure StackAllocator where
  chunks : List Nat
  top : Nat
  max : Nat
  size : Nat

def header : Nat := 8

theorem header_pos : 0 < header := by decide

/-- The conversion of a difference of pointers to `size_t`. -/
def sizeT (n : Int) : Nat := (n % 2 ^ 64).toNat

namespace StackAllocator
variable (s : StackAllocator)

def create (size : Nat) : StackAllocator := ⟨[],0,0,size⟩

/-- The part of `allocate` that takes the block in the current chunk, if there is one with place enough. -/
def take (n : Nat) : Option (Nat × StackAllocator) :=
  if s.chunks = [] ∨ sizeT (s.max - s.top) < n then none else some (s.top,{ s with top := s.top + n })

/-- `newChunk`, with the buffer that the system gives. -/
def newChunk (buffer : Nat) : StackAllocator :=
  { s with chunks := buffer :: s.chunks, top := buffer, max := buffer + s.size }

/-- `allocate`, with its assertion and `chunkFilled`. -/
def allocate (n buffer : Nat) : Option (Nat × StackAllocator) :=
  if n ≤ s.size then (s.take n).or ((s.newChunk buffer).take n) else none

def mark : Nat := s.top

/-- The loop of `release`, with the assertion that it found the mark. -/
def unwind (size mark : Nat) : List Nat → Option (List Nat)
  | [] => none
  | buffer :: rest => if buffer ≤ mark ∧ mark < buffer + size then some (buffer :: rest) else unwind size mark rest

def release (mark : Nat) : Option StackAllocator :=
  (unwind s.size mark s.chunks).map fun chunks => { s with chunks, top := mark }

end StackAllocator

/-! ### Runs -/

/-- What is live: the blocks, and the marks that were not released over. -/
inductive Entry where
  | block (b : Block)
  | mark (m : Nat)

structure Machine where
  alloc : StackAllocator
  log : List Entry

/-- An operation; `buffer` is where the system puts a chunk if there is need for one, and
    `entry` the place of a mark in what is live. -/
inductive Op where
  | allocate (n buffer : Nat)
  | mark
  | release (entry : Nat)

def Machine.create (size : Nat) : Machine := ⟨.create size,[]⟩

def Op.apply (m : Machine) : Op → Option Machine
  | allocate n buffer => (m.alloc.allocate n buffer).map fun (p,alloc) => ⟨alloc,.block ⟨p,n⟩ :: m.log⟩
  | mark => some ⟨m.alloc,.mark m.alloc.mark :: m.log⟩
  | release entry =>
    match m.log[entry]? with
    | some (.mark place) => (m.alloc.release place).map fun alloc => ⟨alloc,m.log.drop entry⟩
    | _ => none

structure Fresh (s : StackAllocator) (buffer : Nat) : Prop where
  start : header < buffer
  stop : buffer + s.size < 2 ^ 64
  apart : ∀ c ∈ s.chunks, c + s.size + header ≤ buffer ∨ buffer + s.size + header ≤ c

/-- The size is at most the one of a chunk, and a released mark is one that is live. -/
def Op.Valid (m : Machine) : Op → Prop
  | allocate n buffer => n ≤ m.alloc.size ∧ (m.alloc.take n = none → Fresh m.alloc buffer)
  | mark => True
  | release entry => ∃ place, m.log[entry]? = some (.mark place)

def blocks (log : List Entry) : List Block :=
  log.filterMap fun
    | .block b => some b
    | .mark _ => none

/-- An allocated block lies in a chunk and overlaps no live block. -/
def Op.Safe (m : Machine) (op : Op) (m' : Machine) : Prop :=
  match op with
  | allocate n _ => ∃ p, m'.log = .block ⟨p,n⟩ :: m.log ∧
      (∃ c ∈ m'.alloc.chunks, (Block.mk p n).Within ⟨c,m'.alloc.size⟩) ∧ ∀ b ∈ blocks m.log, (Block.mk p n).Apart b
  | mark | release _ => True

/-- The bound `max` lets no block run over the current chunk; a released mark is not from before the
    first chunk, nor at the end of a chunk. -/
def Op.Exact (m : Machine) : Op → Prop
  | allocate n _ => ∀ c rest, m.alloc.chunks = c :: rest →
      sizeT (m.alloc.max - m.alloc.top) < n ∨ m.alloc.top + n ≤ c + m.alloc.size
  | mark => True
  | release entry => ∀ place, m.log[entry]? = some (.mark place) → place ≠ 0 ∧ ∀ c ∈ m.alloc.chunks, place ≠ c + m.alloc.size

/-- The chunks of the allocator, apart from each other. -/
structure Chunks (size : Nat) (chunks : List Nat) : Prop where
  bounds : ∀ c ∈ chunks, header < c ∧ c + size < 2 ^ 64
  apart : chunks.Pairwise fun c d => c + size + header ≤ d ∨ d + size + header ≤ c

/-- A place in the first of some chunks, null when there is none. -/
def At (size : Nat) (chunks : List Nat) (place : Nat) : Prop :=
  chunks = [] ∧ place = 0 ∨ ∃ c rest, chunks = c :: rest ∧ c ≤ place ∧ place ≤ c + size

def Before (chunks : List Nat) (place : Nat) (chunks' : List Nat) (place' : Nat) : Prop :=
  chunks = chunks' ∧ place ≤ place' ∨ ∃ above, above ≠ [] ∧ chunks' = above ++ chunks

def Under (size : Nat) (chunks : List Nat) (place : Nat) (b : Block) : Prop :=
  ∃ above c rest, chunks = above ++ c :: rest ∧ b.Within ⟨c,size⟩ ∧ (above = [] → b.base + b.size ≤ place)

def Fits (size : Nat) : List Entry → List Nat → Nat → Prop
  | [], _, _ => True
  | .block b :: log, chunks, place => Under size chunks place b ∧ Fits size log chunks place
  | .mark m :: log, chunks, place => ∃ chunks₀, At size chunks₀ m ∧ Before chunks₀ m chunks place ∧ Fits size log chunks₀ m

section
variable {size place place' place'' : Nat} {chunks chunks' chunks'' : List Nat} {b : Block} {log : List Entry}

theorem Before.refl (chunks : List Nat) (place : Nat) : Before chunks place chunks place := .inl ⟨rfl,le_refl _⟩

theorem Before.trans (first : Before chunks place chunks' place') (second : Before chunks' place' chunks'' place'') :
    Before chunks place chunks'' place'' := by
  rcases first with ⟨rfl,le⟩ | ⟨above,some,rfl⟩
  · rcases second with ⟨rfl,le'⟩ | rest
    · exact .inl ⟨rfl,le.trans le'⟩
    · exact .inr rest
  · rcases second with ⟨rfl,-⟩ | ⟨above',some',rfl⟩
    · exact .inr ⟨above,some,rfl⟩
    · exact .inr ⟨above' ++ above,by simp [some],by simp⟩

theorem Under.mono (under : Under size chunks place b) (before : Before chunks place chunks' place') :
    Under size chunks' place' b := by
  obtain ⟨above,c,rest,rfl,within,ends⟩ := under
  rcases before with ⟨rfl,le⟩ | ⟨above',some,rfl⟩
  · exact ⟨above,c,rest,rfl,within,fun none => (ends none).trans le⟩
  · exact ⟨above' ++ above,c,rest,by simp,within,fun none => absurd (List.append_eq_nil_iff.mp none).1 some⟩

theorem Fits.mono (fits : Fits size log chunks place) (before : Before chunks place chunks' place') :
    Fits size log chunks' place' := by
  induction log with
  | nil => trivial
  | cons entry log ih =>
    cases entry with
    | block b => exact ⟨fits.1.mono before,ih fits.2⟩
    | mark m =>
      obtain ⟨chunks₀,at₀,before₀,fits₀⟩ := fits
      exact ⟨chunks₀,at₀,before₀.trans before,fits₀⟩

theorem Fits.under (fits : Fits size log chunks place) (member : b ∈ blocks log) : Under size chunks place b := by
  induction log generalizing chunks place with
  | nil => cases member
  | cons entry log ih =>
    cases entry with
    | block first =>
      rcases List.mem_cons.mp member with rfl | later
      · exact fits.1
      · exact ih fits.2 later
    | mark m =>
      obtain ⟨chunks₀,-,before₀,fits₀⟩ := fits
      exact (ih fits₀ member).mono before₀

theorem Fits.drop {m : Nat} : ∀ {entry : Nat} {log : List Entry} {chunks : List Nat} {place : Nat},
    Fits size log chunks place → log[entry]? = some (.mark m) →
    ∃ chunks₀, At size chunks₀ m ∧ Before chunks₀ m chunks place ∧ Fits size (log.drop entry) chunks₀ m := by
  intro entry
  induction entry with
  | zero =>
    intro log chunks place fits found
    cases log with
    | nil => cases found
    | cons first log =>
      obtain rfl : first = .mark m := Option.some.inj found
      obtain ⟨chunks₀,at₀,before₀,fits₀⟩ := fits
      exact ⟨chunks₀,at₀,before₀,chunks₀,at₀,.refl _ _,fits₀⟩
  | succ entry ih =>
    intro log chunks place fits found
    cases log with
    | nil => cases found
    | cons first log =>
      cases first with
      | block b => exact ih fits.2 found
      | mark m' =>
        obtain ⟨chunks₀,-,before₀,fits₀⟩ := fits
        obtain ⟨chunks₁,at₁,before₁,fits₁⟩ := ih fits₀ found
        exact ⟨chunks₁,at₁,before₁.trans before₀,fits₁⟩

end

/-- The top is in the current chunk and after all that is live. -/
structure Good (m : Machine) : Prop where
  chunks : Chunks m.alloc.size m.alloc.chunks
  place : At m.alloc.size m.alloc.chunks m.alloc.top
  fits : Fits m.alloc.size m.log m.alloc.chunks m.alloc.top

theorem good_create (size : Nat) : Good (.create size) := by
  refine ⟨⟨?_,.nil⟩,.inl ⟨rfl,rfl⟩,trivial⟩
  intro c member
  cases member

section
variable {size n place buffer c : Nat} {chunks rest : List Nat} {b : Block} {m : Machine} {s s' : StackAllocator}

theorem Under.apart (under : Under size (c :: rest) place b) (ok : Chunks size (c :: rest)) (start : c ≤ place)
    (room : place + n ≤ c + size) : (Block.mk place n).Apart b := by
  have inside : (Block.mk place n).Within ⟨c,size⟩ := ⟨start,room⟩
  obtain ⟨above,d,rest',split,within,ends⟩ := under
  cases above with
  | nil => exact (Block.apart_of_le (c := ⟨place,n⟩) (ends rfl)).symm
  | cons a above =>
    obtain ⟨rfl,rfl⟩ := List.cons.inj split
    have apart := (List.pairwise_cons.mp ok.apart).1 d (by simp)
    have chunksApart : (Block.mk c size).Apart ⟨d,size⟩ := by
      rcases apart with before | after
      · exact Block.apart_of_le (Nat.le_of_add_right_le before)
      · exact (Block.apart_of_le (Nat.le_of_add_right_le after)).symm
    exact ((chunksApart.within inside).symm.within within).symm

theorem Good.take (good : Good m) (current : m.alloc.chunks = c :: rest) (room : m.alloc.top + n ≤ c + m.alloc.size) :
    c ≤ m.alloc.top ∧ (∀ b ∈ blocks m.log, (Block.mk m.alloc.top n).Apart b) ∧
      Good ⟨{ m.alloc with top := m.alloc.top + n },.block ⟨m.alloc.top,n⟩ :: m.log⟩ := by
  obtain ⟨⟨size,chunks⟩,place,fits⟩ := good
  rw [current] at place fits
  have start : c ≤ m.alloc.top := by
    rcases place with ⟨none,-⟩ | ⟨c',rest',same,start,-⟩
    · cases none
    · obtain ⟨rfl,rfl⟩ := List.cons.inj same
      exact start
  have ok : Chunks m.alloc.size (c :: rest) := current ▸ ⟨size,chunks⟩
  refine ⟨start,?_,⟨size,chunks⟩,?_,?_⟩
  · intro b member
    exact (fits.under member).apart ok start room
  · exact .inr ⟨c,rest,current,Nat.le_trans start (Nat.le_add_right _ _),room⟩
  · refine ⟨⟨[],c,rest,current,⟨start,room⟩,fun _ => Nat.le_refl _⟩,?_⟩
    rw [current]
    exact fits.mono (.inl ⟨rfl,Nat.le_add_right _ _⟩)

theorem Chunks.cons (ok : Chunks s.size s.chunks) (fresh : Fresh s buffer) : Chunks s.size (buffer :: s.chunks) := by
  constructor
  · intro c member
    rcases List.mem_cons.mp member with rfl | old
    · exact ⟨fresh.start,fresh.stop⟩
    · exact ok.bounds c old
  · refine List.pairwise_cons.mpr ⟨?_,ok.apart⟩
    intro c old
    exact (fresh.apart c old).symm

theorem Good.newChunk (good : Good m) (fresh : Fresh m.alloc buffer) : Good ⟨m.alloc.newChunk buffer,m.log⟩ := by
  refine ⟨good.chunks.cons fresh,.inr ⟨buffer,_,rfl,Nat.le_refl _,Nat.le_add_right _ _⟩,?_⟩
  exact good.fits.mono (.inr ⟨[buffer],by simp,rfl⟩)

theorem unwind_eq_none (away : ∀ c ∈ chunks, ¬(c ≤ place ∧ place < c + size)) : StackAllocator.unwind size place chunks = none := by
  induction chunks with
  | nil => rfl
  | cons c rest ih =>
    rw [StackAllocator.unwind,if_neg (away c (by simp))]
    exact ih fun d member => away d (by simp [member])

theorem unwind_append {above : List Nat} (away : ∀ c ∈ above, ¬(c ≤ place ∧ place < c + size)) :
    StackAllocator.unwind size place (above ++ chunks) = StackAllocator.unwind size place chunks := by
  induction above with
  | nil => rfl
  | cons c rest ih =>
    rw [List.cons_append,StackAllocator.unwind,if_neg (away c (by simp))]
    exact ih fun d member => away d (by simp [member])

theorem Before.append {chunks' : List Nat} {place' : Nat} (before : Before chunks place chunks' place') :
    ∃ above, chunks' = above ++ chunks := by
  rcases before with ⟨rfl,-⟩ | ⟨above,-,same⟩
  · exact ⟨[],rfl⟩
  · exact ⟨above,same⟩

theorem unwind_eq_some {above : List Nat} (ok : Chunks size (above ++ c :: rest)) (start : c ≤ place) (stop : place < c + size) :
    StackAllocator.unwind size place (above ++ c :: rest) = some (c :: rest) := by
  rw [unwind_append,StackAllocator.unwind,if_pos ⟨start,stop⟩]
  intro d member inside
  have apart := (List.pairwise_append.mp ok.apart).2.2 d member c (by simp)
  omega

theorem Chunks.of_ne (ok : Chunks size chunks) {d : Nat} (member : c ∈ chunks) (member' : d ∈ chunks) (ne : c ≠ d) :
    c + size + header ≤ d ∨ d + size + header ≤ c := by
  have : Std.Symm fun c d => c + size + header ≤ d ∨ d + size + header ≤ c := ⟨fun _ _ apart => apart.symm⟩
  exact ok.apart.forall member member' ne

theorem unwind_end (ok : Chunks size chunks) (bad : place = 0 ∨ ∃ c ∈ chunks, place = c + size) :
    StackAllocator.unwind size place chunks = none := by
  apply unwind_eq_none
  intro d member inside
  rcases bad with rfl | ⟨c,member',rfl⟩
  · have := (ok.bounds d member).1
    omega
  · by_cases same : d = c
    · omega
    · have apart := ok.of_ne member member' same
      have := header_pos
      omega

/-! ### A step -/

theorem take_of_nil (none : s.chunks = []) : s.take n = .none := by
  rw [StackAllocator.take,if_pos (.inl none)]

theorem take_of_lt (full : sizeT (s.max - s.top) < n) : s.take n = none := by
  rw [StackAllocator.take,if_pos (.inr full)]

theorem take_of_le (current : s.chunks = c :: rest) (room : ¬sizeT (s.max - s.top) < n) :
    s.take n = some (s.top,{ s with top := s.top + n }) := by
  rw [StackAllocator.take,if_neg]
  simp [current,room]

theorem sizeT_cast {k : Nat} (bound : k < 2 ^ 64) : sizeT k = k := by
  unfold sizeT
  omega

theorem take_newChunk (fits : n ≤ s.size) (bound : s.size < 2 ^ 64) :
    (s.newChunk buffer).take n = some (buffer,{ s.newChunk buffer with top := buffer + n }) := by
  refine take_of_le (show (s.newChunk buffer).chunks = buffer :: s.chunks from rfl) ?_
  have room : ((s.newChunk buffer).max : Int) - (s.newChunk buffer).top = s.size := by
    change ((buffer + s.size : Nat) : Int) - (buffer : Nat) = s.size
    omega
  rw [room,sizeT_cast bound]
  exact Nat.not_lt.mpr fits

def Machine.took (m : Machine) (n : Nat) : Machine :=
  ⟨{ m.alloc with top := m.alloc.top + n },.block ⟨m.alloc.top,n⟩ :: m.log⟩

/-- What an operation has to give: it succeeds, its block is safe, and the top is again after all that is live. -/
def Op.Holds (m : Machine) (op : Op) : Prop :=
  ∃ m', op.apply m = some m' ∧ op.Safe m m' ∧ Good m'

theorem apply_allocate_new (ok : n ≤ m.alloc.size) (full : m.alloc.take n = none) (fresh : Fresh m.alloc buffer) :
    Op.apply m (.allocate n buffer) = some ((⟨m.alloc.newChunk buffer,m.log⟩ : Machine).took n) := by
  have bound : m.alloc.size < 2 ^ 64 := by
    have := fresh.stop
    omega
  rw [Op.apply,StackAllocator.allocate,if_pos ok,full,Option.none_or,take_newChunk ok bound]
  rfl

theorem apply_allocate_old (ok : n ≤ m.alloc.size) (current : m.alloc.chunks = c :: rest)
    (room : ¬sizeT (m.alloc.max - m.alloc.top) < n) : Op.apply m (.allocate n buffer) = some (m.took n) := by
  rw [Op.apply,StackAllocator.allocate,if_pos ok,take_of_le current room]
  rfl

theorem allocate_holds (good : Good m) (valid : (Op.allocate n buffer).Valid m) (exact : (Op.allocate n buffer).Exact m) :
    (Op.allocate n buffer).Holds m := by
  obtain ⟨ok,system⟩ := valid
  by_cases full : m.alloc.take n = none
  · have fresh := system full
    obtain ⟨start,apart,good'⟩ := (good.newChunk fresh).take (n := n) rfl (Nat.add_le_add_left ok _)
    refine ⟨_,apply_allocate_new ok full fresh,?_,good'⟩
    refine ⟨buffer,rfl,?_,apart⟩
    exact ⟨buffer,List.mem_cons_self,start,Nat.add_le_add_left ok _⟩
  · cases current : m.alloc.chunks with
    | nil => exact absurd (take_of_nil current) full
    | cons c rest =>
      have room : ¬sizeT (m.alloc.max - m.alloc.top) < n := fun less => full (take_of_lt less)
      have fits : m.alloc.top + n ≤ c + m.alloc.size := (exact c rest current).resolve_left room
      obtain ⟨start,apart,good'⟩ := good.take current fits
      refine ⟨_,apply_allocate_old ok current room,?_,good'⟩
      refine ⟨m.alloc.top,rfl,?_,apart⟩
      exact ⟨c,by simp [Machine.took,current],start,fits⟩

theorem exact_of_allocate {m' : Machine} (good : Good m) (valid : (Op.allocate n buffer).Valid m)
    (applied : Op.apply m (.allocate n buffer) = some m') (safe : (Op.allocate n buffer).Safe m m') :
    (Op.allocate n buffer).Exact m := by
  intro c rest current
  by_cases room : sizeT (m.alloc.max - m.alloc.top) < n
  · exact .inl room
  · right
    rw [apply_allocate_old valid.1 current room,Option.some.injEq] at applied
    subst applied
    obtain ⟨p,same,⟨d,member,inside⟩,-⟩ := safe
    obtain rfl : p = m.alloc.top := by simpa [Machine.took] using same.symm
    have member' : d ∈ m.alloc.chunks := member
    obtain ⟨start,stop⟩ : c ≤ m.alloc.top ∧ m.alloc.top ≤ c + m.alloc.size := by
      rcases good.place with ⟨none,-⟩ | ⟨c',rest',current',inside'⟩
      · simp [none] at current
      · obtain ⟨rfl,rfl⟩ := List.cons.inj (current.symm.trans current')
        exact inside'
    have start' : d ≤ m.alloc.top := inside.1
    have stop' : m.alloc.top + n ≤ d + m.alloc.size := inside.2
    by_cases same : c = d
    · subst same
      exact stop'
    · have apart := good.chunks.of_ne (by simp [current]) member' same
      have := header_pos
      omega

theorem release_holds {entry : Nat} (good : Good m) (valid : (Op.release entry).Valid m) (exact : (Op.release entry).Exact m) :
    (Op.release entry).Holds m := by
  obtain ⟨place,found⟩ := valid
  obtain ⟨chunks₀,at₀,before₀,fits₀⟩ := good.fits.drop found
  obtain ⟨above,split⟩ := before₀.append
  obtain ⟨nonzero,within⟩ := exact place found
  rcases at₀ with ⟨-,null⟩ | ⟨c,rest,rfl,start,stop⟩
  · exact absurd null nonzero
  · have less : place < c + m.alloc.size := Nat.lt_of_le_of_ne stop (within c (by simp [split]))
    have found' : m.alloc.release place = some { m.alloc with chunks := c :: rest, top := place } := by
      rw [StackAllocator.release,split,unwind_eq_some (split ▸ good.chunks) start less]
      rfl
    have sub : (c :: rest).Sublist m.alloc.chunks := split ▸ List.sublist_append_right above _
    refine ⟨⟨{ m.alloc with chunks := c :: rest, top := place },m.log.drop entry⟩,?_,trivial,⟨⟨?_,?_⟩,?_,fits₀⟩⟩
    · simp [Op.apply,found,found']
    · intro d member
      exact good.chunks.bounds d (sub.subset member)
    · exact good.chunks.apart.sublist sub
    · exact .inr ⟨c,rest,rfl,start,stop⟩

theorem exact_of_release {m' : Machine} {entry : Nat} (good : Good m) (applied : Op.apply m (.release entry) = some m') :
    (Op.release entry).Exact m := by
  intro place found
  by_contra bad
  have lost : m.alloc.release place = none := by
    rw [StackAllocator.release,unwind_end good.chunks,Option.map_none]
    by_cases null : place = 0
    · exact .inl null
    · right
      simpa [null] using bad
  simp [Op.apply,found,lost] at applied

theorem Op.holds {op : Op} (good : Good m) (valid : op.Valid m) (exact : op.Exact m) : op.Holds m := by
  cases op with
  | allocate n buffer => exact allocate_holds good valid exact
  | mark =>
    refine ⟨_,rfl,trivial,⟨good.chunks,good.place,?_⟩⟩
    exact ⟨_,good.place,.refl _ _,good.fits⟩
  | release entry => exact release_holds good valid exact

theorem Op.exact_of_safe {op : Op} {m' : Machine} (good : Good m) (valid : op.Valid m) (applied : op.apply m = some m')
    (safe : op.Safe m m') : op.Exact m := by
  cases op with
  | allocate n buffer => exact exact_of_allocate good valid applied safe
  | mark => trivial
  | release entry => exact exact_of_release good applied

end

/-- In a run of the allocator every assertion holds and every block lies in an owned chunk and overlaps no
    live block exactly when no mark from before the first chunk or from the end of a chunk is released, and
    the end that was not restored lets no block go over the current chunk. -/
theorem safeAlong_iff_exact (size : Nat) (ops : List Op) (valid : Along Op.apply Op.Valid (.create size) ops) :
    SafeAlong Op.apply Op.Safe (.create size) ops ↔ Along Op.apply Op.Exact (.create size) ops :=
  safeAlong_iff_along (fun _ _ good valid exact => Op.holds good valid exact)
    (fun _ _ _ good valid applied safe => Op.exact_of_safe good valid applied safe) (good_create size) valid

/-- A second block in place of a released one, in the same chunk. -/
theorem safeAlong_reuse : SafeAlong Op.apply Op.Safe (.create 16) [.allocate 8 1000,.mark,.allocate 4 0,.release 1,.allocate 8 0] := by
  have fresh : Fresh (.create 16) 1000 := by
    refine ⟨by decide,by decide,?_⟩
    intro c member
    cases member
  refine (safeAlong_iff_exact 16 _ ?_).mpr ?_
  · refine .cons rfl ⟨by decide,fun _ => fresh⟩ (.cons rfl trivial (.cons rfl ⟨by decide,?_⟩ (.cons rfl ⟨1008,rfl⟩
      (.cons rfl ⟨by decide,?_⟩ trivial))))
    · intro full
      cases full
    · intro full
      cases full
  · refine .cons rfl ?_ (.cons rfl trivial (.cons rfl ?_ (.cons rfl ?_ (.cons rfl ?_ trivial))))
    · intro c rest current
      cases current
    · intro c rest current
      cases current
      exact .inr (by decide)
    · intro place found
      cases found
      exact ⟨by decide,by decide⟩
    · intro c rest current
      cases current
      exact .inr (by decide)

/-- The end of the last chunk that was made is used for the first one, to which the release comes back. -/
theorem release_keeps_max :
    let ops : List Op := [.allocate 8 1000,.mark,.allocate 8 0,.allocate 8 5000,.release 2,.allocate 16 0]
    Along Op.apply Op.Valid (.create 16) ops ∧ ¬SafeAlong Op.apply Op.Safe (.create 16) ops := by
  have first : Fresh (.create 16) 1000 := by
    refine ⟨by decide,by decide,?_⟩
    intro c member
    cases member
  have second : Fresh ⟨[1000],1016,1016,16⟩ 5000 := by
    refine ⟨by decide,by decide,?_⟩
    intro c member
    obtain rfl : c = 1000 := by simpa using member
    exact .inl (by decide)
  constructor
  · refine .cons rfl ⟨by decide,fun _ => first⟩ (.cons rfl trivial (.cons rfl ⟨by decide,?_⟩
      (.cons rfl ⟨by decide,fun _ => second⟩ (.cons rfl ⟨1008,rfl⟩ (.cons rfl ⟨by decide,?_⟩ trivial)))))
    · intro full
      cases full
    · intro full
      cases full
  · rintro ⟨m₁,applied₁,-,m₂,applied₂,-,m₃,applied₃,-,m₄,applied₄,-,m₅,applied₅,-,m₆,applied₆,safe,-⟩
    cases applied₁
    cases applied₂
    cases applied₃
    cases applied₄
    cases applied₅
    cases applied₆
    obtain ⟨p,same,⟨c,member,within⟩,-⟩ := safe
    obtain rfl : c = 1000 := List.mem_singleton.mp member
    obtain rfl : p = 1008 := by cases same; rfl
    exact absurd within.2 (by decide)

end Otawa.Stacking
