import Otawa.BlockFold
import Otawa.Runs
import Mathlib.Algebra.Group.Nat.Defs
import Mathlib.Tactic.Common

/-!
The MD5 checksum (`checksum/MD5.cpp`): data are put in a buffer of 1024 bytes,
from blocks or from streams, and the buffer is drained by blocks of 64 bytes.
The digest is that of all the bytes put in as long as fewer than 64 of them
wait in the buffer; but a block that is too long for the buffer makes `put`
loop forever, and reading a stream stops after each read that does not end on
a block, and never stops when the stream does.
-/
namespace Otawa.Checksum.Md5

open BlockFold Runs

/-! ### The compression of a block -/

structure Regs where
  A : UInt32
  B : UInt32
  C : UInt32
  D : UInt32
  deriving DecidableEq

def F (x y z : UInt32) : UInt32 := (x &&& y) ||| (~~~x &&& z)

def G (x y z : UInt32) : UInt32 := (x &&& z) ||| (~~~z &&& y)

def H (x y z : UInt32) : UInt32 := x ^^^ y ^^^ z

def I (x y z : UInt32) : UInt32 := y ^^^ (x ||| ~~~z)

def rotateLeft (w s : UInt32) : UInt32 := (w <<< s) ||| ((w &&& 0xFFFFFFFF) >>> (32 - s))

def getUint32 (b : List UInt8) (i : Nat) : UInt32 :=
  (b.getD i 0).toUInt32 ||| (b.getD (i + 1) 0).toUInt32 <<< 8 ||| (b.getD (i + 2) 0).toUInt32 <<< 16 |||
    (b.getD (i + 3) 0).toUInt32 <<< 24

/-- A call of `FF`, `GG`, `HH` or `II`: the index of the word, the shift and the constant. -/
structure Call where
  mix : UInt32 → UInt32 → UInt32 → UInt32
  x : Nat
  s : UInt32
  t : UInt32

def round (mix : UInt32 → UInt32 → UInt32 → UInt32) (shifts : List UInt32) (words : List (Nat × UInt32)) : List Call :=
  words.mapIdx fun i (x,t) => ⟨mix,x,shifts.getD (i % 4) 0,t⟩

def rounds : List Call :=
  round F [7,12,17,22]
    [(0,0xd76aa478),(1,0xe8c7b756),(2,0x242070db),(3,0xc1bdceee),(4,0xf57c0faf),(5,0x4787c62a),(6,0xa8304613),(7,0xfd469501),
      (8,0x698098d8),(9,0x8b44f7af),(10,0xffff5bb1),(11,0x895cd7be),(12,0x6b901122),(13,0xfd987193),(14,0xa679438e),(15,0x49b40821)] ++
  round G [5,9,14,20]
    [(1,0xf61e2562),(6,0xc040b340),(11,0x265e5a51),(0,0xe9b6c7aa),(5,0xd62f105d),(10,0x2441453),(15,0xd8a1e681),(4,0xe7d3fbc8),
      (9,0x21e1cde6),(14,0xc33707d6),(3,0xf4d50d87),(8,0x455a14ed),(13,0xa9e3e905),(2,0xfcefa3f8),(7,0x676f02d9),(12,0x8d2a4c8a)] ++
  round H [4,11,16,23]
    [(5,0xfffa3942),(8,0x8771f681),(11,0x6d9d6122),(14,0xfde5380c),(1,0xa4beea44),(4,0x4bdecfa9),(7,0xf6bb4b60),(10,0xbebfbc70),
      (13,0x289b7ec6),(0,0xeaa127fa),(3,0xd4ef3085),(6,0x4881d05),(9,0xd9d4d039),(12,0xe6db99e5),(15,0x1fa27cf8),(2,0xc4ac5665)] ++
  round I [6,10,15,21]
    [(0,0xf4292244),(7,0x432aff97),(14,0xab9423a7),(5,0xfc93a039),(12,0x655b59c3),(3,0x8f0ccc92),(10,0xffeff47d),(1,0x85845dd1),
      (8,0x6fa87e4f),(15,0xfe2ce6e0),(6,0xa3014314),(13,0x4e0811a1),(4,0xf7537e82),(11,0xbd3af235),(2,0x2ad7d2bb),(9,0xeb86d391)]

/-- A call changes its first argument; the next call takes the arguments turned by one place. -/
def Call.apply (words : List UInt32) (regs : Regs) (call : Call) : Regs :=
  let ⟨a,b,c,d⟩ := regs
  ⟨d,b + rotateLeft (a + call.mix b c d + words.getD call.x 0 + call.t) call.s,b,c⟩

def encode (regs : Regs) (buffer : List UInt8) : Regs :=
  let words := (List.range 16).map fun i => getUint32 buffer (4 * i)
  let ⟨a,b,c,d⟩ := rounds.foldl (Call.apply words) regs
  ⟨regs.A + a,regs.B + b,regs.C + c,regs.D + d⟩

def bufferSize : Nat := 1024

/-- `finalized` and `_digest`, the registers, the buffer with the number of bytes in it, and the count of the bytes
    that have been compressed. -/
structure MD5 where
  finalized : Bool
  digestTab : List UInt8
  regs : Regs
  buf : List UInt8
  size : Nat
  bits : UInt32
  deriving DecidableEq

/-- The content of `_digest` is the one of the memory. -/
def MD5.init (memory : List UInt8) : MD5 where
  finalized := false
  digestTab := memory
  regs := ⟨0x67452301,0xefcdab89,0x98badcfe,0x10325476⟩
  buf := List.replicate bufferSize 0
  size := 0
  bits := 0

def memcpy (memory : List UInt8) (offset : Nat) (bytes : List UInt8) : Option (List UInt8) :=
  if offset + bytes.length ≤ memory.length then
    some (memory.take offset ++ bytes ++ memory.drop (offset + bytes.length))
  else
    none

/-- The loop of `update`. -/
def encodeFrom (buf : List UInt8) (size i : Nat) (regs : Regs) (bits : UInt32) : Regs × UInt32 × Nat :=
  if 63 < size - i then
    encodeFrom buf size (i + 64) (encode regs ((buf.drop i).take 64)) (bits + 64)
  else
    (regs,bits,i)
termination_by size - i

def MD5.update (m : MD5) : Option MD5 :=
  if m.finalized then
    none
  else
    let (regs,bits,i) := encodeFrom m.buf m.size 0 m.regs m.bits
    (memcpy m.buf 0 ((m.buf.drop i).take (m.size - i))).map fun buf =>
      {m with regs := regs, bits := bits, buf := buf, size := m.size - i}

def MD5.putBlock : Nat → MD5 → List UInt8 → Option MD5
  | 0,_,_ => none
  | fuel + 1,m,block =>
    if bufferSize < (block.length + m.size) % 2 ^ 32 then
      (memcpy m.buf m.size (block.take (min block.length (bufferSize - m.size)))).bind fun buf =>
        ({m with buf := buf} : MD5).update.bind fun m =>
          MD5.putBlock fuel m block
    else
      (memcpy m.buf m.size block).map fun buf => {m with buf := buf, size := m.size + block.length}

/-- A read gets what is available, up to the wanted count, and nothing at the end of the stream. -/
def readChunks (chunks : List (List UInt8)) (count : Nat) : List UInt8 × List (List UInt8) :=
  match chunks with
  | [] => ([],[])
  | chunk :: rest => if chunk.length ≤ count then (chunk,rest) else (chunk.take count,chunk.drop count :: rest)

def within (limit : Option Nat) (count : Nat) : Nat := (limit.map (min · count)).getD count

def MD5.putChunks : Nat → Option Nat → MD5 → List (List UInt8) → Option (MD5 × List (List UInt8))
  | 0,_,_,_ => none
  | fuel + 1,limit,m,chunks =>
    let (got,rest) := readChunks chunks (within limit (bufferSize - m.size))
    let limit := limit.map (· - got.length)
    (memcpy m.buf m.size got).bind fun buf =>
      ({m with buf := buf, size := m.size + got.length} : MD5).update.bind fun m =>
        if m.size = 0 ∧ limit ≠ some 0 then MD5.putChunks fuel limit m rest else some (m,rest)

structure InStream where
  chunks : List (List UInt8)
  available : ∀ chunk ∈ chunks, chunk ≠ []

def MD5.putStream (fuel : Nat) (m : MD5) (stream : InStream) : Option (MD5 × List (List UInt8)) :=
  m.putChunks fuel none stream.chunks

def MD5.putStreamMost (fuel : Nat) (m : MD5) (stream : InStream) (length : BitVec 32) : Option (MD5 × List (List UInt8)) :=
  m.putChunks fuel (some length.toNat) stream.chunks

def padding : List UInt8 := 0x80 :: List.replicate 63 0

def addsize (oldlen : UInt32) : List UInt8 :=
  [(oldlen <<< 3).toUInt8,(oldlen >>> 5).toUInt8,(oldlen >>> 13).toUInt8,(oldlen >>> 21).toUInt8,0,0,0,0]

def Regs.bytes (regs : Regs) : List UInt8 :=
  [regs.A,regs.B,regs.C,regs.D].flatMap fun r => (List.range 4).map fun i => (r >>> (i * 8).toUInt32).toUInt8

/-- All the bytes of the buffer on the stack are written before it is encoded. -/
def MD5.finalize (m : MD5) : Option MD5 :=
  let scratch := List.replicate 64 0
  let bits := m.bits + m.size.toUInt32
  if 56 < m.size + 1 then
    (memcpy scratch 0 (m.buf.take m.size)).bind fun buffer =>
      (memcpy buffer m.size (padding.take (64 - m.size))).bind fun buffer =>
        (memcpy buffer 0 (List.replicate 56 0)).bind fun buffer' =>
          (memcpy buffer' 56 (addsize bits)).map fun buffer' =>
            let regs := encode (encode m.regs buffer) buffer'
            {m with finalized := true, digestTab := regs.bytes, regs := regs, size := 0, bits := bits}
  else
    (memcpy scratch 0 (m.buf.take m.size)).bind fun buffer =>
      (memcpy buffer m.size (padding.take (56 - m.size))).bind fun buffer =>
        (memcpy buffer 56 (addsize bits)).map fun buffer =>
          let regs := encode m.regs buffer
          {m with finalized := true, digestTab := regs.bytes, regs := regs, bits := bits}

def MD5.digest (m : MD5) : Option (List UInt8) :=
  if m.finalized then some m.digestTab else m.finalize.map (·.digestTab)

def MD5.pending (m : MD5) : List UInt8 := m.buf.take m.size

/-- The state between two calls of `put`. -/
structure Ready (m : MD5) : Prop where
  pursued : m.finalized = false
  whole : m.buf.length = bufferSize
  inside : m.size ≤ bufferSize

/-- The bytes have gone from the pending ones into the registers, or they are pending. -/
structure After (m : MD5) (bytes : List UInt8) (m' : MD5) : Prop where
  ready : Ready m'
  absorbed : absorb encode 64 m'.regs m'.pending = absorb encode 64 m.regs (m.pending ++ bytes)
  counted : m'.bits + m'.size.toUInt32 = m.bits + (m.size + bytes.length).toUInt32

theorem memcpy_eq {memory bytes : List UInt8} {offset : Nat} (room : offset + bytes.length ≤ memory.length) :
    ∃ written, memcpy memory offset bytes = some written ∧ written.length = memory.length ∧
      written.take (offset + bytes.length) = memory.take offset ++ bytes := by
  refine ⟨_,if_pos room,?_,?_⟩
  · simp only [List.length_append,List.length_take,List.length_drop]
    omega
  · refine List.take_left' ?_
    simp only [List.length_append,List.length_take]
    omega

theorem memcpy_eq_none {memory bytes : List UInt8} {offset : Nat} (beyond : memory.length < offset + bytes.length) :
    memcpy memory offset bytes = none := if_neg (by omega)

theorem Ready.length_pending {m : MD5} (ready : Ready m) : m.pending.length = m.size := by
  obtain ⟨-,whole,inside⟩ := ready
  rw [MD5.pending,List.length_take]
  omega

/-- The registers after the loop of `update`, the rest being left. -/
theorem encodeFrom_spec (buf : List UInt8) (size i : Nat) (regs : Regs) (bits : UInt32) (inside : size ≤ buf.length) (before : i ≤ size) :
    ∃ regs' bits' i', encodeFrom buf size i regs bits = (regs',bits',i') ∧ i ≤ i' ∧ i' ≤ size ∧ size - i' = (size - i) % 64 ∧
      absorb encode 64 regs ((buf.take size).drop i) = (regs',(buf.take size).drop i') ∧
      bits' + (size - i').toUInt32 = bits + (size - i).toUInt32 := by
  fun_induction encodeFrom buf size i regs bits with
  | case1 i regs bits more ih =>
    specialize ih (by omega)
    obtain ⟨regs',bits',i',eq,later,bound,left,absorbed,counted⟩ := ih
    have block : (buf.take size).drop i = (buf.drop i).take 64 ++ (buf.take size).drop (i + 64) := by
      rw [← List.drop_drop,List.drop_take]
      conv_lhs => rw [← List.take_append_drop 64 ((buf.drop i).take (size - i))]
      rw [List.take_take,Nat.min_eq_left (by omega)]
    refine ⟨regs',bits',i',eq,by omega,bound,by omega,?_,?_⟩
    · rw [block,absorb_block,absorbed]
      rw [List.length_take,List.length_drop]
      omega
    · rw [counted,UInt32.add_assoc]
      congr 1
      rw [show size - i = 64 + (size - (i + 64)) by omega]
      exact (UInt32.ofNat_add 64 _).symm
  | case2 i regs bits few =>
    refine ⟨regs,bits,i,rfl,Nat.le_refl i,before,by omega,absorb_short ?_,rfl⟩
    rw [List.length_drop,List.length_take]
    omega

theorem update_spec {m : MD5} (ready : Ready m) : ∃ m', m.update = some m' ∧ m'.size = m.size % 64 ∧ After m [] m' := by
  obtain ⟨pursued,whole,inside⟩ := ready
  obtain ⟨regs,bits,i,eq,-,bound,left,absorbed,counted⟩ := encodeFrom_spec m.buf m.size 0 m.regs m.bits (by omega) (Nat.zero_le _)
  have moved : ((m.buf.drop i).take (m.size - i)).length = m.size - i := by
    rw [List.length_take,List.length_drop]
    omega
  have room : 0 + ((m.buf.drop i).take (m.size - i)).length ≤ m.buf.length := by omega
  obtain ⟨buf,copied,length,front⟩ := memcpy_eq room
  have updated : m.update = some {m with regs := regs, bits := bits, buf := buf, size := m.size - i} := by
    simp only [MD5.update,pursued,eq,copied]
    rfl
  refine ⟨_,updated,by simp only; omega,⟨pursued,by simp only; omega,by simp only; omega⟩,?_,?_⟩
  · rw [moved,Nat.zero_add,List.take_zero,List.nil_append] at front
    simp only [MD5.pending,front,List.append_nil]
    rw [List.drop_zero] at absorbed
    rw [absorbed,← List.drop_take]
    refine absorb_short ?_
    rw [List.length_drop,List.length_take]
    omega
  · simpa using counted

theorem After.trans {m m' m'' : MD5} {bytes more : List UInt8} (first : After m bytes m') (then' : After m' more m'') :
    After m (bytes ++ more) m'' := by
  refine ⟨then'.ready,?_,?_⟩
  · rw [then'.absorbed,absorb_append,first.absorbed,← absorb_append,List.append_assoc]
  · have add (a b : Nat) : (a + b).toUInt32 = a.toUInt32 + b.toUInt32 := UInt32.ofNat_add a b
    rw [then'.counted,add,← UInt32.add_assoc,first.counted,List.length_append,← Nat.add_assoc,add (m.size + bytes.length),UInt32.add_assoc]

theorem write_spec {m : MD5} {bytes : List UInt8} (ready : Ready m) (room : m.size + bytes.length ≤ bufferSize) :
    ∃ buf, memcpy m.buf m.size bytes = some buf ∧ After m bytes {m with buf := buf, size := m.size + bytes.length} := by
  obtain ⟨pursued,whole,inside⟩ := ready
  have room' : m.size + bytes.length ≤ m.buf.length := by omega
  obtain ⟨buf,copied,length,front⟩ := memcpy_eq room'
  refine ⟨buf,copied,⟨pursued,by simp only; omega,room⟩,?_,rfl⟩
  simp only [MD5.pending,front]

theorem drain_spec {m : MD5} {bytes : List UInt8} (ready : Ready m) (room : m.size + bytes.length ≤ bufferSize) :
    ∃ buf m', memcpy m.buf m.size bytes = some buf ∧ ({m with buf := buf, size := m.size + bytes.length} : MD5).update = some m' ∧
      m'.size = (m.size + bytes.length) % 64 ∧ After m bytes m' := by
  obtain ⟨buf,copied,written⟩ := write_spec ready room
  obtain ⟨m',updated,size,drained⟩ := update_spec written.ready
  refine ⟨buf,m',copied,updated,size,?_⟩
  simpa using written.trans drained

/-- A block that does not fit with the bytes of an unfinished block is copied, and never taken into account. -/
theorem putBlock_stuck {m : MD5} {block : List UInt8} (ready : Ready m) (short : block.length < 2 ^ 32)
    (long : bufferSize < block.length + m.size % 64) (fuel : Nat) : m.putBlock fuel block = none := by
  induction fuel generalizing m with
  | zero => rfl
  | succ fuel ih =>
    obtain ⟨pursued,whole,inside⟩ := ready
    simp only [bufferSize] at whole inside long
    rw [MD5.putBlock]
    split
    next more =>
      have part : m.size + (block.take (min block.length (bufferSize - m.size))).length ≤ m.buf.length := by
        simp only [List.length_take,bufferSize]
        omega
      obtain ⟨buf,copied,length,front⟩ := memcpy_eq part
      obtain ⟨m',updated,size,after⟩ := update_spec (m := {m with buf := buf}) ⟨pursued,by simp only [bufferSize]; omega,inside⟩
      have long' : bufferSize < block.length + m'.size % 64 := by
        simp only [size,bufferSize]
        omega
      simp only [copied,Option.bind_some,updated,ih after.ready long']
    next few =>
      have beyond : m.buf.length < m.size + block.length := by
        simp only [bufferSize] at few
        omega
      rw [memcpy_eq_none beyond]
      rfl

theorem putBlock_spec {m : MD5} {block : List UInt8} (ready : Ready m) (fits : block.length + m.size % 64 ≤ bufferSize) :
    ∃ m', m.putBlock 2 block = some m' ∧ After m block m' := by
  have small : block.length + m.size < 2 ^ 32 := by
    have := ready.inside
    simp only [bufferSize] at this fits
    omega
  rw [MD5.putBlock,Nat.mod_eq_of_lt small]
  split
  next more =>
    -- one turn drains the whole blocks
    have whole := ready.whole
    have part : m.size + (block.take (min block.length (bufferSize - m.size))).length ≤ m.buf.length := by
      have := ready.inside
      simp only [List.length_take]
      omega
    obtain ⟨buf,copied,length,front⟩ := memcpy_eq part
    have same : MD5.pending {m with buf := buf} = m.pending := by
      have := congrArg (List.take m.size) front
      rwa [List.take_take,Nat.min_eq_left (Nat.le_add_right _ _),List.take_left' (by rw [List.length_take,whole,Nat.min_eq_left ready.inside])] at this
    obtain ⟨m',updated,size,drained⟩ := update_spec (m := {m with buf := buf}) ⟨ready.pursued,length.trans whole,ready.inside⟩
    simp only at size
    have drained : After m [] m' := ⟨drained.ready,by rw [drained.absorbed,same],drained.counted⟩
    obtain ⟨buf',copied',written⟩ := @write_spec m' block drained.ready (by omega)
    refine ⟨_,?_,by simpa using drained.trans written⟩
    have few : ¬bufferSize < (block.length + m'.size) % 2 ^ 32 := by
      rw [Nat.mod_eq_of_lt (by omega)]
      omega
    simp only [copied,Option.bind_some,updated,MD5.putBlock,if_neg few,copied',Option.map_some]
  next few =>
    obtain ⟨buf,copied,written⟩ := @write_spec m block ready (by omega)
    exact ⟨_,by rw [copied]; rfl,written⟩

/-! ### Streams -/

/-- The bytes of a stream that are to be put, and the ones that are to be left in it. -/
def taken : Option Nat → List (List UInt8) → List UInt8
  | none,chunks => chunks.flatten
  | some l,chunks => chunks.flatten.take l

def left : Option Nat → List (List UInt8) → List UInt8
  | none,_ => []
  | some l,chunks => chunks.flatten.drop l

/-- Each read before the last one ends on a multiple of 64 bytes with the pending ones, and the last one does not, but
    when the limit is reached. -/
def Ends : Option Nat → Nat → List (List UInt8) → Prop
  | limit,size,[] => limit = some 0 ∨ size % 64 ≠ 0
  | limit,size,chunk :: rest =>
    (∃ l ∈ limit, l ≤ chunk.length) ∨
      if (size + chunk.length) % 64 = 0 then Ends (limit.map (· - chunk.length)) 0 rest else rest = []

variable {got : List UInt8}

theorem readChunks_spec {chunks rest : List (List UInt8)} {count : Nat} (available : ∀ chunk ∈ chunks, chunk ≠ [])
    (eq : readChunks chunks count = (got,rest)) :
    got.length ≤ count ∧ got ++ rest.flatten = chunks.flatten ∧ (∀ chunk ∈ rest, chunk ≠ []) ∧ (got = [] → 0 < count → chunks = []) := by
  fun_cases readChunks chunks count with
  | case1 =>
    obtain ⟨rfl,rfl⟩ := Prod.mk.inj eq
    simp
  | case2 chunk rest short =>
    rw [readChunks,if_pos short] at eq
    obtain ⟨rfl,rfl⟩ := Prod.mk.inj eq
    refine ⟨short,rfl,fun c member => available c (List.mem_cons_of_mem _ member),?_⟩
    intro empty
    exact absurd empty (available chunk List.mem_cons_self)
  | case3 chunk rest long =>
    rw [readChunks,if_neg long] at eq
    obtain ⟨rfl,rfl⟩ := Prod.mk.inj eq
    refine ⟨List.length_take_le _ _,by simp [← List.append_assoc],?_,?_⟩
    · intro c member
      rcases List.mem_cons.mp member with rfl | member
      · intro empty
        have := congrArg List.length empty
        rw [List.length_drop,List.length_nil] at this
        omega
      · exact available c (List.mem_cons_of_mem _ member)
    · intro empty positive
      have := congrArg List.length empty
      rw [List.length_take,List.length_nil] at this
      omega

theorem within_le (limit : Option Nat) (count : Nat) : within limit count ≤ count := by
  cases limit with
  | none => exact Nat.le_refl _
  | some l => exact Nat.min_le_right l count

@[simp] theorem left_nil (limit : Option Nat) : left limit [] = [] := by
  cases limit <;> simp [left]

theorem left_eq_iff {limit : Option Nat} {rest : List (List UInt8)} (available : ∀ chunk ∈ rest, chunk ≠ []) (more : limit ≠ some 0) :
    rest.flatten = left limit rest ↔ rest = [] := by
  constructor
  · intro same
    have none : rest.flatten = [] := by
      cases limit with
      | none => exact same
      | some l =>
        have positive : l ≠ 0 := fun zero => more (congrArg some zero)
        have lengths := congrArg List.length same
        rw [left,List.length_drop] at lengths
        exact List.length_eq_zero_iff.mp (by omega)
    rw [List.flatten_eq_nil_iff] at none
    exact List.eq_nil_iff_forall_not_mem.mpr fun chunk member => available chunk member (none chunk member)
  · rintro rfl
    simp

theorem ends_iff {limit : Option Nat} {size : Nat} {chunks rest : List (List UInt8)} (available : ∀ chunk ∈ chunks, chunk ≠ [])
    (inside : size ≤ bufferSize) (eq : readChunks chunks (within limit (bufferSize - size)) = (got,rest)) :
    Ends limit size chunks ↔
      if (size + got.length) % 64 = 0 ∧ limit.map (· - got.length) ≠ some 0 then Ends (limit.map (· - got.length)) 0 rest
      else rest.flatten = left (limit.map (· - got.length)) rest := by
  have available' := (readChunks_spec available eq).2.2.1
  generalize counted : within limit (bufferSize - size) = count at eq
  fun_cases readChunks chunks count with
  | case1 =>
    obtain ⟨rfl,rfl⟩ := Prod.mk.inj eq
    by_cases whole : size % 64 = 0 <;> by_cases reached : limit = some 0 <;> simp [Ends,whole,reached]
  | case2 chunk rest short =>
    rw [readChunks,if_pos short] at eq
    obtain ⟨rfl,rfl⟩ := Prod.mk.inj eq
    have reached : (∃ l ∈ limit, l ≤ chunk.length) ↔ limit.map (· - chunk.length) = some 0 := by
      simp [Nat.sub_eq_zero_iff_le]
    rw [Ends,reached]
    by_cases stop : limit.map (· - chunk.length) = some 0
    · simp [stop,left]
    · simp only [stop,false_or,ne_eq,not_false_iff,and_true]
      rw [left_eq_iff available' stop]
  | case3 chunk rest long =>
    rw [readChunks,if_neg long] at eq
    obtain ⟨rfl,rfl⟩ := Prod.mk.inj eq
    have length : (chunk.take count).length = count := by
      rw [List.length_take]
      omega
    rw [length]
    by_cases stop : limit.map (· - count) = some 0
    · obtain ⟨l,rfl,small⟩ := Option.map_eq_some_iff.mp stop
      have : l ≤ chunk.length := by omega
      simp [Ends,stop,left,this]
    · -- the read fills the buffer
      have full : count = bufferSize - size := by
        rw [← counted]
        cases limit with
        | none => rfl
        | some l =>
          simp only [Option.map_some,Option.some.injEq,← counted,within,Option.getD_some] at stop ⊢
          omega
      have whole : (size + count) % 64 = 0 := by
        rw [full,Nat.add_sub_cancel' inside]
        rfl
      have same : (size + chunk.length) % 64 = (0 + (chunk.drop count).length) % 64 := by
        rw [List.length_drop]
        omega
      have reached : (∃ l ∈ limit, l ≤ chunk.length) ↔ ∃ l ∈ limit.map (· - count), l ≤ (chunk.drop count).length := by
        cases limit with
        | none => simp
        | some l =>
          simp only [Option.map_some,Option.mem_some_iff,exists_eq_left',List.length_drop]
          omega
      have further : limit.map (· - chunk.length) = (limit.map (· - count)).map (· - (chunk.drop count).length) := by
        cases limit with
        | none => rfl
        | some l =>
          simp only [Option.map_some,List.length_drop]
          congr 1
          omega
      simp only [whole,stop,ne_eq,not_false_iff,and_self,if_true]
      rw [Ends,Ends,same,reached,further]

theorem taken_eq {limit : Option Nat} {chunks rest : List (List UInt8)} (same : got ++ rest.flatten = chunks.flatten)
    (bounded : ∀ l ∈ limit, got.length ≤ l) : taken limit chunks = got ++ taken (limit.map (· - got.length)) rest := by
  cases limit with
  | none => simp [taken,← same]
  | some l =>
    simp only [taken,← same,Option.map_some,List.take_append]
    rw [List.take_of_length_le (bounded l rfl)]

theorem left_eq {limit : Option Nat} {chunks rest : List (List UInt8)} (same : got ++ rest.flatten = chunks.flatten)
    (bounded : ∀ l ∈ limit, got.length ≤ l) : left limit chunks = left (limit.map (· - got.length)) rest := by
  cases limit with
  | none => rfl
  | some l =>
    simp only [left,← same,Option.map_some,List.drop_append]
    rw [List.drop_eq_nil_of_le (bounded l rfl),List.nil_append]

theorem taken_eq_nil {limit : Option Nat} {rest : List (List UInt8)} (same : rest.flatten = left limit rest) : taken limit rest = [] := by
  cases limit with
  | none => exact same
  | some l =>
    have lengths := congrArg List.length same
    rw [left,List.length_drop] at lengths
    rw [taken,List.take_eq_nil_iff,← List.length_eq_zero_iff]
    omega

theorem putChunks_succ {m : MD5} {limit : Option Nat} {chunks rest : List (List UInt8)} (ready : Ready m)
    (available : ∀ chunk ∈ chunks, chunk ≠ []) (eq : readChunks chunks (within limit (bufferSize - m.size)) = (got,rest)) :
    ∃ m', m'.size = (m.size + got.length) % 64 ∧ After m got m' ∧ ∀ fuel, m.putChunks (fuel + 1) limit chunks =
      if (m.size + got.length) % 64 = 0 ∧ limit.map (· - got.length) ≠ some 0 then m'.putChunks fuel (limit.map (· - got.length)) rest
      else some (m',rest) := by
  have room : m.size + got.length ≤ bufferSize := by
    have small := (readChunks_spec available eq).1
    have bound := within_le limit (bufferSize - m.size)
    have := ready.inside
    omega
  obtain ⟨buf,m',copied,updated,size,after⟩ := drain_spec ready room
  refine ⟨m',size,after,fun fuel => ?_⟩
  simp only [MD5.putChunks,eq,copied,Option.bind_some,updated,size]

section
variable {m m' : MD5} {limit : Option Nat} {chunks rest : List (List UInt8)}

theorem length_got_le {count : Nat} {got : List UInt8} (available : ∀ chunk ∈ chunks, chunk ≠ [])
    (eq : readChunks chunks (within limit count) = (got,rest)) : ∀ l ∈ limit, got.length ≤ l := by
  rintro l rfl
  exact Nat.le_trans (readChunks_spec available eq).1 (Nat.min_le_left l count)

/-- A loop that ends with all its input read meets the condition, and has taken this input into account. -/
theorem ends_of_putChunks {fuel : Nat} (ready : Ready m) (available : ∀ chunk ∈ chunks, chunk ≠ [])
    (ended : m.putChunks fuel limit chunks = some (m',rest)) (consumed : rest.flatten = left limit chunks) :
    Ends limit m.size chunks ∧ After m (taken limit chunks) m' := by
  induction fuel generalizing m limit chunks with
  | zero => simp [MD5.putChunks] at ended
  | succ fuel ih =>
    obtain ⟨got,unread,eq⟩ : ∃ got unread, readChunks chunks (within limit (bufferSize - m.size)) = (got,unread) := ⟨_,_,rfl⟩
    obtain ⟨m1,size,after,turn⟩ := putChunks_succ ready available eq
    obtain ⟨-,same,available',-⟩ := readChunks_spec available eq
    have bounded := length_got_le available eq
    rw [ends_iff available ready.inside eq,taken_eq same bounded]
    rw [turn] at ended
    rw [left_eq same bounded] at consumed
    by_cases more : (m.size + got.length) % 64 = 0 ∧ limit.map (· - got.length) ≠ some 0
    · rw [if_pos more] at ended ⊢
      obtain ⟨ends,later⟩ := ih after.ready available' ended consumed
      rw [size,more.1] at ends
      exact ⟨ends,after.trans later⟩
    · rw [if_neg more] at ended ⊢
      obtain ⟨rfl,rfl⟩ := Prod.mk.inj (Option.some.inj ended)
      refine ⟨consumed,?_⟩
      rw [taken_eq_nil consumed,List.append_nil]
      exact after

theorem putChunks_of_ends (ready : Ready m) (available : ∀ chunk ∈ chunks, chunk ≠ []) (ends : Ends limit m.size chunks) :
    ∃ fuel m' rest, m.putChunks fuel limit chunks = some (m',rest) ∧ rest.flatten = left limit chunks := by
  induction measured : chunks.flatten.length + m.size using Nat.strongRecOn generalizing m limit chunks with
  | ind measured' ih =>
    obtain ⟨got,unread,eq⟩ : ∃ got unread, readChunks chunks (within limit (bufferSize - m.size)) = (got,unread) := ⟨_,_,rfl⟩
    obtain ⟨m1,size,after,turn⟩ := putChunks_succ ready available eq
    obtain ⟨-,same,available',nonempty⟩ := readChunks_spec available eq
    have bounded := length_got_le available eq
    rw [ends_iff available ready.inside eq] at ends
    rw [left_eq same bounded]
    by_cases more : (m.size + got.length) % 64 = 0 ∧ limit.map (· - got.length) ≠ some 0
    · rw [if_pos more] at ends
      have less : unread.flatten.length + m1.size < chunks.flatten.length + m.size := by
        rw [size,more.1,← same,List.length_append]
        by_contra not
        have empty : got = [] := List.length_eq_zero_iff.mp (by omega)
        have none : m.size = 0 := by omega
        subst empty
        have wanted : 0 < within limit (bufferSize - m.size) := by
          rw [none]
          cases limit with
          | none => decide
          | some l =>
            have positive : l ≠ 0 := fun zero => more.2 (by simp [zero])
            simp only [within,Option.map_some,Option.getD_some,bufferSize]
            omega
        obtain rfl := nonempty rfl wanted
        obtain ⟨-,rfl⟩ := Prod.mk.inj eq
        rcases ends with reached | partly
        · exact more.2 reached
        · exact partly rfl
      have ends' : Ends (limit.map (· - got.length)) m1.size unread := by
        rw [size,more.1]
        exact ends
      obtain ⟨fuel,m',rest,ended,consumed⟩ := ih _ (by omega) after.ready available' ends' rfl
      exact ⟨fuel + 1,m',rest,by rw [turn,if_pos more,ended],consumed⟩
    · rw [if_neg more] at ends
      exact ⟨1,m1,unread,by rw [turn,if_neg more],ends⟩

end

theorem putBlock_mono {fuel : Nat} {m m' : MD5} {block : List UInt8} (ended : m.putBlock fuel block = some m') :
    m.putBlock (fuel + 1) block = some m' := by
  induction fuel generalizing m with
  | zero => simp [MD5.putBlock] at ended
  | succ fuel ih =>
    rw [MD5.putBlock] at ended ⊢
    split at ended
    next more =>
      obtain ⟨buf,copied,ended⟩ := Option.bind_eq_some_iff.mp ended
      obtain ⟨m1,updated,ended⟩ := Option.bind_eq_some_iff.mp ended
      rw [if_pos more,copied,Option.bind_some,updated,Option.bind_some]
      exact ih ended
    next few =>
      rw [if_neg few]
      exact ended

theorem putChunks_mono {fuel : Nat} {limit : Option Nat} {m : MD5} {chunks : List (List UInt8)} {result : MD5 × List (List UInt8)}
    (ended : m.putChunks fuel limit chunks = some result) : m.putChunks (fuel + 1) limit chunks = some result := by
  induction fuel generalizing m limit chunks with
  | zero => simp [MD5.putChunks] at ended
  | succ fuel ih =>
    rw [MD5.putChunks] at ended ⊢
    generalize readChunks chunks (within limit (bufferSize - m.size)) = read at ended ⊢
    obtain ⟨got,rest⟩ := read
    simp only at ended ⊢
    obtain ⟨buf,copied,ended⟩ := Option.bind_eq_some_iff.mp ended
    obtain ⟨m1,updated,ended⟩ := Option.bind_eq_some_iff.mp ended
    rw [copied,Option.bind_some,updated,Option.bind_some]
    split at ended
    next more =>
      rw [if_pos more]
      exact ih ended
    next stop =>
      rw [if_neg stop]
      exact ended

inductive Put
  | block (bytes : List UInt8) (short : bytes.length < 2 ^ 32)
  | stream (from' : InStream)
  | streamMost (from' : InStream) (length : BitVec 32)

def MD5.put (fuel : Nat) (m : MD5) : Put → Option (MD5 × List UInt8)
  | .block bytes _ => (m.putBlock fuel bytes).map fun m => (m,[])
  | .stream from' => (m.putStream fuel from').map fun (m,rest) => (m,rest.flatten)
  | .streamMost from' length => (m.putStreamMost fuel from' length).map fun (m,rest) => (m,rest.flatten)

def Put.input : Put → List UInt8
  | .block bytes _ => bytes
  | .stream from' => taken none from'.chunks
  | .streamMost from' length => taken (some length.toNat) from'.chunks

def Put.unread : Put → List UInt8
  | .block _ _ => []
  | .stream from' => left none from'.chunks
  | .streamMost from' length => left (some length.toNat) from'.chunks

def Consumes (m : MD5) (op : Put) (m' : MD5) : Prop := ∃ fuel, m.put fuel op = some (m',op.unread)

/-- The condition under which it does. -/
def Fits (m : MD5) : Put → Prop
  | .block bytes _ => bytes.length + m.size % 64 ≤ bufferSize
  | .stream from' => Ends none m.size from'.chunks
  | .streamMost from' length => Ends (some length.toNat) m.size from'.chunks

theorem put_mono {fuel fuel' : Nat} {m : MD5} {op : Put} {result : MD5 × List UInt8} (less : fuel ≤ fuel')
    (ended : m.put fuel op = some result) : m.put fuel' op = some result := by
  induction less with
  | refl => exact ended
  | step _ ih =>
    clear ended
    cases op with
    | block bytes short =>
      obtain ⟨m',once,rfl⟩ := Option.map_eq_some_iff.mp ih
      rw [MD5.put,putBlock_mono once]
      rfl
    | stream from' =>
      obtain ⟨m',once,rfl⟩ := Option.map_eq_some_iff.mp ih
      rw [MD5.put,MD5.putStream,putChunks_mono once]
      rfl
    | streamMost from' length =>
      obtain ⟨m',once,rfl⟩ := Option.map_eq_some_iff.mp ih
      rw [MD5.put,MD5.putStreamMost,putChunks_mono once]
      rfl

theorem Consumes.single (m : MD5) (op : Put) (m' m'' : MD5) (first : Consumes m op m') (second : Consumes m op m'') : m' = m'' := by
  obtain ⟨fuel,ended⟩ := first
  obtain ⟨fuel',ended'⟩ := second
  have := put_mono (Nat.le_max_left fuel fuel') ended
  rw [put_mono (Nat.le_max_right fuel fuel') ended'] at this
  exact (Prod.mk.inj (Option.some.inj this)).1.symm

theorem stream_spec {m : MD5} (ready : Ready m) (from' : InStream) (limit : Option Nat) (op : Put)
    (reads : ∀ fuel, m.put fuel op = (m.putChunks fuel limit from'.chunks).map fun (m,rest) => (m,rest.flatten))
    (unread : op.unread = left limit from'.chunks) :
    ((∃ m', Consumes m op m') ↔ Ends limit m.size from'.chunks) ∧ ∀ m', Consumes m op m' → After m (taken limit from'.chunks) m' := by
  have spec (m' : MD5) (consumed : Consumes m op m') : Ends limit m.size from'.chunks ∧ After m (taken limit from'.chunks) m' := by
    obtain ⟨fuel,ended⟩ := consumed
    rw [reads,unread] at ended
    obtain ⟨⟨m1,rest⟩,ended',eq⟩ := Option.map_eq_some_iff.mp ended
    obtain ⟨rfl,consumed⟩ := Prod.mk.inj eq
    exact ends_of_putChunks ready from'.available ended' consumed
  refine ⟨⟨fun ⟨m',consumed⟩ => (spec m' consumed).1,fun ends => ?_⟩,fun m' consumed => (spec m' consumed).2⟩
  obtain ⟨fuel,m',rest,ended,consumed⟩ := putChunks_of_ends ready from'.available ends
  exact ⟨m',fuel,by simp only [reads,ended,Option.map_some,consumed,unread]⟩

theorem consumes_spec {m : MD5} (ready : Ready m) (op : Put) :
    ((∃ m', Consumes m op m') ↔ Fits m op) ∧ ∀ m', Consumes m op m' → After m op.input m' := by
  cases op with
  | block bytes short =>
    by_cases fits : bytes.length + m.size % 64 ≤ bufferSize
    · obtain ⟨m',ended,after⟩ := putBlock_spec ready fits
      have consumed : Consumes m (.block bytes short) m' := ⟨2,by rw [MD5.put,ended]; rfl⟩
      refine ⟨⟨fun _ => fits,fun _ => ⟨m',consumed⟩⟩,fun m'' consumed' => ?_⟩
      obtain rfl := consumed.single m _ m' m'' consumed'
      exact after
    · have never (m' : MD5) : ¬Consumes m (.block bytes short) m' := by
        rintro ⟨fuel,ended⟩
        rw [MD5.put,putBlock_stuck ready short (by omega)] at ended
        simp at ended
      exact ⟨⟨fun ⟨m',consumed⟩ => absurd consumed (never m'),fun fits' => absurd fits' fits⟩,fun m' consumed => absurd consumed (never m')⟩
  | stream from' => exact stream_spec ready from' none (.stream from') (fun _ => rfl) rfl
  | streamMost from' length => exact stream_spec ready from' (some length.toNat) (.streamMost from' length) (fun _ => rfl) rfl

/-- A string followed by the padding, up to a whole number of blocks with its length. -/
def padded (bytes : List UInt8) : List UInt8 :=
  bytes ++ 0x80 :: List.replicate ((119 - bytes.length % 64) % 64) 0 ++ addsize bytes.length.toUInt32

def md5 (bytes : List UInt8) : List UInt8 := (absorb encode 64 (MD5.init []).regs (padded bytes)).1.bytes

theorem ready_init (memory : List UInt8) : Ready (MD5.init memory) :=
  ⟨rfl,List.length_replicate,Nat.zero_le _⟩

theorem memcpy_behind (memory front bytes : List UInt8) (start : memory.take front.length = front)
    (room : front.length + bytes.length ≤ memory.length) :
    ∃ written, memcpy memory front.length bytes = some written ∧ written.length = memory.length ∧
      written.take (front ++ bytes).length = front ++ bytes := by
  obtain ⟨written,copied,length,eq⟩ := memcpy_eq room
  exact ⟨written,copied,length,by rw [List.length_append,eq,start]⟩

theorem memcpy_full (memory front bytes : List UInt8) (start : memory.take front.length = front)
    (full : front.length + bytes.length = memory.length) : memcpy memory front.length bytes = some (front ++ bytes) := by
  rw [memcpy,if_pos (by omega),start,List.drop_eq_nil_of_le (by omega),List.append_nil]

theorem length_padding : padding.length = 64 := by simp [padding]

theorem take_padding {count : Nat} (some : 0 < count) (few : count ≤ 64) : padding.take count = 0x80 :: List.replicate (count - 1) 0 := by
  obtain ⟨n,rfl⟩ : ∃ n, count = n + 1 := ⟨count - 1,by omega⟩
  rw [padding,List.take_succ_cons,List.take_replicate,Nat.min_eq_left (by omega)]
  rfl

theorem digest_spec {m : MD5} (ready : Ready m) (few : m.size < 64) :
    m.digest = some (absorb encode 64 m.regs (m.pending ++ 0x80 :: List.replicate ((119 - m.size) % 64) 0 ++
      addsize (m.bits + m.size.toUInt32))).1.bytes := by
  have pending := ready.length_pending
  rw [MD5.digest,ready.pursued,if_neg Bool.false_ne_true,MD5.finalize]
  have scratch : (List.replicate 64 (0 : UInt8)).length = 64 := List.length_replicate
  obtain ⟨a,first,length,front⟩ := memcpy_behind (List.replicate 64 0) [] m.pending rfl (by rw [pending,scratch,List.length_nil]; omega)
  rw [scratch] at length
  rw [List.nil_append] at front
  rw [List.length_nil,MD5.pending] at first
  by_cases two : 56 < m.size + 1
  · -- a block with the padding, and one of zeros with the length
    have padded : (m.pending ++ padding.take (64 - m.size)).length = 64 := by
      rw [List.length_append,pending,List.length_take,length_padding]
      omega
    have second := memcpy_full a m.pending (padding.take (64 - m.size)) front (by rw [← List.length_append,padded,length])
    rw [pending] at second
    obtain ⟨b,third,length',front'⟩ := memcpy_behind (m.pending ++ padding.take (64 - m.size)) [] (List.replicate 56 0) rfl
      (by rw [padded]; decide)
    rw [padded] at length'
    rw [List.length_nil] at third
    have fourth := memcpy_full b (List.replicate 56 0) (addsize (m.bits + m.size.toUInt32)) front' length'.symm
    rw [List.length_replicate] at fourth
    have blocks : m.pending ++ 0x80 :: List.replicate ((119 - m.size) % 64) 0 ++ addsize (m.bits + m.size.toUInt32) =
        (m.pending ++ padding.take (64 - m.size)) ++ ((List.replicate 56 0 ++ addsize (m.bits + m.size.toUInt32)) ++ []) := by
      have zeros : List.replicate ((119 - m.size) % 64) (0 : UInt8) = List.replicate (64 - m.size - 1) 0 ++ List.replicate 56 0 := by
        rw [← List.replicate_add]
        congr 1
        omega
      rw [zeros,take_padding (by omega) (by omega)]
      simp
    have last : (List.replicate 56 0 ++ addsize (m.bits + m.size.toUInt32)).length = 64 := rfl
    rw [if_pos two,first,Option.bind_some,second,Option.bind_some,third,Option.bind_some,fourth,blocks,absorb_block padded,absorb_block last]
    simp
  · -- one block with both
    have tail : padding.take (56 - m.size) = 0x80 :: List.replicate ((119 - m.size) % 64) 0 := by
      rw [take_padding (by omega) (by omega)]
      congr 2
      omega
    have padded : (m.pending ++ padding.take (56 - m.size)).length = 56 := by
      rw [List.length_append,pending,List.length_take,length_padding]
      omega
    obtain ⟨b,second,length',front'⟩ := memcpy_behind a m.pending (padding.take (56 - m.size)) front
      (by rw [length,← List.length_append,padded]; decide)
    rw [pending] at second
    have third := memcpy_full b (m.pending ++ padding.take (56 - m.size)) (addsize (m.bits + m.size.toUInt32)) front'
      (by rw [padded,length',length]; rfl)
    rw [padded] at third
    have whole : (m.pending ++ padding.take (56 - m.size) ++ addsize (m.bits + m.size.toUInt32)).length = 64 := by
      rw [List.length_append,padded]
      rfl
    rw [if_neg two,first,Option.bind_some,second,Option.bind_some,third,← tail,← List.append_nil (m.pending ++ _ ++ _),absorb_block whole]
    simp

theorem digest_eq_none {m : MD5} (ready : Ready m) (many : 64 < m.size) : m.digest = none := by
  have beyond : memcpy (List.replicate 64 0) 0 (m.buf.take m.size) = none := by
    refine memcpy_eq_none ?_
    rw [← MD5.pending,ready.length_pending,List.length_replicate]
    omega
  rw [MD5.digest,ready.pursued,if_neg Bool.false_ne_true,MD5.finalize,if_pos (by omega),beyond]
  rfl

theorem digest_after {memory bytes : List UInt8} {m : MD5} (after : After (MD5.init memory) bytes m) (few : m.size < 64) :
    m.digest = some (md5 bytes) := by
  obtain ⟨ready,absorbed,counted⟩ := after
  have start : (MD5.init memory).pending = [] := rfl
  have pending := ready.length_pending
  rw [start,List.nil_append,absorb_short (by omega)] at absorbed
  have lengths := @length_left _ _ encode 64 _ (MD5.init memory).regs bytes
  rw [← absorbed,pending] at lengths
  have bits : m.bits + m.size.toUInt32 = bytes.length.toUInt32 := by
    rw [counted]
    simp [MD5.init]
  have left : (absorb encode 64 (MD5.init []).regs bytes) = (m.regs,m.pending) := absorbed.symm
  rw [digest_spec ready few,bits,md5,padded,List.append_assoc bytes,absorb_append _ bytes,left,← lengths,List.append_assoc]

/-- The calls of a run end with their input read exactly when each one meets its condition; and after such a run the
    digest is the one of all the bytes when less than a block is pending, and fails when more than a block is. -/
theorem puts_right_iff (memory : List UInt8) (ops : List Put) :
    ((∃ m, Run Consumes (MD5.init memory) ops m) ↔ Meets Consumes Fits (MD5.init memory) ops) ∧
      ∀ m, Run Consumes (MD5.init memory) ops m →
        (m.size < 64 → m.digest = some (md5 (ops.flatMap Put.input))) ∧ (64 < m.size → m.digest = none) := by
  constructor
  · refine run_iff_meets Consumes.single (fun m op ready => (consumes_spec ready op).1) ?_ (ready_init memory) ops
    intro m op m' ready consumed
    exact ((consumes_spec ready op).2 m' consumed).ready
  · have after (start m : MD5) (ready : Ready start) (run : Run Consumes start ops m) : After start (ops.flatMap Put.input) m := by
      induction ops generalizing start with
      | nil =>
        obtain rfl : m = start := run
        exact ⟨ready,by simp,by simp⟩
      | cons op ops ih =>
        obtain ⟨m1,consumed,rest⟩ := run
        have first := (consumes_spec ready op).2 m1 consumed
        exact first.trans (ih m1 first.ready rest)
    intro m run
    have all := after _ m (ready_init memory) run
    exact ⟨digest_after all,digest_eq_none all.ready⟩

/-- A block of three bytes. -/
theorem puts_right_iff_block : ∃ m, Run Consumes (MD5.init []) [.block [1,2,3] (by decide)] m ∧ m.digest = some (md5 [1,2,3]) := by
  let m : MD5 := {MD5.init [] with buf := [1,2,3] ++ List.replicate 1021 0, size := 3}
  have run : Run Consumes (MD5.init []) [.block [1,2,3] (by decide)] m := ⟨m,⟨1,by decide +kernel⟩,rfl⟩
  exact ⟨m,run,((puts_right_iff [] _).2 m run).1 (by decide)⟩

/-- A block that is too long, a stream of one block of 64 bytes, and a stream that is read in two times; and 64 bytes
    put as a block, to which no padding is added. -/
theorem puts_wrong :
    (∀ m, ¬Consumes (MD5.init []) (.block (List.replicate 1025 0) (by rw [List.length_replicate]; decide)) m) ∧
      (∀ m, ¬Consumes (MD5.init []) (.stream ⟨[List.replicate 64 0],by simp⟩) m) ∧
      (∀ m, ¬Consumes (MD5.init []) (.stream ⟨[[1],[2]],by simp⟩) m) ∧
      ∃ m, Consumes (MD5.init []) (.block (List.replicate 64 0) (by decide)) m ∧ m.digest ≠ some (md5 (List.replicate 64 0)) := by
  have spec (op : Put) (not : ¬Fits (MD5.init []) op) (m : MD5) : ¬Consumes (MD5.init []) op m :=
    fun consumed => not ((consumes_spec (ready_init []) op).1.mp ⟨m,consumed⟩)
  refine ⟨spec _ ?_,spec _ ?_,spec _ ?_,?_⟩
  · rw [Fits,List.length_replicate]
    decide
  · simp [Fits,Ends,MD5.init]
  · simp [Fits,Ends,MD5.init]
  · exact ⟨{MD5.init [] with size := 64},⟨1,by decide +kernel⟩,by decide +kernel⟩

end Otawa.Checksum.Md5
