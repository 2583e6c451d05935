import Otawa.Paged
import Otawa.Runs
import Mathlib.Data.Nat.Digits.Defs
import Mathlib.Logic.Function.Basic

/-!
The two memory modules of the simulators (`lib/fast_mem.c`, `lib/vfast_mem.c`).
Both keep bytes in pages of 4096 that a hash table finds. The first one swaps
the bytes of integers when the host and the target differ, and does not look at
the end of the page of an integer; the second one stores the pages backwards
instead, but reads and writes the integers that are not aligned byte by byte in
the order of the host.
-/
namespace Otawa.GlissMem

open Paged Runs

/-! ### Integers in bytes -/

inductive Endian
  | little
  | big
  deriving DecidableEq

def bytesOf (endian : Endian) (size value : Nat) : List UInt8 :=
  let bytes := (List.range size).map fun i => UInt8.ofNat (value / 256 ^ i)
  match endian with
  | .little => bytes
  | .big => bytes.reverse

def valueOf (endian : Endian) (bytes : List UInt8) : Nat :=
  match endian with
  | .little => Nat.ofDigits 256 (bytes.map UInt8.toNat)
  | .big => Nat.ofDigits 256 (bytes.reverse.map UInt8.toNat)

theorem length_bytesOf (endian : Endian) (size value : Nat) : (bytesOf endian size value).length = size := by
  cases endian <;> simp [bytesOf]

theorem valueOf_swap (host target : Endian) (bytes : List UInt8) :
    valueOf host (if host = target then bytes else bytes.reverse) = valueOf target bytes := by
  cases host <;> cases target <;> simp [valueOf]

theorem bytesOf_swap (host target : Endian) (size value : Nat) :
    (if host = target then bytesOf host size value else (bytesOf host size value).reverse) = bytesOf target size value := by
  cases host <;> cases target <;> simp [bytesOf]

/-- `MEMORY_PAGE_SIZE` and `MEM_PAGE_SIZE`. -/
def pageSize : Nat := 4096

def space : Nat := 2 ^ 32

structure Entry where
  addr : Nat
  storage : Nat

theorem sub_mod_eq (addr : Nat) : addr - addr % pageSize = addr / pageSize * pageSize := by
  have := Nat.div_add_mod addr pageSize
  rw [Nat.mul_comm] at this
  omega

theorem mul_div_pageSize (p : Nat) : p * pageSize / pageSize = p := Nat.mul_div_cancel p (by decide)

theorem find?_entry {entries : List Entry} (p p' b : Nat) :
    (((⟨p * pageSize,b⟩ :: entries : List Entry).find? fun pte => pte.addr == p' * pageSize).map Entry.storage) =
      if p' = p then some b else (entries.find? fun pte => pte.addr == p' * pageSize).map Entry.storage := by
  rw [List.find?_cons]
  by_cases same : p' = p
  · subst same
    simp
  · have other : p * pageSize ≠ p' * pageSize := fun eq => same (Nat.eq_of_mul_eq_mul_right (by decide) eq).symm
    rw [if_neg same,beq_false_of_ne other]

namespace Fast

/-! ### The two levels of `fast_mem` -/

structure Memory where
  primary : Fin 4096 → Option (Fin 16 → List Entry)

def hash1 (addr : Nat) : Fin 4096 := Fin.ofNat 4096 (addr / pageSize)

def hash2 (addr : Nat) : Fin 16 := Fin.ofNat 16 (addr / pageSize / 4096)

/-- `gliss_mem_new` -/
def new : Memory := ⟨fun _ => none⟩

def searchPage (m : Memory) (addr : Nat) : Option Entry :=
  let addr := addr - addr % pageSize
  (m.primary (hash1 addr)).bind fun secondary => (secondary (hash2 addr)).find? fun pte => pte.addr == addr

def secondaryTable (m : Memory) (addr : Nat) : Fin 16 → List Entry := (m.primary (hash1 addr)).getD fun _ => []

def Memory.push (m : Memory) (pte : Entry) : Memory :=
  let secondary := secondaryTable m pte.addr
  let secondary := Function.update secondary (hash2 pte.addr) (pte :: secondary (hash2 pte.addr))
  ⟨Function.update m.primary (hash1 pte.addr) (some secondary)⟩

def getPage (s : State UInt8 Memory) (addr : Nat) : Nat × State UInt8 Memory :=
  let addr := addr - addr % pageSize
  match searchPage s.table addr with
  | some pte => (pte.storage,s)
  | none => (s.heap.length,⟨s.heap ++ [List.replicate pageSize 0],s.table.push ⟨addr,s.heap.length⟩⟩)

def lookup (m : Memory) (p : Nat) : Option Nat := (searchPage m (p * pageSize)).map Entry.storage

theorem searchPage_eq (m : Memory) (p : Nat) :
    searchPage m (p * pageSize) =
      (secondaryTable m (p * pageSize) (hash2 (p * pageSize))).find? fun pte => pte.addr == p * pageSize := by
  rw [searchPage,sub_mod_eq,mul_div_pageSize,secondaryTable]
  cases m.primary (hash1 (p * pageSize)) <;> rfl

theorem getPage_found (s : State UInt8 Memory) (a b : Nat) (found : lookup s.table (a / pageSize) = some b) : getPage s a = (b,s) := by
  obtain ⟨pte,searched,rfl⟩ := Option.map_eq_some_iff.mp found
  simp only [getPage,sub_mod_eq a,searched]

theorem secondaryTable_push (m : Memory) (pte : Entry) (addr : Nat) :
    secondaryTable (m.push pte) addr = if hash1 addr = hash1 pte.addr then
      Function.update (secondaryTable m addr) (hash2 pte.addr) (pte :: secondaryTable m addr (hash2 pte.addr)) else secondaryTable m addr := by
  by_cases same : hash1 addr = hash1 pte.addr
  · simp [secondaryTable,Memory.push,same]
  · simp [secondaryTable,Memory.push,same]

theorem lookup_push (m : Memory) (p q b : Nat) :
    lookup (m.push ⟨p * pageSize,b⟩) q = if q = p then some b else lookup m q := by
  rw [lookup,lookup,searchPage_eq,searchPage_eq,secondaryTable_push]
  by_cases first : hash1 (q * pageSize) = hash1 (p * pageSize)
  · rw [if_pos first]
    by_cases second : hash2 (q * pageSize) = hash2 (p * pageSize)
    · rw [second,Function.update_self,find?_entry]
    · have other : q ≠ p := fun same => second (by rw [same])
      rw [Function.update_of_ne second,if_neg other]
  · have other : q ≠ p := fun same => first (by rw [same])
    rw [if_neg first,if_neg other]

/-- Each entry is in the list of its page, once; and a secondary table has an entry. -/
structure Valid (m : Memory) : Prop where
  placed : ∀ i secondary, m.primary i = some secondary → ∀ j, ∀ pte ∈ secondary j, ∃ p, pte.addr = p * pageSize ∧ hash1 pte.addr = i ∧ hash2 pte.addr = j
  distinct : ∀ i secondary, m.primary i = some secondary → ∀ j, ((secondary j).map Entry.addr).Nodup
  used : ∀ i secondary, m.primary i = some secondary → ∃ j, secondary j ≠ []

theorem valid_new : Valid new := ⟨nofun,nofun,nofun⟩

theorem primary_push {m : Memory} {pte : Entry} {i : Fin 4096} {secondary : Fin 16 → List Entry}
    (here : (m.push pte).primary i = some secondary) :
    i = hash1 pte.addr ∧ secondary = Function.update (secondaryTable m pte.addr) (hash2 pte.addr) (pte :: secondaryTable m pte.addr (hash2 pte.addr)) ∨
      i ≠ hash1 pte.addr ∧ m.primary i = some secondary := by
  by_cases same : i = hash1 pte.addr
  · subst same
    refine .inl ⟨rfl,?_⟩
    simpa [Memory.push] using here.symm
  · refine .inr ⟨same,?_⟩
    simpa [Memory.push,same] using here

theorem mem_secondaryTable {m : Memory} {addr : Nat} {j : Fin 16} {pte : Entry} (member : pte ∈ secondaryTable m addr j) :
    ∃ secondary, m.primary (hash1 addr) = some secondary ∧ secondaryTable m addr = secondary := by
  rw [secondaryTable] at member ⊢
  cases found : m.primary (hash1 addr) with
  | none => simp [found] at member
  | some secondary => exact ⟨secondary,rfl,rfl⟩

theorem Valid.push {m : Memory} {p : Nat} (valid : Valid m) (absent : lookup m p = none) (b : Nat) : Valid (m.push ⟨p * pageSize,b⟩) := by
  have placed (j : Fin 16) (pte : Entry) (member : pte ∈ secondaryTable m (p * pageSize) j) :
      ∃ q, pte.addr = q * pageSize ∧ hash1 pte.addr = hash1 (p * pageSize) ∧ hash2 pte.addr = j := by
    obtain ⟨secondary,found,eq⟩ := mem_secondaryTable member
    exact valid.placed _ secondary found j pte (eq ▸ member)
  have distinct (j : Fin 16) : ((secondaryTable m (p * pageSize) j).map Entry.addr).Nodup := by
    cases found : m.primary (hash1 (p * pageSize)) with
    | none => simp [secondaryTable,found]
    | some secondary =>
      rw [secondaryTable,found]
      exact valid.distinct _ secondary found j
  refine ⟨?_,?_,?_⟩
  · intro i secondary here j pte member
    rcases primary_push here with ⟨rfl,rfl⟩ | ⟨-,old⟩
    · by_cases same : j = hash2 (p * pageSize)
      · subst same
        rw [Function.update_self] at member
        rcases List.mem_cons.mp member with rfl | member
        · exact ⟨p,rfl,rfl,rfl⟩
        · exact placed _ pte member
      · rw [Function.update_of_ne same] at member
        exact placed j pte member
    · exact valid.placed i secondary old j pte member
  · intro i secondary here j
    rcases primary_push here with ⟨rfl,rfl⟩ | ⟨-,old⟩
    · by_cases same : j = hash2 (p * pageSize)
      · subst same
        rw [Function.update_self,List.map_cons,List.nodup_cons]
        refine ⟨?_,distinct _⟩
        intro member
        obtain ⟨pte,member,eq⟩ := List.mem_map.mp member
        rw [lookup,Option.map_eq_none_iff,searchPage_eq,List.find?_eq_none] at absent
        exact absent pte member (beq_iff_eq.mpr eq)
      · rw [Function.update_of_ne same]
        exact distinct j
    · exact valid.distinct i secondary old j
  · intro i secondary here
    rcases primary_push here with ⟨rfl,rfl⟩ | ⟨-,old⟩
    · exact ⟨hash2 (p * pageSize),by rw [Function.update_self]; exact List.cons_ne_nil _ _⟩
    · exact valid.used i secondary old

theorem getPage_new (s : State UInt8 Memory) (a : Nat) (found : lookup s.table (a / pageSize) = none) :
    ∃ table, getPage s a = (s.heap.length,⟨s.heap ++ [List.replicate pageSize 0],table⟩) ∧
      (∀ p, lookup table p = if p = a / pageSize then some s.heap.length else lookup s.table p) ∧ (Valid s.table → Valid table) := by
  have searched := Option.map_eq_none_iff.mp found
  refine ⟨s.table.push ⟨a / pageSize * pageSize,s.heap.length⟩,?_,fun p => lookup_push _ _ p _,fun valid => valid.push found _⟩
  simp only [getPage,sub_mod_eq a,searched]

def paging : Paging UInt8 Memory where
  size := pageSize
  size_pos := by decide
  blank := 0
  Valid := Valid
  lookup := lookup
  getPage := getPage
  getPage_found := getPage_found
  getPage_new := getPage_new

end Fast

namespace Vfast

structure Memory where
  hashtable : Fin 65536 → List Entry

def hash1 (addr : Nat) : Fin 65536 := Fin.ofNat 65536 (addr / pageSize)

/-- `gliss_mem_new` -/
def new : Memory := ⟨fun _ => []⟩

def Memory.append (m : Memory) (entry : Entry) : Memory :=
  ⟨Function.update m.hashtable (hash1 entry.addr) (m.hashtable (hash1 entry.addr) ++ [entry])⟩

def getPage (s : State UInt8 Memory) (addr : Nat) : Nat × State UInt8 Memory :=
  let entries := s.table.hashtable (hash1 addr)
  let addr := addr - addr % pageSize
  match entries.find? fun entry => entry.addr == addr with
  | some entry => (entry.storage,s)
  | none => (s.heap.length,⟨s.heap ++ [List.replicate pageSize 0],s.table.append ⟨addr,s.heap.length⟩⟩)

def lookup (m : Memory) (p : Nat) : Option Nat :=
  ((m.hashtable (hash1 (p * pageSize))).find? fun entry => entry.addr == p * pageSize).map Entry.storage

theorem hash1_page (a : Nat) : hash1 (a / pageSize * pageSize) = hash1 a := by rw [hash1,mul_div_pageSize,hash1]

theorem getPage_found (s : State UInt8 Memory) (a b : Nat) (found : lookup s.table (a / pageSize) = some b) : getPage s a = (b,s) := by
  obtain ⟨entry,searched,rfl⟩ := Option.map_eq_some_iff.mp found
  rw [hash1_page] at searched
  simp only [getPage,sub_mod_eq a,searched]

theorem hashtable_append (m : Memory) (entry : Entry) (i : Fin 65536) :
    (m.append entry).hashtable i = if i = hash1 entry.addr then m.hashtable i ++ [entry] else m.hashtable i := by
  by_cases same : i = hash1 entry.addr
  · simp [Memory.append,same]
  · simp [Memory.append,same]

theorem lookup_append (m : Memory) (p q b : Nat) (absent : lookup m p = none) :
    lookup (m.append ⟨p * pageSize,b⟩) q = if q = p then some b else lookup m q := by
  rw [lookup,hashtable_append]
  by_cases same : q = p
  · subst same
    rw [if_pos rfl,if_pos rfl,List.find?_append,Option.map_eq_none_iff.mp absent]
    simp
  · have other : p * pageSize ≠ q * pageSize := fun eq => same (Nat.eq_of_mul_eq_mul_right (by decide) eq).symm
    rw [if_neg same,lookup]
    split
    · rw [List.find?_append,List.find?_cons,beq_false_of_ne other,List.find?_nil,Option.or_none]
    · rfl

theorem getPage_new (s : State UInt8 Memory) (a : Nat) (found : lookup s.table (a / pageSize) = none) :
    ∃ table, getPage s a = (s.heap.length,⟨s.heap ++ [List.replicate pageSize 0],table⟩) ∧
      ∀ p, lookup table p = if p = a / pageSize then some s.heap.length else lookup s.table p := by
  have searched := Option.map_eq_none_iff.mp found
  rw [hash1_page] at searched
  refine ⟨s.table.append ⟨a / pageSize * pageSize,s.heap.length⟩,?_,fun p => lookup_append _ _ p _ found⟩
  simp only [getPage,sub_mod_eq a,searched]

def paging : Paging UInt8 Memory where
  size := pageSize
  size_pos := by decide
  blank := 0
  Valid := fun _ => True
  lookup := lookup
  getPage := getPage
  getPage_found := getPage_found
  getPage_new := fun s a found => by
    obtain ⟨table,eq,lookups⟩ := getPage_new s a found
    exact ⟨table,eq,lookups,id⟩

end Vfast

namespace Fast

section
variable (host target : Endian)

def write (s : State UInt8 Memory) (a : Nat) (buffer : List UInt8) : Option (State UInt8 Memory) :=
  if 0 < buffer.length then paging.write false space s a buffer else some s

def read (s : State UInt8 Memory) (a size : Nat) : Option (List UInt8 × State UInt8 Memory) :=
  if 0 < size then paging.read false space s a size else some ([],s)

def read8 (s : State UInt8 Memory) (a : Nat) : Option (Nat × State UInt8 Memory) :=
  (paging.load false s a 1).map fun (bytes,s) => (valueOf host bytes,s)

/-- The bytes are read where they are, aligned or not, and exchanged in pairs when the orders differ. -/
def readInt (size : Nat) (s : State UInt8 Memory) (a : Nat) : Option (Nat × State UInt8 Memory) :=
  (paging.load false s a size).map fun (bytes,s) => (valueOf host (if host = target then bytes else bytes.reverse),s)

def read16 := readInt host target 2

def read32 := readInt host target 4

def read64 := readInt host target 8

def write8 (s : State UInt8 Memory) (a value : Nat) : Option (State UInt8 Memory) := paging.store false s a (bytesOf host 1 value)

def writeInt (size : Nat) (s : State UInt8 Memory) (a value : Nat) : Option (State UInt8 Memory) :=
  let bytes := bytesOf host size value
  paging.store false s a (if host = target then bytes else bytes.reverse)

def write16 := writeInt host target 2

def write32 := writeInt host target 4

def write64 := writeInt host target 8

end

end Fast

namespace Vfast

section
variable (host target : Endian)

/-- The pages are stored backwards when the orders differ. -/
def back : Bool := host != target

/-- No result when the assertion on the size fails, or when the counter of the loop on the bytes goes past an `int`. -/
def write (s : State UInt8 Memory) (a : Nat) (buffer : List UInt8) : Option (State UInt8 Memory) :=
  if buffer.length = 0 then
    none
  else if host = target then
    paging.write (back host target) space s a buffer
  else
    let sz := pageSize - a % pageSize
    if sz < buffer.length then
      if 2 ^ 31 ≤ buffer.length then
        none
      else
        let (b,s) := paging.getPage s a
        some (paging.writeBack space s b a sz buffer)
    else
      paging.store (back host target) s a buffer

def read (s : State UInt8 Memory) (a size : Nat) : Option (List UInt8 × State UInt8 Memory) :=
  if size = 0 then
    none
  else if host = target then
    paging.read (back host target) space s a size
  else
    let sz := pageSize - a % pageSize
    if sz < size then
      if 2 ^ 31 ≤ size then
        none
      else
        let (b,s) := paging.getPage s a
        some (paging.readBack space s b a sz size)
    else
      paging.load (back host target) s a size

/-- Neither unaligned nor over the end of the page. -/
def direct (size a : Nat) : Bool := a % pageSize % size == 0 && !(a % pageSize + (size - 1)).testBit 12

/-- The bytes are taken as they are stored, or read as a buffer. -/
def readInt (size : Nat) (s : State UInt8 Memory) (a : Nat) : Option (Nat × State UInt8 Memory) :=
  let (_,s) := paging.getPage s a
  if direct size a then
    (paging.load (back host target) s a size).map fun (bytes,s) => (valueOf host (if host = target then bytes else bytes.reverse),s)
  else
    (read host target s a size).map fun (bytes,s) => (valueOf host bytes,s)

def read8 (s : State UInt8 Memory) (a : Nat) : Option (Nat × State UInt8 Memory) :=
  (paging.load (back host target) s a 1).map fun (bytes,s) => (valueOf host bytes,s)

def read16 := readInt host target 2

def read32 := readInt host target 4

def read64 := readInt host target 8

def writeInt (size : Nat) (s : State UInt8 Memory) (a value : Nat) : Option (State UInt8 Memory) :=
  let (_,s) := paging.getPage s a
  let bytes := bytesOf host size value
  if direct size a then
    paging.store (back host target) s a (if host = target then bytes else bytes.reverse)
  else
    write host target s a bytes

def write8 (s : State UInt8 Memory) (a value : Nat) : Option (State UInt8 Memory) :=
  paging.store (back host target) s a (bytesOf host 1 value)

def write16 := writeInt host target 2

def write32 := writeInt host target 4

def write64 := writeInt host target 8

end

end Vfast

inductive Width
  | byte
  | half
  | word
  | double

def Width.size : Width → Nat
  | byte => 1
  | half => 2
  | word => 4
  | double => 8

inductive Op
  | write (a : Nat) (buffer : List UInt8)
  | read (a size : Nat)
  | writeInt (width : Width) (a value : Nat)
  | readInt (width : Width) (a : Nat)

inductive Answer
  | done
  | buffer (bytes : List UInt8)
  | value (value : Nat)
  deriving DecidableEq

def done {S : Type} (result : Option S) : Option (Answer × S) := result.map fun s => (.done,s)

def buffer {S : Type} (result : Option (List UInt8 × S)) : Option (Answer × S) := result.map fun (bytes,s) => (.buffer bytes,s)

def value {S : Type} (result : Option (Nat × S)) : Option (Answer × S) := result.map fun (v,s) => (.value v,s)

def Fast.step (host target : Endian) (s : State UInt8 Memory) : Op → Option (Answer × State UInt8 Memory)
  | .write a bytes => done (write s a bytes)
  | .read a size => buffer (read s a size)
  | .writeInt .byte a v => done (write8 host s a v)
  | .writeInt .half a v => done (write16 host target s a v)
  | .writeInt .word a v => done (write32 host target s a v)
  | .writeInt .double a v => done (write64 host target s a v)
  | .readInt .byte a => value (read8 host s a)
  | .readInt .half a => value (read16 host target s a)
  | .readInt .word a => value (read32 host target s a)
  | .readInt .double a => value (read64 host target s a)

def Vfast.step (host target : Endian) (s : State UInt8 Memory) : Op → Option (Answer × State UInt8 Memory)
  | .write a bytes => done (write host target s a bytes)
  | .read a size => buffer (read host target s a size)
  | .writeInt .byte a v => done (write8 host target s a v)
  | .writeInt .half a v => done (write16 host target s a v)
  | .writeInt .word a v => done (write32 host target s a v)
  | .writeInt .double a v => done (write64 host target s a v)
  | .readInt .byte a => value (read8 host target s a)
  | .readInt .half a => value (read16 host target s a)
  | .readInt .word a => value (read32 host target s a)
  | .readInt .double a => value (read64 host target s a)

/-- What an array of bytes in the order of the target does. -/
def flatStep (target : Endian) (f : Nat → UInt8) : Op → Answer × (Nat → UInt8)
  | .write a bytes => (.done,overwrite f a bytes)
  | .read a size => (.buffer (slice f a size),f)
  | .writeInt width a v => (.done,overwrite f a (bytesOf target width.size v))
  | .readInt width a => (.value (valueOf target (slice f a width.size)),f)

def InSpace : Op → Prop
  | .write a bytes => a + bytes.length ≤ space
  | .read a size => a + size ≤ space
  | .writeInt width a _ => a + width.size ≤ space
  | .readInt width a => a + width.size ≤ space

def Fast.Fits : Op → Prop
  | .writeInt width a _ => a % pageSize + width.size ≤ pageSize
  | .readInt width a => a % pageSize + width.size ≤ pageSize
  | _ => True

/-- No buffer is empty; and, when the orders differ, integers are aligned and the buffers that go past the end of a
    page have less than 2^31 bytes. -/
def Vfast.Fits (host target : Endian) : Op → Prop
  | .write a bytes => bytes ≠ [] ∧ (host = target ∨ a % pageSize + bytes.length ≤ pageSize ∨ bytes.length < 2 ^ 31)
  | .read a size => size ≠ 0 ∧ (host = target ∨ a % pageSize + size ≤ pageSize ∨ size < 2 ^ 31)
  | .writeInt width a _ => host = target ∨ a % width.size = 0
  | .readInt width a => host = target ∨ a % width.size = 0

/-! ### What they do -/

theorem pageSize_dvd : pageSize ∣ space := by decide

section
variable {M : Type} (P : Paging UInt8 M) (back : Bool) (inside : Prop)

/-- The access is done, as on the array of the table when it is inside the address space. -/
def Wrote (s : State UInt8 M) (a : Nat) (bytes : List UInt8) (result : Option (State UInt8 M)) : Prop :=
  ∃ s', result = some s' ∧ P.Inv s' ∧ (inside → P.flat back s' = overwrite (P.flat back s) a bytes) ∧ P.Extends s s'

def Got {O : Type} (s : State UInt8 M) (expected : O) (result : Option (O × State UInt8 M)) : Prop :=
  ∃ answer s', result = some (answer,s') ∧ P.Inv s' ∧ P.flat back s' = P.flat back s ∧ (inside → answer = expected) ∧ P.Extends s s'

variable {P} {back} {inside} {s s1 : State UInt8 M} {a : Nat}

theorem Wrote.of_store {bytes : List UInt8} (inv : P.Inv s) (room : a % P.size + bytes.length ≤ P.size) :
    Wrote P back inside s a bytes (P.store back s a bytes) := by
  obtain ⟨s',eq,inv',flat,extends'⟩ := P.store_spec back inv a bytes room
  exact ⟨s',eq,inv',fun _ => flat,extends'⟩

theorem Got.of_load {size : Nat} (inv : P.Inv s) (room : a % P.size + size ≤ P.size) :
    Got P back inside s (slice (P.flat back s) a size) (P.load back s a size) := by
  obtain ⟨s',eq,inv',flat,extends'⟩ := P.load_spec back inv a size room
  exact ⟨_,s',eq,inv',flat,fun _ => rfl,extends'⟩

theorem Got.map {O O' : Type} {expected : O} {result : Option (O × State UInt8 M)} (got : Got P back inside s expected result) (f : O → O') :
    Got P back inside s (f expected) (result.map fun (answer,s) => (f answer,s)) := by
  obtain ⟨answer,s',rfl,inv,flat,eq,extends'⟩ := got
  exact ⟨f answer,s',rfl,inv,flat,fun h => congrArg f (eq h),extends'⟩

theorem Wrote.after {bytes : List UInt8} {result : Option (State UInt8 M)} (same : P.flat back s1 = P.flat back s)
    (extended : P.Extends s s1) (wrote : Wrote P back inside s1 a bytes result) : Wrote P back inside s a bytes result := by
  obtain ⟨s',eq,inv,flat,extends'⟩ := wrote
  exact ⟨s',eq,inv,fun h => by rw [flat h,same],extended.trans extends'⟩

theorem Got.after {O : Type} {expected : O} {result : Option (O × State UInt8 M)} (same : P.flat back s1 = P.flat back s)
    (extended : P.Extends s s1) (got : Got P back inside s1 expected result) : Got P back inside s expected result := by
  obtain ⟨answer,s',eq,inv,flat,expect,extends'⟩ := got
  exact ⟨answer,s',eq,inv,flat.trans same,expect,extended.trans extends'⟩

theorem valueOf_one (host target : Endian) (byte : UInt8) : valueOf host [byte] = valueOf target [byte] := by
  cases host <;> cases target <;> rfl

theorem bytesOf_one (host target : Endian) (v : Nat) : bytesOf host 1 v = bytesOf target 1 v := by
  cases host <;> cases target <;> rfl

theorem one_in_page (a : Nat) : a % pageSize + 1 ≤ pageSize := Nat.mod_lt a (by decide)

theorem Got.byte (host target : Endian) {f : Nat → UInt8} {result : Option (List UInt8 × State UInt8 M)}
    (got : Got P back inside s (slice f a 1) result) :
    Got P back inside s (valueOf target (slice f a 1)) (result.map fun (bytes,s) => (valueOf host bytes,s)) := by
  have same : valueOf target (slice f a 1) = valueOf host (slice f a 1) := valueOf_one target host (f (a + 0))
  rw [same]
  exact got.map (valueOf host)

theorem Got.int (host target : Endian) {bytes : List UInt8} {result : Option (List UInt8 × State UInt8 M)}
    (got : Got P back inside s bytes result) :
    Got P back inside s (valueOf target bytes) (result.map fun (bytes,s) => (valueOf host (if host = target then bytes else bytes.reverse),s)) := by
  have := got.map fun bytes => valueOf host (if host = target then bytes else bytes.reverse)
  rwa [valueOf_swap] at this

end

/-- A step does what the array does when it is inside the address space. -/
def Refines {M : Type} (P : Paging UInt8 M) (back : Bool) (target : Endian) (s : State UInt8 M) (op : Op)
    (result : Option (Answer × State UInt8 M)) : Prop :=
  ∃ answer s', result = some (answer,s') ∧ P.Inv s' ∧ P.Extends s s' ∧
    (InSpace op → answer = (flatStep target (P.flat back s) op).1 ∧ P.flat back s' = (flatStep target (P.flat back s) op).2)

section
variable {M : Type} {P : Paging UInt8 M} {back : Bool} {s : State UInt8 M} {target : Endian} {a : Nat}

theorem Wrote.refines_write {bytes : List UInt8} {result : Option (State UInt8 M)} (wrote : Wrote P back (a + bytes.length ≤ space) s a bytes result) :
    Refines P back target s (.write a bytes) (done result) := by
  obtain ⟨s',rfl,inv,flat,extends'⟩ := wrote
  exact ⟨_,s',rfl,inv,extends',fun inside => ⟨rfl,flat inside⟩⟩

theorem Wrote.refines_int {width : Width} {v : Nat} {result : Option (State UInt8 M)}
    (wrote : Wrote P back True s a (bytesOf target width.size v) result) : Refines P back target s (.writeInt width a v) (done result) := by
  obtain ⟨s',rfl,inv,flat,extends'⟩ := wrote
  exact ⟨_,s',rfl,inv,extends',fun _ => ⟨rfl,flat trivial⟩⟩

theorem Got.refines_read {size : Nat} {result : Option (List UInt8 × State UInt8 M)}
    (got : Got P back (a + size ≤ space) s (slice (P.flat back s) a size) result) : Refines P back target s (.read a size) (buffer result) := by
  obtain ⟨answer,s',rfl,inv,flat,eq,extends'⟩ := got
  exact ⟨_,s',rfl,inv,extends',fun inside => ⟨congrArg Answer.buffer (eq inside),flat⟩⟩

theorem Got.refines_int {width : Width} {result : Option (Nat × State UInt8 M)}
    (got : Got P back True s (valueOf target (slice (P.flat back s) a width.size)) result) :
    Refines P back target s (.readInt width a) (value result) := by
  obtain ⟨answer,s',rfl,inv,flat,eq,extends'⟩ := got
  exact ⟨_,s',rfl,inv,extends',fun _ => ⟨congrArg Answer.value (eq trivial),flat⟩⟩

end

namespace Fast

section
variable {host target : Endian} {s : State UInt8 Memory} {a size : Nat}

theorem writeInt_spec (inv : paging.Inv s) (room : a % pageSize + size ≤ pageSize) (v : Nat) :
    Wrote paging false True s a (bytesOf target size v) (writeInt host target size s a v) := by
  simp only [writeInt,bytesOf_swap]
  exact Wrote.of_store inv (by rw [length_bytesOf]; exact room)

theorem writeInt_eq_none (beyond : pageSize < a % pageSize + size) (v : Nat) : writeInt host target size s a v = none := by
  simp only [writeInt,bytesOf_swap]
  exact paging.store_eq_none (by rw [length_bytesOf]; exact beyond)

theorem readInt_spec (inv : paging.Inv s) (room : a % pageSize + size ≤ pageSize) :
    Got paging false True s (valueOf target (slice (paging.flat false s) a size)) (readInt host target size s a) :=
  Got.int host target (Got.of_load inv room)

theorem readInt_eq_none (beyond : pageSize < a % pageSize + size) : readInt host target size s a = none := by
  rw [readInt,paging.load_eq_none beyond]
  rfl

theorem step_spec {op : Op} (inv : paging.Inv s) (fits : Fits op) : Refines paging false target s op (step host target s op) := by
  cases op with
  | write a bytes =>
    refine Wrote.refines_write ?_
    rw [write]
    split
    next some => exact paging.write_spec false pageSize_dvd inv a bytes
    next none =>
      obtain rfl : bytes = [] := List.length_eq_zero_iff.mp (by omega)
      exact ⟨s,rfl,inv,fun _ => (overwrite_nil _ _).symm,.refl⟩
  | read a size =>
    refine Got.refines_read ?_
    rw [read]
    split
    next some => exact paging.read_spec false pageSize_dvd inv a size
    next none =>
      obtain rfl : size = 0 := by omega
      exact ⟨[],s,rfl,inv,rfl,fun _ => rfl,.refl⟩
  | writeInt width a v =>
    cases width with
    | byte =>
      refine Wrote.refines_int ?_
      rw [write8,bytesOf_one host target]
      exact Wrote.of_store inv (by rw [length_bytesOf]; exact one_in_page a)
    | half | word | double => exact Wrote.refines_int (writeInt_spec inv fits v)
  | readInt width a =>
    cases width with
    | byte => exact Got.refines_int (Got.byte host target (Got.of_load inv (one_in_page a)))
    | half | word | double => exact Got.refines_int (readInt_spec inv fits)

theorem step_eq_none {op : Op} (fits : ¬Fits op) : step host target s op = none := by
  cases op with
  | write a bytes => exact absurd trivial fits
  | read a size => exact absurd trivial fits
  | writeInt width a v =>
    have beyond := Nat.lt_of_not_le fits
    cases width with
    | byte => exact absurd (one_in_page a) fits
    | half | word | double => exact congrArg done (writeInt_eq_none beyond v)
  | readInt width a =>
    have beyond := Nat.lt_of_not_le fits
    cases width with
    | byte => exact absurd (one_in_page a) fits
    | half | word | double => exact congrArg value (readInt_eq_none beyond)

end

end Fast

namespace Vfast

section
variable {host target : Endian} {s : State UInt8 Memory} {a size : Nat}

theorem back_eq_true (differ : host ≠ target) : back host target = true := bne_iff_ne.mpr differ

theorem write_spec {bytes : List UInt8} (inv : paging.Inv s) (inside : a + bytes.length ≤ space) (nonempty : bytes ≠ [])
    (fits : host = target ∨ a % pageSize + bytes.length ≤ pageSize ∨ bytes.length < 2 ^ 31) {within : Prop} :
    Wrote paging (back host target) within s a bytes (write host target s a bytes) := by
  have full : bytes.length ≠ 0 := mt List.length_eq_zero_iff.mp nonempty
  have small : a % pageSize < pageSize := Nat.mod_lt a (by decide)
  rw [write,if_neg full]
  by_cases same : host = target
  · rw [if_pos same]
    obtain ⟨s',eq,inv',flat,extends'⟩ := paging.write_spec (back host target) pageSize_dvd inv a bytes
    exact ⟨s',eq,inv',fun _ => flat inside,extends'⟩
  · rw [if_neg same]
    by_cases beyond : pageSize - a % pageSize < bytes.length
    · have few : bytes.length < 2 ^ 31 := by
        rcases fits with equal | within | few
        · exact absurd equal same
        · omega
        · exact few
      obtain ⟨b,s1,eq,inv1,owned,flat1,extends1⟩ := paging.getPage_spec true inv a
      simp only [if_pos beyond,if_neg (Nat.not_le_of_lt few),eq,back_eq_true same]
      obtain ⟨inv2,flat2,extends2⟩ := paging.writeBack_spec inv1 owned inside
      exact ⟨_,rfl,inv2,fun _ => by rw [← flat1]; exact flat2,extends1.trans extends2⟩
    · simp only [if_neg beyond]
      exact Wrote.of_store inv (show a % pageSize + _ ≤ pageSize by omega)

theorem read_spec (inv : paging.Inv s) (inside : a + size ≤ space) (nonempty : size ≠ 0)
    (fits : host = target ∨ a % pageSize + size ≤ pageSize ∨ size < 2 ^ 31) {within : Prop} :
    Got paging (back host target) within s (slice (paging.flat (back host target) s) a size) (read host target s a size) := by
  have small : a % pageSize < pageSize := Nat.mod_lt a (by decide)
  rw [read,if_neg nonempty]
  by_cases same : host = target
  · rw [if_pos same]
    obtain ⟨bytes,s',eq,inv',flat,got,extends'⟩ := paging.read_spec (back host target) pageSize_dvd inv a size
    exact ⟨bytes,s',eq,inv',flat,fun _ => got inside,extends'⟩
  · rw [if_neg same]
    by_cases beyond : pageSize - a % pageSize < size
    · have few : size < 2 ^ 31 := by
        rcases fits with equal | within | few
        · exact absurd equal same
        · omega
        · exact few
      obtain ⟨b,s1,eq,inv1,owned,flat1,extends1⟩ := paging.getPage_spec true inv a
      simp only [if_pos beyond,if_neg (Nat.not_le_of_lt few),eq,back_eq_true same]
      obtain ⟨s2,read,inv2,flat2,extends2⟩ := paging.readBack_spec inv1 owned inside
      rw [flat1] at read
      exact ⟨_,s2,congrArg some read,inv2,flat2.trans flat1,fun _ => rfl,extends1.trans extends2⟩
    · simp only [if_neg beyond]
      exact Got.of_load inv (show a % pageSize + _ ≤ pageSize by omega)

theorem aligned_in_page (divides : size ∣ pageSize) (aligned : a % size = 0) : a % pageSize + size ≤ pageSize := by
  have small : a % pageSize < pageSize := Nat.mod_lt a (by decide)
  have multiple : size ∣ a % pageSize := (Nat.dvd_mod_iff divides).mpr (Nat.dvd_of_mod_eq_zero aligned)
  obtain ⟨m,page⟩ := divides
  obtain ⟨k,offset⟩ := multiple
  rw [offset,page] at small ⊢
  rw [← Nat.mul_add_one]
  exact Nat.mul_le_mul_left size (Nat.lt_of_mul_lt_mul_left small)

theorem direct_eq (divides : size ∣ pageSize) (positive : 0 < size) : direct size a = true ↔ a % size = 0 := by
  rw [direct,Bool.and_eq_true,beq_iff_eq,Nat.mod_mod_of_dvd a divides]
  refine ⟨And.left,fun aligned => ⟨aligned,?_⟩⟩
  have room := aligned_in_page divides aligned
  rw [Nat.testBit_lt_two_pow (show _ < pageSize by omega)]
  rfl

theorem readInt_spec (inv : paging.Inv s) (inside : a + size ≤ space) (divides : size ∣ pageSize) (positive : 0 < size)
    (fits : host = target ∨ a % size = 0) :
    Got paging (back host target) True s (valueOf target (slice (paging.flat (back host target) s) a size)) (readInt host target size s a) := by
  obtain ⟨b,s1,eq,inv1,-,flat1,extends1⟩ := paging.getPage_spec (back host target) inv a
  refine Got.after flat1 extends1 ?_
  simp only [readInt,eq]
  rw [← flat1]
  by_cases aligned : a % size = 0
  · rw [if_pos ((direct_eq divides positive).mpr aligned)]
    exact Got.int host target (Got.of_load inv1 (aligned_in_page divides aligned))
  · have same := fits.resolve_right aligned
    rw [if_neg (mt (direct_eq divides positive).mp aligned),← same]
    subst same
    exact (read_spec inv1 inside (by omega) (.inl rfl)).map (valueOf host)

theorem writeInt_spec (inv : paging.Inv s) (inside : a + size ≤ space) (divides : size ∣ pageSize) (positive : 0 < size)
    (fits : host = target ∨ a % size = 0) (v : Nat) :
    Wrote paging (back host target) True s a (bytesOf target size v) (writeInt host target size s a v) := by
  obtain ⟨b,s1,eq,inv1,-,flat1,extends1⟩ := paging.getPage_spec (back host target) inv a
  refine Wrote.after flat1 extends1 ?_
  simp only [writeInt,eq,bytesOf_swap]
  have length := length_bytesOf target size v
  by_cases aligned : a % size = 0
  · rw [if_pos ((direct_eq divides positive).mpr aligned)]
    exact Wrote.of_store inv1 (by rw [length]; exact aligned_in_page divides aligned)
  · have same := fits.resolve_right aligned
    subst same
    rw [if_neg (mt (direct_eq divides positive).mp aligned)]
    refine write_spec inv1 (by rw [length]; exact inside) ?_ (.inl rfl)
    intro empty
    rw [empty,List.length_nil] at length
    omega

theorem step_spec {op : Op} (inv : paging.Inv s) (inside : InSpace op) (fits : Fits host target op) :
    Refines paging (back host target) target s op (step host target s op) := by
  cases op with
  | write a bytes => exact Wrote.refines_write (write_spec inv inside fits.1 fits.2)
  | read a size => exact Got.refines_read (read_spec inv inside fits.1 fits.2)
  | writeInt width a v =>
    cases width with
    | byte =>
      refine Wrote.refines_int ?_
      rw [write8,bytesOf_one host target]
      exact Wrote.of_store inv (by rw [length_bytesOf]; exact one_in_page a)
    | half | word | double => exact Wrote.refines_int (writeInt_spec inv inside (by decide) (by decide) fits v)
  | readInt width a =>
    cases width with
    | byte => exact Got.refines_int (Got.byte host target (Got.of_load inv (one_in_page a)))
    | half | word | double => exact Got.refines_int (readInt_spec inv inside (by decide) (by decide) fits)

end

end Vfast

def Fast.start : State UInt8 Fast.Memory := ⟨[],Fast.new⟩

def Vfast.start : State UInt8 Vfast.Memory := ⟨[],Vfast.new⟩

theorem Fast.start_spec : Fast.paging.Inv Fast.start ∧ Fast.paging.flat false Fast.start = fun _ => 0 := by
  refine ⟨⟨Fast.valid_new,?_,?_,?_⟩,rfl⟩
  · intro p b owned
    exact absurd owned nofun
  · intro page member
    exact absurd member List.not_mem_nil
  · intro p q b owned
    exact absurd owned nofun

theorem Vfast.start_spec (back : Bool) : Vfast.paging.Inv Vfast.start ∧ Vfast.paging.flat back Vfast.start = fun _ => 0 := by
  refine ⟨⟨trivial,?_,?_,?_⟩,rfl⟩
  · intro p b owned
    exact absurd owned nofun
  · intro page member
    exact absurd member List.not_mem_nil
  · intro p q b owned
    exact absurd owned nofun

/-- For accesses inside the address space, `fast_mem` answers as a flat array exactly when no integer goes past the end
    of its page; `vfast_mem` does when no buffer is empty and, if the orders differ, integers are aligned. -/
theorem memories_right (host target : Endian) (ops : List Op) (inside : ∀ op ∈ ops, InSpace op) :
    (attempts (Fast.step host target) Fast.start ops = some (answers (flatStep target) (fun _ => 0) ops) ↔ ∀ op ∈ ops, Fast.Fits op) ∧
      ((∀ op ∈ ops, Vfast.Fits host target op) →
        attempts (Vfast.step host target) Vfast.start ops = some (answers (flatStep target) (fun _ => 0) ops)) := by
  constructor
  · refine attempts_eq_iff (fun s f => Fast.paging.Inv s ∧ Fast.paging.flat false s = f) ?_ ?_ Fast.start_spec inside
    · rintro s f op ⟨inv,rfl⟩ valid fits
      obtain ⟨answer,s',eq,inv',-,same⟩ := Fast.step_spec inv fits
      obtain ⟨rfl,flat⟩ := same valid
      exact ⟨s',eq,inv',flat⟩
    · rintro s f op - - fits
      exact Fast.step_eq_none fits
  · intro fits
    refine attempts_eq (fun s f => Vfast.paging.Inv s ∧ Vfast.paging.flat (Vfast.back host target) s = f) ?_ (Vfast.start_spec _) inside fits
    rintro s f op ⟨inv,rfl⟩ valid fits
    obtain ⟨answer,s',eq,inv',-,same⟩ := Vfast.step_spec inv valid fits
    obtain ⟨rfl,flat⟩ := same valid
    exact ⟨s',eq,inv',flat⟩

/-- A buffer over the end of a page, and integers of two sizes in it. -/
theorem memories_right_mixed :
    let ops := [Op.write 4094 [1,2,3,4],.readInt .half 4096,.writeInt .word 8 0x01020304,.readInt .byte 9]
    attempts (Fast.step .little .big) Fast.start ops = some (answers (flatStep .big) (fun _ => 0) ops) ∧
      attempts (Vfast.step .little .big) Vfast.start ops = some (answers (flatStep .big) (fun _ => 0) ops) := by
  intro ops
  have inside : ∀ op ∈ ops, InSpace op := by simp [ops,InSpace,space,Width.size]
  have right := memories_right .little .big ops inside
  exact ⟨right.1.mpr (by simp [ops,Fast.Fits,pageSize,Width.size]),right.2 (by simp [ops,Vfast.Fits,pageSize,Width.size])⟩

/-- An integer over the end of a page; one that is not aligned, read back as bytes; and an empty buffer. -/
theorem memories_wrong :
    attempts (Fast.step .little .little) Fast.start [.readInt .word 4094] ≠ some (answers (flatStep .little) (fun _ => 0) [.readInt .word 4094]) ∧
      attempts (Vfast.step .little .big) Vfast.start [.writeInt .word 1 0x01020304,.read 1 4] ≠
        some (answers (flatStep .big) (fun _ => 0) [.writeInt .word 1 0x01020304,.read 1 4]) ∧
      attempts (Vfast.step .little .big) Vfast.start [.write 0 []] ≠ some (answers (flatStep .big) (fun _ => 0) [.write 0 []]) := by
  refine ⟨?_,?_,?_⟩
  · decide +kernel
  · decide +kernel
  · decide +kernel

end Otawa.GlissMem
