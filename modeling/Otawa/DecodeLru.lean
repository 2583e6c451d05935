import Otawa.LinkedList
import Mathlib.Data.List.Perm.Basic
import Mathlib.Data.BitVec

/-!
The LRU decoding cache of gliss: buckets of `CACHE_DEPTH` entries linked from the most to
the least recently used one. A lookup brings the entry of the address to the front, or the
last entry with the address as its new key. The links are right after any calls; the
instructions are not, since without `GLISS_NO_MALLOC` the new instruction is never recorded
in its entry (`right_iff_fresh`).
-/
namespace Otawa.Gliss
open Otawa.LinkedList (Linked)

/-! ### The hash table -/

/-- The width of addresses, `CACHE_SIZE` as a power of two, and `CACHE_DEPTH`, with the
    assertions of `create_hashtable`. -/
structure Geometry where
  width : Nat
  bits : Nat
  depth : Nat
  small : bits < 30
  deep : 2 ≤ depth

namespace Geometry
variable (g : Geometry)

def size : Nat := 2 ^ g.bits

abbrev Address := BitVec g.width

/-- `MODULO(address, CACHE_SIZE)`. -/
def modulo (address : g.Address) : Nat := address.toNat &&& (g.size - 1)

theorem modulo_lt (address : g.Address) : g.modulo address < g.size := by
  rw [modulo,size,Nat.and_two_pow_sub_one_eq_mod]
  exact Nat.mod_lt _ (Nat.two_pow_pos _)

end Geometry

variable {g : Geometry} {V : Type}

/-- `entry_t`; an entry points to another one by its place in `entry_tab`. -/
structure Entry (g : Geometry) (V : Type) where
  key : g.Address
  value : V
  next : Option Nat

/-- `hashtable_t`. -/
structure Hashtable (g : Geometry) (V : Type) where
  entryTab : Nat → Entry g V
  table : Nat → Nat

namespace Hashtable
variable (h : Hashtable g V)

def key (x : Nat) : g.Address := (h.entryTab x).key
def value (x : Nat) : V := (h.entryTab x).value
def next (x : Nat) : Option Nat := (h.entryTab x).next

def setKey (x : Nat) (key : g.Address) : Hashtable g V :=
  { h with entryTab := Function.update h.entryTab x { h.entryTab x with key := key } }
def setValue (x : Nat) (value : V) : Hashtable g V :=
  { h with entryTab := Function.update h.entryTab x { h.entryTab x with value := value } }
def setNext (x : Nat) (next : Option Nat) : Hashtable g V :=
  { h with entryTab := Function.update h.entryTab x { h.entryTab x with next := next } }
def setHead (hash x : Nat) : Hashtable g V := { h with table := Function.update h.table hash x }

variable {h} {x : Nat}

private theorem update_field {F : Type} (field : Entry g V → F) (e : Entry g V) :
    (fun y => field (Function.update h.entryTab x e y)) =
      Function.update (fun y => field (h.entryTab y)) x (field e) := by
  funext y
  by_cases same : y = x
  · subst same; simp
  · simp [Function.update_of_ne same]

@[simp] theorem key_setKey (k : g.Address) : (h.setKey x k).key = Function.update h.key x k := update_field (·.key) _
@[simp] theorem value_setKey (k : g.Address) : (h.setKey x k).value = h.value :=
  (update_field (·.value) _).trans (Function.update_eq_self x h.value)
@[simp] theorem next_setKey (k : g.Address) : (h.setKey x k).next = h.next :=
  (update_field (·.next) _).trans (Function.update_eq_self x h.next)
@[simp] theorem table_setKey (k : g.Address) : (h.setKey x k).table = h.table := rfl

@[simp] theorem key_setValue (v : V) : (h.setValue x v).key = h.key :=
  (update_field (·.key) _).trans (Function.update_eq_self x h.key)
@[simp] theorem value_setValue (v : V) : (h.setValue x v).value = Function.update h.value x v := update_field (·.value) _
@[simp] theorem next_setValue (v : V) : (h.setValue x v).next = h.next :=
  (update_field (·.next) _).trans (Function.update_eq_self x h.next)
@[simp] theorem table_setValue (v : V) : (h.setValue x v).table = h.table := rfl

@[simp] theorem key_setNext (n : Option Nat) : (h.setNext x n).key = h.key :=
  (update_field (·.key) _).trans (Function.update_eq_self x h.key)
@[simp] theorem value_setNext (n : Option Nat) : (h.setNext x n).value = h.value :=
  (update_field (·.value) _).trans (Function.update_eq_self x h.value)
@[simp] theorem next_setNext (n : Option Nat) : (h.setNext x n).next = Function.update h.next x n := update_field (·.next) _
@[simp] theorem table_setNext (n : Option Nat) : (h.setNext x n).table = h.table := rfl

@[simp] theorem key_setHead (hash : Nat) : (h.setHead hash x).key = h.key := rfl
@[simp] theorem value_setHead (hash : Nat) : (h.setHead hash x).value = h.value := rfl
@[simp] theorem next_setHead (hash : Nat) : (h.setHead hash x).next = h.next := rfl
@[simp] theorem table_setHead (hash : Nat) : (h.setHead hash x).table = Function.update h.table hash x := rfl

end Hashtable

/-- `create_hashtable`: the entries of a bucket follow one another, the last one has no
    link, and every key is -1. -/
def createHashtable (g : Geometry) (value : V) : Hashtable g V where
  entryTab x := ⟨BitVec.allOnes g.width,value,if x % g.depth < g.depth - 1 then some (x + 1) else none⟩
  table i := i * g.depth

/-- The loop of `cache_lookup` with the turns left, then its handling of the last entry;
    `none` for a null link. -/
def lookupLoop (address : g.Address) (hash init : Nat) : Nat → Nat → Option Nat → Hashtable g V →
    Option (Bool × Nat × Hashtable g V)
  | 0, _, current, h => do
    let current ← current
    let h := (h.setNext current (some init)).setHead hash current
    if address = h.key current then some (true,current,h)
    else some (false,current,h.setKey current address)
  | i + 1, prev, current, h => do
    let current ← current
    if address = h.key current then
      some (true,current,((h.setNext prev (h.next current)).setNext current (some init)).setHead hash current)
    else lookupLoop address hash init i current (h.next current) h

/-- `cache_lookup`: whether the address was found, and its entry. -/
def cacheLookup (h : Hashtable g V) (address : g.Address) : Option (Bool × Nat × Hashtable g V) :=
  let hash := g.modulo address
  let init := h.table hash
  if address = h.key init then some (true,init,h)
  else lookupLoop address hash init (g.depth - 2) init (h.next init) h

/-! ### The lists of the buckets -/

structure Looked (h h' : Hashtable g V) (address : g.Address) (cells : List Nat) (found : Bool) (e : Nat) : Prop where
  mem : e ∈ cells
  linked : Linked h'.next (e :: cells.erase e)
  table : h'.table = Function.update h.table (g.modulo address) e
  value : h'.value = h.value
  key : h'.key = Function.update h.key e address
  next : ∀ x, x ∉ cells → h'.next x = h.next x
  hit : found = true → h.key e = address
  missed : found = false → ∀ x ∈ cells, h.key x ≠ address

private theorem erase_second {before after : List Nat} {prev current : Nat}
    (nodup : (before ++ prev :: current :: after).Nodup) :
    (before ++ prev :: current :: after).erase current = before ++ prev :: after := by
  obtain ⟨_,rest,apart⟩ := List.nodup_append.mp nodup
  have other : prev ≠ current := fun same => (List.nodup_cons.mp rest).1 (same ▸ List.mem_cons_self ..)
  have fresh : current ∉ before := fun member => apart current member current (by simp) rfl
  rw [List.erase_append_right _ fresh,List.erase_cons_tail (by simpa using other),List.erase_cons_head]

private theorem lookupLoop_spec {address : g.Address} {h : Hashtable g V} {init : Nat} (i : Nat) {before after : List Nat}
    {prev current : Nat} (linked : Linked h.next (before ++ prev :: current :: after))
    (nodup : (before ++ prev :: current :: after).Nodup) (head : (before ++ [prev]).head? = some init)
    (turns : after.length = i) (passed : ∀ x ∈ before ++ [prev], h.key x ≠ address) :
    ∃ found e h', lookupLoop address (g.modulo address) init i prev (some current) h = some (found,e,h') ∧
      Looked h h' address (before ++ prev :: current :: after) found e := by
  induction i generalizing before prev current after with
  | zero =>
    obtain rfl := List.length_eq_zero_iff.mp turns
    have member : current ∈ before ++ [prev,current] := by simp
    have moved := Linked.move_last linked nodup head
    rw [← erase_second nodup] at moved
    have elsewhere : ∀ x, x ∉ before ++ [prev,current] → Function.update h.next current (some init) x = h.next x :=
      fun x absent => Function.update_of_ne (ne_of_mem_of_not_mem member absent).symm ..
    by_cases same : address = h.key current
    · refine ⟨true,current,(h.setNext current (some init)).setHead (g.modulo address) current,by simp [lookupLoop,same],
        member,by simpa using moved,by simp,by simp,by simp [same],by simpa using elsewhere,fun _ => same.symm,
        fun missed => nomatch missed⟩
    · refine ⟨false,current,((h.setNext current (some init)).setHead (g.modulo address) current).setKey current address,
        by simp [lookupLoop,same],member,by simpa using moved,by simp,by simp,by simp,by simpa using elsewhere,
        (fun found => nomatch found),fun _ x inside => ?_⟩
      have split : before ++ [prev,current] = before ++ [prev] ++ [current] := by simp
      rw [split,List.mem_append,List.mem_singleton] at inside
      rcases inside with inside | rfl
      · exact passed x inside
      · exact Ne.symm same
  | succ i ih =>
    by_cases same : address = h.key current
    · have moved := Linked.move_front linked nodup head
      rw [← erase_second nodup] at moved
      refine ⟨true,current,((h.setNext prev (h.next current)).setNext current (some init)).setHead (g.modulo address) current,
        by simp [lookupLoop,same],by simp,by simpa using moved,by simp,by simp,by simp [same],?_,
        fun _ => same.symm,fun missed => nomatch missed⟩
      intro x absent
      rw [List.mem_append,List.mem_cons,List.mem_cons,not_or,not_or,not_or] at absent
      simp [Function.update_of_ne absent.2.1,Function.update_of_ne absent.2.2.1]
    · obtain ⟨following,later,rfl⟩ := List.exists_cons_of_length_eq_add_one turns
      have shifted : before ++ prev :: current :: following :: later =
          (before ++ [prev]) ++ current :: following :: later := by simp
      have link : h.next current = some following := by
        rw [shifted] at linked
        exact (List.isChain_cons_cons.mp (List.IsChain.right_of_append linked)).1
      rw [shifted] at linked nodup ⊢
      obtain ⟨found,e,h',looked,spec⟩ := ih linked nodup (by cases before <;> simpa using head) (by simpa using turns) (by
        intro x inside
        rw [List.mem_append,List.mem_singleton] at inside
        rcases inside with inside | rfl
        · exact passed x inside
        · exact Ne.symm same)
      refine ⟨found,e,h',?_,spec⟩
      rw [← looked,← link]
      simp [lookupLoop,same]

structure Bucket (h : Hashtable g V) (i : Nat) (cells : List Nat) : Prop where
  same : cells.Perm (List.range' (i * g.depth) g.depth)
  linked : Linked h.next cells
  head : cells.head? = some (h.table i)

theorem Bucket.nodup {h : Hashtable g V} {i : Nat} {cells : List Nat} (bucket : Bucket h i cells) : cells.Nodup :=
  bucket.same.nodup_iff.mpr List.nodup_range'

theorem Bucket.mem_iff {h : Hashtable g V} {i x : Nat} {cells : List Nat} (bucket : Bucket h i cells) :
    x ∈ cells ↔ x / g.depth = i := by
  have deep := g.deep
  rw [bucket.same.mem_iff,List.mem_range'_1,Nat.div_eq_iff (by omega)]
  constructor <;> rintro ⟨_,_⟩ <;> constructor <;> rw [mul_comm i] at * <;> omega

theorem cacheLookup_spec {h : Hashtable g V} {address : g.Address} {cells : List Nat}
    (bucket : Bucket h (g.modulo address) cells) :
    ∃ found e h', cacheLookup h address = some (found,e,h') ∧ Looked h h' address cells found e := by
  have deep := g.deep
  have length : cells.length = g.depth := by rw [bucket.same.length_eq,List.length_range']
  obtain ⟨init,current,after,rfl⟩ : ∃ init current after, cells = init :: current :: after := by
    match cells,length with
    | [],length | [_],length => exact absurd length (by simp; omega)
    | init :: current :: after,_ => exact ⟨init,current,after,rfl⟩
  have head : h.table (g.modulo address) = init := by simpa using bucket.head.symm
  by_cases same : address = h.key init
  · refine ⟨true,init,h,by simp only [cacheLookup,head]; rw [if_pos same],by simp,by simpa using bucket.linked,?_,rfl,?_,fun _ _ => rfl,
      fun _ => same.symm,fun missed => nomatch missed⟩
    · rw [← head,Function.update_eq_self]
    · rw [same,Function.update_eq_self]
  · have link : h.next init = some current := (List.isChain_cons_cons.mp bucket.linked).1
    obtain ⟨found,e,h',looked,spec⟩ := lookupLoop_spec (g.depth - 2) (show Linked h.next ([] ++ init :: current :: after) from bucket.linked) bucket.nodup rfl
      (by simp at length; omega) (by simpa using Ne.symm same)
    refine ⟨found,e,h',?_,spec⟩
    rw [← looked,← link]
    simp [cacheLookup,head,same]

/-- From the most to the least recently used entry, with the entries of the calls so far,
    the last call first. -/
def Recent (used : List Nat) (cells : List Nat) : Prop := cells.Pairwise fun x y => used.idxOf x ≤ used.idxOf y

def Ordered (h : Hashtable g V) (used : List Nat) : Prop :=
  ∀ i, i < g.size → ∃ cells, Bucket h i cells ∧ Recent used cells

private theorem range'_linked (next : Nat → Option Nat) (s n : Nat)
    (links : ∀ x, s ≤ x → x + 1 < s + n → next x = some (x + 1)) : Linked next (List.range' s n) := by
  induction n generalizing s with
  | zero => exact .nil
  | succ n ih =>
    rw [List.range'_succ]
    refine List.IsChain.cons (ih (s + 1) fun x low high => links x (by omega) (by omega)) fun y member => ?_
    cases n with
    | zero => simp at member
    | succ n =>
      obtain rfl : s + 1 = y := by simpa [List.range'_succ] using member
      exact links s le_rfl (by omega)

theorem createHashtable_ordered (g : Geometry) (value : V) : Ordered (createHashtable g value) [] := by
  intro i _
  have deep := g.deep
  refine ⟨List.range' (i * g.depth) g.depth,⟨.refl _,range'_linked _ _ _ fun x low high => ?_,?_⟩,?_⟩
  · have inner : x % g.depth < g.depth - 1 := by
      obtain ⟨k,rfl⟩ := Nat.exists_eq_add_of_le low
      rw [mul_comm,Nat.mul_add_mod,Nat.mod_eq_of_lt (by omega)]
      omega
    exact if_pos inner
  · obtain ⟨n,depth⟩ : ∃ n, g.depth = n + 1 := ⟨g.depth - 1,by omega⟩
    rw [depth,List.range'_succ]
    simp [createHashtable,depth]
  · exact List.pairwise_of_forall fun _ _ => by simp

theorem Looked.ordered {h h' : Hashtable g V} {address : g.Address} {used cells : List Nat} {found : Bool} {e : Nat}
    (ordered : Ordered h used) (bucket : Bucket h (g.modulo address) cells) (recent : Recent used cells)
    (looked : Looked h h' address cells found e) : Ordered h' (e :: used) := by
  intro i bound
  by_cases same : i = g.modulo address
  · subst same
    refine ⟨e :: cells.erase e,⟨(List.perm_cons_erase looked.mem).symm.trans bucket.same,looked.linked,?_⟩,?_⟩
    · rw [looked.table,Function.update_self,List.head?_cons]
    · refine List.pairwise_cons.mpr ⟨fun x _ => by simp,?_⟩
      refine (recent.sublist List.erase_sublist).imp_of_mem fun {x y} memberX memberY before => ?_
      have otherX := ((bucket.nodup.mem_erase_iff).mp memberX).1
      have otherY := ((bucket.nodup.mem_erase_iff).mp memberY).1
      rw [List.idxOf_cons_ne _ (Ne.symm otherX),List.idxOf_cons_ne _ (Ne.symm otherY)]
      omega
  · obtain ⟨others,bucket',recent'⟩ := ordered i bound
    have apart : ∀ x ∈ others, x ∉ cells := fun x here there =>
      same ((bucket'.mem_iff.mp here).symm.trans (bucket.mem_iff.mp there))
    refine ⟨others,⟨bucket'.same,bucket'.linked.congr fun x here => looked.next x (apart x here),?_⟩,?_⟩
    · rw [looked.table,Function.update_of_ne same]
      exact bucket'.head
    · refine recent'.imp_of_mem fun {x y} here here' before => ?_
      have other {x : Nat} (here : x ∈ others) : e ≠ x := fun same => apart x here (same ▸ looked.mem)
      rw [List.idxOf_cons_ne _ (other here),List.idxOf_cons_ne _ (other here')]
      omega

/-- The generated part of the decoder: the identifier and the word of the instruction at an
    address of the unchanged memory, and the parameters that a decoding function extracts. -/
structure Isa (g : Geometry) (Ident Code Params : Type) where
  fetch : g.Address → Ident × Code
  decodeTable : Ident → Code → Params

/-- `inst_t`. -/
structure Inst (g : Geometry) (Ident Params : Type) where
  ident : Ident
  params : Params
  addr : g.Address

variable {Ident Code Params : Type} (isa : Isa g Ident Code Params)

/-- `decode` without a cache. -/
def directDecode (address : g.Address) : Inst g Ident Params :=
  let (id,code) := isa.fetch address
  ⟨id,isa.decodeTable id code,address⟩

/-- `decode` with GLISS_NO_MALLOC: entries hold their instruction, `none` as long as it is
    not initialized. The result points to an entry. -/
def decodeNoMalloc (h : Hashtable g (Option (Inst g Ident Params))) (address : g.Address) :
    Option (Nat × Hashtable g (Option (Inst g Ident Params))) := do
  let (found,res,h) ← cacheLookup h address
  if found then some (res,h)
  else
    let (id,code) := isa.fetch address
    some (res,h.setValue res (some ⟨id,isa.decodeTable id code,address⟩))

/-- The allocated instructions, `none` once freed. -/
abbrev Heap (g : Geometry) (Ident Params : Type) := List (Option (Inst g Ident Params))

/-- `free`; it fails on what is not allocated. -/
def free (heap : Heap g Ident Params) : Option Nat → Option (Heap g Ident Params)
  | none => some heap
  | some p =>
    match heap[p]? with
    | some (some _) => some (heap.set p none)
    | _ => none

/-- The cache without GLISS_NO_MALLOC: entries hold a pointer to an instruction. -/
structure PointerCache (g : Geometry) (Ident Params : Type) where
  hashtable : Hashtable g (Option Nat)
  heap : Heap g Ident Params

/-- `decode` without GLISS_NO_MALLOC. -/
def decodeMalloc (s : PointerCache g Ident Params) (address : g.Address) :
    Option (Option Nat × PointerCache g Ident Params) := do
  let (found,e,h) ← cacheLookup s.hashtable address
  let res := h.value e
  if found then some (res,⟨h,s.heap⟩)
  else
    let (id,code) := isa.fetch address
    let tmp := s.heap.length
    let heap ← free (s.heap ++ [some ⟨id,isa.decodeTable id code,address⟩]) res
    some (some tmp,⟨h,heap⟩)

structure Call (S R A : Type) where
  before : S
  address : A
  result : R
  after : S

def calls {S R A : Type} (decode : S → A → Option (R × S)) (s : S) : List A → Option (List (Call S R A) × S)
  | [] => some ([],s)
  | address :: rest => do
    let (result,after) ← decode s address
    let (later,last) ← calls decode after rest
    some (⟨s,address,result,after⟩ :: later,last)

/-- The entries of the calls, the last one first: the head of the bucket after each call. -/
def usedBy {S R : Type} (tab : S → Hashtable g V) (log : List (Call S R g.Address)) : List Nat :=
  (log.map fun c => (tab c.after).table (g.modulo c.address)).reverse

theorem calls_spec {S R : Type} {decode : S → g.Address → Option (R × S)} (tab : S → Hashtable g V)
    (inv : S → List Nat → Prop) (right : Call S R g.Address → Prop)
    (step : ∀ s used address, inv s used → ∃ result after, decode s address = some (result,after) ∧
      inv after ((tab after).table (g.modulo address) :: used) ∧ right ⟨s,address,result,after⟩)
    (addresses : List g.Address) : ∀ s used, inv s used →
      ∃ log last, calls decode s addresses = some (log,last) ∧ inv last (usedBy tab log ++ used) ∧ ∀ c ∈ log, right c := by
  induction addresses with
  | nil => exact fun s used holds => ⟨[],s,rfl,holds,fun _ member => nomatch member⟩
  | cons address rest ih =>
    intro s used holds
    obtain ⟨result,after,decoded,kept,correct⟩ := step s used address holds
    obtain ⟨later,last,ran,final,all⟩ := ih after _ kept
    refine ⟨⟨s,address,result,after⟩ :: later,last,by simp [calls,decoded,ran],?_,?_⟩
    · simpa [usedBy] using final
    · intro c member
      rcases List.mem_cons.mp member with rfl | member
      · exact correct
      · exact all c member

namespace Call

def Right (c : Call (Hashtable g (Option (Inst g Ident Params))) Nat g.Address) : Prop :=
  c.after.value c.result = some (directDecode isa c.address)

def Fresh (c : Call (Hashtable g (Option (Inst g Ident Params))) Nat g.Address) : Prop :=
  c.address = BitVec.allOnes g.width → ∀ x, x / g.depth = g.modulo c.address → c.before.value x ≠ none

def RightPointer (c : Call (PointerCache g Ident Params) (Option Nat) g.Address) : Prop :=
  ∃ p, c.result = some p ∧ c.after.heap[p]? = some (some (directDecode isa c.address))

def Absent (c : Call (PointerCache g Ident Params) (Option Nat) g.Address) : Prop :=
  ∀ x, x / g.depth = g.modulo c.address → c.before.hashtable.key x ≠ c.address

end Call

private structure Recorded (h : Hashtable g (Option (Inst g Ident Params))) (used : List Nat) : Prop where
  ordered : Ordered h used
  unused : ∀ x, h.value x = none → h.key x = BitVec.allOnes g.width
  right : ∀ x inst, h.value x = some inst → inst = directDecode isa (h.key x)
  full : ∀ x y, x / g.depth = y / g.depth → h.value y ≠ none → h.key y = BitVec.allOnes g.width → h.value x ≠ none

private theorem decodeNoMalloc_step (h : Hashtable g (Option (Inst g Ident Params))) (used : List Nat) (address : g.Address)
    (recorded : Recorded isa h used) :
    ∃ result after, decodeNoMalloc isa h address = some (result,after) ∧
      Recorded isa after (after.table (g.modulo address) :: used) ∧
      (Call.Right isa ⟨h,address,result,after⟩ ↔ Call.Fresh ⟨h,address,result,after⟩) := by
  obtain ⟨cells,bucket,recent⟩ := recorded.ordered _ (g.modulo_lt address)
  obtain ⟨found,e,h',looked,spec⟩ := cacheLookup_spec bucket
  have place : e / g.depth = g.modulo address := bucket.mem_iff.mp spec.mem
  have head : h'.table (g.modulo address) = e := by rw [spec.table,Function.update_self]
  have ordered := spec.ordered recorded.ordered bucket recent
  cases found with
  | true =>
    have key := spec.hit rfl
    have keys : h'.key = h.key := by rw [spec.key,← key,Function.update_eq_self]
    refine ⟨e,h',by simp [decodeNoMalloc,looked],⟨head ▸ ordered,?_,?_,?_⟩,?_⟩
    · rw [spec.value,keys]; exact recorded.unused
    · rw [spec.value,keys]; exact recorded.right
    · rw [spec.value,keys]; exact recorded.full
    · show h'.value e = _ ↔ (address = _ → ∀ x, x / g.depth = g.modulo address → h.value x ≠ none)
      rw [spec.value]
      cases value : h.value e with
      | none =>
        refine iff_of_false (fun same => nomatch same) fun fresh => ?_
        exact fresh (key ▸ recorded.unused e value) e place value
      | some inst =>
        refine iff_of_true (by rw [recorded.right e inst value,key]) fun ones x inside => ?_
        exact recorded.full x e (inside.trans place.symm) (by simp [value]) (key.trans ones)
  | false =>
    have missed {x : Nat} (inside : x / g.depth = g.modulo address) : h.key x ≠ address :=
      spec.missed rfl x (bucket.mem_iff.mpr inside)
    refine ⟨e,h'.setValue e (some (directDecode isa address)),by simp [decodeNoMalloc,looked,directDecode],
      ⟨?_,?_,?_,?_⟩,?_⟩
    · have links : Ordered (h'.setValue e (some (directDecode isa address))) (e :: used) := by
        intro i bound
        obtain ⟨cells,bucket,recent⟩ := ordered i bound
        exact ⟨cells,⟨bucket.same,by simpa using bucket.linked,by simpa using bucket.head⟩,recent⟩
      simpa [head] using links
    · intro x value
      by_cases same : x = e
      · subst same; simp at value
      · rw [Hashtable.value_setValue,Function.update_of_ne same,spec.value] at value
        rw [Hashtable.key_setValue,spec.key,Function.update_of_ne same]
        exact recorded.unused x value
    · intro x inst value
      by_cases same : x = e
      · subst same
        rw [Hashtable.value_setValue,Function.update_self] at value
        rw [Hashtable.key_setValue,spec.key,Function.update_self]
        exact (Option.some.inj value).symm
      · rw [Hashtable.value_setValue,Function.update_of_ne same,spec.value] at value
        rw [Hashtable.key_setValue,spec.key,Function.update_of_ne same]
        exact recorded.right x inst value
    · intro x y place' value ones
      by_cases sameX : x = e
      · subst sameX; simp
      rw [Hashtable.value_setValue,Function.update_of_ne sameX,spec.value]
      by_cases sameY : y = e
      · subst sameY
        rw [Hashtable.key_setValue,spec.key,Function.update_self] at ones
        intro none
        exact missed (place'.trans place) ((recorded.unused x none).trans ones.symm)
      · rw [Hashtable.value_setValue,Function.update_of_ne sameY,spec.value] at value
        rw [Hashtable.key_setValue,spec.key,Function.update_of_ne sameY] at ones
        exact recorded.full x y place' value ones
    · refine iff_of_true ?_ fun ones x inside none => ?_
      · show (h'.setValue e _).value e = _
        rw [Hashtable.value_setValue,Function.update_self]
      · exact missed inside ((recorded.unused x none).trans ones.symm)

/-- What the calls keep without GLISS_NO_MALLOC: no entry ever gets an instruction. -/
private structure Unrecorded (s : PointerCache g Ident Params) (used : List Nat) : Prop where
  ordered : Ordered s.hashtable used
  null : ∀ x, s.hashtable.value x = none

private theorem decodeMalloc_step (s : PointerCache g Ident Params) (used : List Nat) (address : g.Address)
    (unrecorded : Unrecorded s used) :
    ∃ result after, decodeMalloc isa s address = some (result,after) ∧
      Unrecorded after (after.hashtable.table (g.modulo address) :: used) ∧
      (Call.RightPointer isa ⟨s,address,result,after⟩ ↔ Call.Absent ⟨s,address,result,after⟩) := by
  obtain ⟨cells,bucket,recent⟩ := unrecorded.ordered _ (g.modulo_lt address)
  obtain ⟨found,e,h',looked,spec⟩ := cacheLookup_spec bucket
  have head : h'.table (g.modulo address) = e := by rw [spec.table,Function.update_self]
  have ordered := head.symm ▸ spec.ordered unrecorded.ordered bucket recent
  have null : ∀ x, h'.value x = none := by rw [spec.value]; exact unrecorded.null
  cases found with
  | true =>
    refine ⟨none,⟨h',s.heap⟩,by simp [decodeMalloc,looked,null],⟨ordered,null⟩,?_⟩
    refine iff_of_false (fun ⟨_,same,_⟩ => nomatch same) fun absent => ?_
    exact absent e (bucket.mem_iff.mp spec.mem) (spec.hit rfl)
  | false =>
    refine ⟨some s.heap.length,⟨h',s.heap ++ [some (directDecode isa address)]⟩,
      by simp [decodeMalloc,looked,null,free,directDecode],⟨ordered,null⟩,?_⟩
    refine iff_of_true ⟨_,rfl,by simp⟩ fun x inside => ?_
    exact spec.missed rfl x (bucket.mem_iff.mpr inside)

/-- Calls never fail on a link and keep the buckets in the order of use. With
    GLISS_NO_MALLOC the instruction is right unless an unused entry answers for the address
    -1; without it only on a miss, since the entry keeps its null pointer. -/
theorem right_iff_fresh (g : Geometry) {Ident Code Params : Type} (isa : Isa g Ident Code Params) (addresses : List g.Address) :
    (∃ log last, calls (decodeNoMalloc isa) (createHashtable g none) addresses = some (log,last) ∧
      Ordered last (usedBy id log) ∧ ∀ c ∈ log, Call.Right isa c ↔ Call.Fresh c) ∧
    ∃ log last, calls (decodeMalloc isa) ⟨createHashtable g none,[]⟩ addresses = some (log,last) ∧
      Ordered last.hashtable (usedBy PointerCache.hashtable log) ∧ ∀ c ∈ log, Call.RightPointer isa c ↔ Call.Absent c := by
  constructor
  · obtain ⟨log,last,ran,recorded,right⟩ := calls_spec id (Recorded isa)
      (fun c => Call.Right isa c ↔ Call.Fresh c) (decodeNoMalloc_step isa) addresses
      (createHashtable g none) [] ⟨createHashtable_ordered g none,fun _ _ => rfl,fun _ _ value => (nomatch value),
        fun _ _ _ value => absurd rfl value⟩
    exact ⟨log,last,ran,by simpa using recorded.ordered,right⟩
  · obtain ⟨log,last,ran,unrecorded,right⟩ := calls_spec PointerCache.hashtable Unrecorded
      (fun c => Call.RightPointer isa c ↔ Call.Absent c) (decodeMalloc_step isa) addresses
      ⟨createHashtable g none,[]⟩ [] ⟨createHashtable_ordered g none,fun _ => rfl⟩
    exact ⟨log,last,ran,by simpa using unrecorded.ordered,right⟩

/-- The second call at an address returns a null pointer. -/
theorem second_call_null : ¬ ∀ (g : Geometry) (isa : Isa g Unit Unit Unit) (addresses : List g.Address),
    ∀ log last, calls (decodeMalloc isa) ⟨createHashtable g none,[]⟩ addresses = some (log,last) →
      ∀ c ∈ log, Call.RightPointer isa c := by
  intro always
  let g : Geometry := ⟨32,12,8,by decide,by decide⟩
  let isa : Isa g Unit Unit Unit := ⟨fun _ => ((),()),fun _ _ => ()⟩
  have results : (calls (decodeMalloc isa) ⟨createHashtable g none,[]⟩ [0,0]).map (fun run => run.1.map fun c => c.result) =
      some [some 0,none] := by decide +kernel
  obtain ⟨⟨log,last⟩,ran,list⟩ := Option.map_eq_some_iff.mp results
  obtain ⟨c,member,null⟩ := List.mem_map.mp (show none ∈ log.map fun c => c.result by rw [list]; simp)
  obtain ⟨p,result,_⟩ := always g isa [0,0] log last ran c member
  rw [null] at result
  cases result

end Otawa.Gliss
