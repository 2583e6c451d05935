import Mathlib.Algebra.Group.Nat.Defs
import Otawa.Runs
import Mathlib.Data.List.Perm.Basic

/-!
The strings of `elm`: windows on buffers that they share, with a 16-bit count of the strings
that refer to a buffer. The conversion to a C string puts the null character in the buffer when
only one string has it, at the place of a string that starts with the buffer.
-/
namespace Otawa.Strings
open Otawa.Runs

/-- `buffer_t`: the count, and the characters with the null one after them. -/
structure Buffer where
  use : Nat
  buf : List UInt8

/-- `zero_off`, the size of the count. -/
def zeroOff : Nat := 2

/-- The conversion to `unsigned short`. -/
def short (n : Nat) : Nat := n % 2 ^ 16

def Buffer.at (b : Buffer) : Nat → Option UInt8
  | 0 => some (UInt8.ofNat b.use)
  | 1 => some (UInt8.ofNat (b.use / 256))
  | i + 2 => b.buf[i]?

/-- `String`: a window on a buffer. -/
structure Str where
  buf : Nat
  off : Nat
  len : Nat

/-- The buffers in the order they were made; the first one is `empty_buf`, and those that were deleted are none. -/
abbrev Heap := List (Option Buffer)

namespace Heap
variable (h : Heap)

def get (id : Nat) : Option Buffer := h[id]?.join

def byte (id i : Nat) : Option UInt8 := (h.get id).bind fun b => b.at i

def lock (id : Nat) : Option Heap := (h.get id).map fun b => h.set id (some { b with use := short (b.use + 1) })

def unlock (id : Nat) : Option Heap :=
  (h.get id).map fun b =>
    let use := short (b.use + (2 ^ 16 - 1))
    h.set id (if use = 0 ∧ id ≠ 0 then none else some { b with use })

/-- The characters of a string, as `memcpy` reads them. -/
def read (s : Str) : Option (List UInt8) := (List.range s.len).mapM fun k => h.byte s.buf (s.off + k)

def copy (str : List UInt8) : Option (Str × Heap) :=
  if str = [] then (h.lock 0).map fun h => (⟨0,zeroOff,0⟩,h)
  else some (⟨h.length,zeroOff,short str.length⟩,h ++ [some ⟨1,str ++ [0]⟩])

def concat (s1 s2 : List UInt8) : Option (Str × Heap) :=
  (lock (h ++ [some ⟨0,s1 ++ s2 ++ [0]⟩]) h.length).map fun h' => (⟨h.length,zeroOff,short (s1.length + s2.length)⟩,h')

/-- `toc`; the string is mutable. -/
def toc (s : Str) : Option (Str × Heap) := do
  let b ← h.get s.buf
  if b.use ≤ 1 then some (s,h.set s.buf (some { b with buf := b.buf.set s.len 0 }))
  else do
    let chars ← h.read s
    let h' ← unlock (h ++ [some ⟨1,chars ++ [0]⟩]) s.buf
    some (⟨h.length,zeroOff,s.len⟩,h')

/-- `toCString`, which returns the characters of the string that it leaves. -/
def toCString (s : Str) : Option (Str × Heap) := do
  let c ← h.byte s.buf (s.off + s.len)
  if c ≠ 0 then h.toc s else some (s,h)

end Heap

/-! ### Runs -/

structure Machine where
  heap : Heap
  strs : List Str

inductive Op where
  | empty
  | chars (str : List UInt8)
  | copy (i : Nat)
  | assign (i j : Nat)
  | assignChars (i : Nat) (str : List UInt8)
  | substring (i off len : Nat)
  | concat (i j : Nat)
  | concatChars (i : Nat) (str : List UInt8)
  | destroy (i : Nat)
  | toCString (i : Nat)

def Machine.start : Machine := ⟨[some ⟨1,[0]⟩],[]⟩

def Op.apply (m : Machine) : Op → Option Machine
  | empty => (m.heap.lock 0).map fun heap => ⟨heap,m.strs ++ [⟨0,zeroOff,0⟩]⟩
  | chars str => (m.heap.copy str).map fun (s,heap) => ⟨heap,m.strs ++ [s]⟩
  | copy i => do
    let s ← m.strs[i]?
    let heap ← m.heap.lock s.buf
    some ⟨heap,m.strs ++ [s]⟩
  | assign i j => do
    let s ← m.strs[i]?
    let str ← m.strs[j]?
    let heap ← m.heap.lock str.buf
    let heap ← heap.unlock s.buf
    some ⟨heap,m.strs.set i str⟩
  | assignChars i str => do
    let s ← m.strs[i]?
    let heap ← m.heap.unlock s.buf
    let (s,heap) ← heap.copy str
    some ⟨heap,m.strs.set i s⟩
  | substring i off len => do
    let s ← m.strs[i]?
    let heap ← m.heap.lock s.buf
    some ⟨heap,m.strs ++ [⟨s.buf,short (s.off + off),short len⟩]⟩
  | concat i j => do
    let s ← m.strs[i]?
    let str ← m.strs[j]?
    let s1 ← m.heap.read s
    let s2 ← m.heap.read str
    let (s,heap) ← m.heap.concat s1 s2
    some ⟨heap,m.strs ++ [s]⟩
  | concatChars i str => do
    let s ← m.strs[i]?
    let s1 ← m.heap.read s
    let (s,heap) ← m.heap.concat s1 str
    some ⟨heap,m.strs ++ [s]⟩
  | destroy i => do
    let s ← m.strs[i]?
    let heap ← m.heap.unlock s.buf
    some ⟨heap,m.strs.eraseIdx i⟩
  | toCString i => do
    let s ← m.strs[i]?
    let (s,heap) ← m.heap.toCString s
    some ⟨heap,m.strs.set i s⟩

/-- The strings exist, a substring lies in its string, and the strings that are made have less than 65535 characters. -/
def Op.Valid (m : Machine) : Op → Prop
  | empty => True
  | chars str => str.length < 65535
  | copy i | destroy i | toCString i => i < m.strs.length
  | assign i j => i < m.strs.length ∧ j < m.strs.length
  | assignChars i str => i < m.strs.length ∧ str.length < 65535
  | substring i off len => ∃ s, m.strs[i]? = some s ∧ off + len ≤ s.len
  | concat i j => ∃ s str, m.strs[i]? = some s ∧ m.strs[j]? = some str ∧ s.len + str.len < 65535
  | concatChars i str => ∃ s, m.strs[i]? = some s ∧ s.len + str.length < 65535

def refs (strs : List Str) (id : Nat) : Nat := strs.countP fun s => s.buf == id

/-- The references to a buffer, with the one that `empty_buf` has from the start. -/
def held (strs : List Str) (id : Nat) : Nat := refs strs id + if id = 0 then 1 else 0

/-- The references to a buffer fit in its count. -/
def Bounded (m : Machine) : Prop := ∀ id, held m.strs id < 2 ^ 16

/-- There are no more references to a buffer than its count can hold. -/
def Op.Few (m : Machine) (op : Op) : Prop := ∀ m', op.apply m = some m' → Bounded m'

/-! ### Counts -/

/-- A buffer is there as long as something refers to it, and its count is the one of the references, in 16 bits. -/
structure Counted (h : Heap) (c : Nat → Nat) : Prop where
  alive : ∀ id, 0 < c id → ∃ b, h.get id = some b ∧ b.use = short (c id)
  deleted : ∀ id, c id = 0 → h.get id = none

/-- The buffers that are still there have the size that they had. -/
structure Frame (h h' : Heap) : Prop where
  length_le : h.length ≤ h'.length
  size : ∀ id b', id < h.length → h'.get id = some b' → ∃ b, h.get id = some b ∧ b.buf.length = b'.buf.length

section
variable {h h' h'' : Heap} {c : Nat → Nat} {id x : Nat} {b : Buffer}

theorem Frame.refl (h : Heap) : Frame h h := ⟨Nat.le_refl _,fun _ b' _ found => ⟨b',found,rfl⟩⟩

theorem Frame.trans (first : Frame h h') (second : Frame h' h'') : Frame h h'' := by
  refine ⟨Nat.le_trans first.length_le second.length_le,?_⟩
  intro id b'' inside found
  obtain ⟨b',found',same⟩ := second.size id b'' (Nat.lt_of_lt_of_le inside first.length_le) found
  obtain ⟨b,found'',same'⟩ := first.size id b' inside found'
  exact ⟨b,found'',same'.trans same⟩

theorem lt_of_get (found : h.get id = some b) : id < h.length := by
  by_contra outside
  rw [Heap.get,List.getElem?_eq_none (Nat.not_lt.mp outside)] at found
  cases found

theorem get_set (inside : id < h.length) (o : Option Buffer) (x : Nat) :
    Heap.get (h.set id o) x = if id = x then o else h.get x := by
  rw [Heap.get,Heap.get,List.getElem?_set]
  split
  · next same =>
    subst same
    simp
  · rfl

theorem get_append (new : Buffer) (x : Nat) : Heap.get (h ++ [some new]) x = if h.length = x then some new else h.get x := by
  rw [Heap.get,Heap.get]
  split
  · next same =>
    subst same
    simp
  · next other =>
    by_cases inside : x < h.length
    · rw [List.getElem?_append_left inside]
    · have outside : (h ++ [some new]).length ≤ x := by
        rw [List.length_append,List.length_singleton]
        omega
      rw [List.getElem?_eq_none outside,List.getElem?_eq_none (Nat.not_lt.mp inside)]

theorem Frame.set (found : h.get id = some b) {o : Option Buffer} (same : ∀ b', o = some b' → b.buf.length = b'.buf.length) :
    Frame h (h.set id o) := by
  refine ⟨Nat.le_of_eq (List.length_set ..).symm,?_⟩
  intro x b' _ found'
  rw [get_set (lt_of_get found)] at found'
  split at found'
  · next equal =>
    subst equal
    exact ⟨b,found,same b' found'⟩
  · exact ⟨b',found',rfl⟩

theorem Frame.append (new : Buffer) : Frame h (h ++ [some new]) := by
  refine ⟨by simp,?_⟩
  intro x b' inside found
  rw [get_append,if_neg (Nat.ne_of_gt inside)] at found
  exact ⟨b',found,rfl⟩

theorem Counted.of_get (ok : Counted h c) (found : h.get id = some b) : 0 < c id ∧ b.use = short (c id) := by
  have positive : 0 < c id := by
    refine Nat.pos_of_ne_zero ?_
    intro null
    rw [ok.deleted id null] at found
    cases found
  obtain ⟨b',found',use⟩ := ok.alive id positive
  obtain rfl : b = b' := Option.some.inj (found.symm.trans found')
  exact ⟨positive,use⟩

theorem Counted.set (ok : Counted h c) (inside : id < h.length) {o : Option Buffer} {c' : Nat → Nat}
    (other : ∀ x, id ≠ x → c' x = c x) (here : (∃ b, o = some b ∧ 0 < c' id ∧ b.use = short (c' id)) ∨ o = none ∧ c' id = 0) :
    Counted (h.set id o) c' := by
  constructor
  · intro x positive
    rw [get_set inside]
    split
    · next same =>
      subst same
      rcases here with ⟨b,rfl,-,use⟩ | ⟨-,null⟩
      · exact ⟨b,rfl,use⟩
      · omega
    · next ne =>
      rw [other x ne] at positive ⊢
      exact ok.alive x positive
  · intro x null
    rw [get_set inside]
    split
    · next same =>
      subst same
      rcases here with ⟨b,-,positive,-⟩ | ⟨none,-⟩
      · omega
      · exact none
    · next ne => exact ok.deleted x ((other x ne).symm.trans null)

theorem Counted.lock (ok : Counted h c) (positive : 0 < c id) :
    ∃ h', h.lock id = some h' ∧ Counted h' (fun x => c x + if id = x then 1 else 0) ∧ Frame h h' := by
  obtain ⟨b,found,use⟩ := ok.alive id positive
  refine ⟨_,by rw [Heap.lock,found]; rfl,ok.set (lt_of_get found) ?_ ?_,Frame.set found ?_⟩
  · intro x ne
    simp [ne]
  · refine .inl ⟨_,rfl,by simp,?_⟩
    simp only [use,if_true]
    unfold short
    omega
  · rintro b' ⟨⟩
    rfl

theorem Counted.unlock (ok : Counted h fun x => c x + if id = x then 1 else 0) (few : c id < 2 ^ 16) (static : 0 < c 0) :
    ∃ h', h.unlock id = some h' ∧ Counted h' c ∧ Frame h h' := by
  obtain ⟨b,found,use⟩ := ok.alive id (by simp)
  have less : short (b.use + (2 ^ 16 - 1)) = c id := by
    simp only [use,if_true]
    unfold short
    omega
  refine ⟨_,by rw [Heap.unlock,found]; rfl,ok.set (lt_of_get found) ?_ ?_,Frame.set found ?_⟩
  · intro x ne
    simp [ne]
  · by_cases last : c id = 0
    · right
      have heap : id ≠ 0 := by
        rintro rfl
        omega
      exact ⟨if_pos ⟨less.trans last,heap⟩,last⟩
    · left
      refine ⟨_,if_neg fun both => last (less.symm.trans both.1),Nat.pos_of_ne_zero last,?_⟩
      exact less.trans (Nat.mod_eq_of_lt few).symm
  · intro b' kept
    split at kept
    · exact absurd kept (by simp)
    · rw [← Option.some.inj kept]

theorem Counted.absent (ok : Counted h c) : c h.length = 0 := by
  by_contra some
  obtain ⟨b,found,-⟩ := ok.alive h.length (Nat.pos_of_ne_zero some)
  exact Nat.lt_irrefl _ (lt_of_get found)

theorem Counted.append (ok : Counted h c) (str : List UInt8) :
    Counted (h ++ [some ⟨1,str⟩]) fun x => c x + if h.length = x then 1 else 0 := by
  have absent := ok.absent
  constructor
  · intro x positive
    rw [get_append]
    split
    · next same =>
      subst same
      exact ⟨_,rfl,by simp [absent,short]⟩
    · next ne =>
      simp only [if_neg ne,Nat.add_zero] at positive
      exact ok.alive x positive
  · intro x null
    rw [get_append,if_neg]
    · exact ok.deleted x (by omega)
    · intro same
      simp [same] at null

end

/-- A string lies in the characters of its buffer; its offset may have wrapped if it is empty. -/
def Window (h : Heap) (s : Str) : Prop :=
  ∀ b, h.get s.buf = some b → s.off + s.len ≤ b.buf.length + 1 ∧ (zeroOff ≤ s.off ∨ s.len = 0) ∧ b.buf.length < 2 ^ 16

section
variable {h h' : Heap} {c : Nat → Nat} {s : Str} {b : Buffer} {i : Nat}

theorem Window.frame (window : Window h s) (inside : s.buf < h.length) (frame : Frame h h') : Window h' s := by
  intro b' found'
  obtain ⟨b,found,same⟩ := frame.size s.buf b' inside found'
  obtain ⟨fits,start,small⟩ := window b found
  rw [same] at fits small
  exact ⟨fits,start,small⟩

theorem at_some (inside : i < b.buf.length + 2) : ∃ c, b.at i = some c := by
  match i with
  | 0 => exact ⟨_,rfl⟩
  | 1 => exact ⟨_,rfl⟩
  | i + 2 => exact ⟨_,List.getElem?_eq_getElem (Nat.lt_of_add_lt_add_right inside)⟩

theorem mapM_eq_some {α β : Type} {f : α → Option β} {l : List α} {l' : List β} (all : l.map f = l'.map some) : l.mapM f = some l' := by
  induction l generalizing l' with
  | nil =>
    cases l' with
    | nil => rfl
    | cons y l' => cases all
  | cons x l ih =>
    cases l' with
    | nil => cases all
    | cons y l' =>
      obtain ⟨here,rest⟩ := List.cons.inj all
      rw [List.mapM_cons,here,ih rest]
      rfl

theorem read_some (found : h.get s.buf = some b) (window : Window h s) :
    ∃ chars, h.read s = some chars ∧ chars.length = s.len ∧ ∀ k < s.len, h.byte s.buf (s.off + k) = chars[k]? := by
  obtain ⟨fits,-,-⟩ := window b found
  have bytes : ∀ k < s.len, ∃ c, h.byte s.buf (s.off + k) = some c := by
    intro k less
    rw [Heap.byte,found]
    exact at_some (by omega)
  have all : (List.range s.len).map (fun k => h.byte s.buf (s.off + k)) =
      ((List.range s.len).map fun k => (h.byte s.buf (s.off + k)).getD 0).map some := by
    rw [List.map_map]
    refine List.map_congr_left ?_
    intro k member
    obtain ⟨c,here⟩ := bytes k (List.mem_range.mp member)
    simp [here]
  refine ⟨_,mapM_eq_some all,by simp,?_⟩
  intro k less
  obtain ⟨c,here⟩ := bytes k less
  simp [less,here]

theorem window_append (str : List UInt8) (use : Nat) (small : str.length < 65535) :
    Window (h ++ [some ⟨use,str ++ [0]⟩]) ⟨h.length,zeroOff,short str.length⟩ := by
  intro b found
  rw [get_append,if_pos rfl] at found
  obtain rfl := Option.some.inj found
  have same : short str.length = str.length := Nat.mod_eq_of_lt (by omega)
  simp only [same,List.length_append,List.length_singleton,zeroOff]
  omega

end

section
variable {strs : List Str} {s : Str} {i id : Nat}

theorem held_append (strs : List Str) (s : Str) (id : Nat) : held (strs ++ [s]) id = held strs id + if s.buf = id then 1 else 0 := by
  simp only [held,refs,List.countP_append,List.countP_singleton,beq_iff_eq]
  omega

theorem held_eraseIdx (inside : i < strs.length) (id : Nat) :
    held strs id = held (strs.eraseIdx i) id + if strs[i].buf = id then 1 else 0 := by
  have perm := (List.getElem_cons_eraseIdx_perm inside).countP_eq fun s => s.buf == id
  simp only [List.countP_cons,beq_iff_eq] at perm
  simp only [held,refs]
  omega

theorem held_set (inside : i < strs.length) (s : Str) (id : Nat) :
    held (strs.set i s) id = held (strs.eraseIdx i) id + if s.buf = id then 1 else 0 := by
  have perm := (List.set_perm_cons_eraseIdx inside s).countP_eq fun s => s.buf == id
  simp only [List.countP_cons,beq_iff_eq] at perm
  simp only [held,refs,perm]
  omega

theorem held_zero (strs : List Str) : 0 < held strs 0 := Nat.lt_add_left _ (by decide)

theorem held_pos (member : s ∈ strs) : 0 < held strs s.buf :=
  Nat.add_pos_left (List.countP_pos_iff.mpr ⟨s,member,by simp⟩) _

theorem held_le (inside : i < strs.length) (id : Nat) : held (strs.eraseIdx i) id ≤ held strs id := by
  rw [held_eraseIdx inside]
  exact Nat.le_add_right _ _

end

/-- The buffer of the empty string has its null character only. -/
def Static (h : Heap) : Prop := 0 < h.length ∧ ∀ b, h.get 0 = some b → b.buf.length = 1

/-- The counts are those of the strings, which lie in their buffers. -/
structure Good (m : Machine) : Prop where
  counted : Counted m.heap (held m.strs)
  windows : ∀ s ∈ m.strs, Window m.heap s
  static : Static m.heap

theorem Static.frame {h h' : Heap} (static : Static h) (frame : Frame h h') : Static h' := by
  refine ⟨Nat.lt_of_lt_of_le static.1 frame.length_le,?_⟩
  intro b' found'
  obtain ⟨b,found,same⟩ := frame.size 0 b' static.1 found'
  exact same.symm.trans (static.2 b found)

theorem Static.window {h : Heap} (static : Static h) : Window h ⟨0,zeroOff,0⟩ := by
  intro b found
  rw [static.2 b found]
  exact ⟨by decide,.inl (Nat.le_refl _),by decide⟩

theorem good_start : Good .start := by
  refine ⟨⟨?_,?_⟩,?_,by decide,?_⟩
  · intro id positive
    by_cases first : id = 0
    · subst first
      exact ⟨_,rfl,rfl⟩
    · simp [held,refs,Machine.start,first] at positive
  · intro id null
    have other : id ≠ 0 := by
      rintro rfl
      cases null
    obtain ⟨k,rfl⟩ := Nat.exists_eq_succ_of_ne_zero other
    rfl
  · intro s member
    cases member
  · rintro b ⟨⟩
    rfl

section
variable {m : Machine} {h' : Heap} {s : Str} {i : Nat}

theorem Good.get (good : Good m) (member : s ∈ m.strs) : ∃ b, m.heap.get s.buf = some b ∧ b.use = short (held m.strs s.buf) :=
  good.counted.alive s.buf (held_pos member)

theorem Good.frame (good : Good m) (frame : Frame m.heap h') (member : s ∈ m.strs) : Window h' s := by
  obtain ⟨b,found,-⟩ := good.get member
  exact (good.windows s member).frame (lt_of_get found) frame

theorem Good.append (good : Good m) (frame : Frame m.heap h') (counted : Counted h' fun x => held m.strs x + if s.buf = x then 1 else 0)
    (window : Window h' s) : Good ⟨h',m.strs ++ [s]⟩ := by
  refine ⟨?_,?_,good.static.frame frame⟩
  · have same : held (m.strs ++ [s]) = fun x => held m.strs x + if s.buf = x then 1 else 0 := funext (held_append m.strs s)
    rw [same]
    exact counted
  · intro s' member
    rcases List.mem_append.mp member with old | new
    · exact good.frame frame old
    · obtain rfl := List.mem_singleton.mp new
      exact window

theorem Good.set (good : Good m) (frame : Frame m.heap h') (inside : i < m.strs.length)
    (counted : Counted h' fun x => held (m.strs.eraseIdx i) x + if s.buf = x then 1 else 0) (window : Window h' s) :
    Good ⟨h',m.strs.set i s⟩ := by
  refine ⟨?_,?_,good.static.frame frame⟩
  · have same : held (m.strs.set i s) = fun x => held (m.strs.eraseIdx i) x + if s.buf = x then 1 else 0 := funext (held_set inside s)
    rw [same]
    exact counted
  · intro s' member
    rcases List.mem_or_eq_of_mem_set member with old | rfl
    · exact good.frame frame old
    · exact window

end

/-! ### The operations on buffers -/

/-- A new reference to a buffer, by a string that lies in it. -/
structure Made (h : Heap) (c : Nat → Nat) (s : Str) (h' : Heap) : Prop where
  counted : Counted h' fun x => c x + if s.buf = x then 1 else 0
  frame : Frame h h'
  window : Window h' s

section
variable {h : Heap} {c : Nat → Nat} {s : Str} {str : List UInt8}

theorem copy_spec (ok : Counted h c) (static : Static h) (positive : 0 < c 0) (small : str.length < 65535) :
    ∃ s h', h.copy str = some (s,h') ∧ Made h c s h' := by
  by_cases empty : str = []
  · obtain ⟨h',locked,counted,frame⟩ := ok.lock positive
    refine ⟨⟨0,zeroOff,0⟩,h',?_,counted,frame,(static.frame frame).window⟩
    rw [Heap.copy,if_pos empty,locked]
    rfl
  · refine ⟨_,_,by rw [Heap.copy,if_neg empty],ok.append _,.append _,window_append _ _ small⟩

theorem concat_spec (ok : Counted h c) (s1 s2 : List UInt8) (small : s1.length + s2.length < 65535) :
    ∃ s h', h.concat s1 s2 = some (s,h') ∧ Made h c s h' := by
  have locked : Heap.lock (h ++ [some ⟨0,s1 ++ s2 ++ [0]⟩]) h.length = some (h ++ [some ⟨1,s1 ++ s2 ++ [0]⟩]) := by
    rw [Heap.lock,get_append,if_pos rfl,Option.map_some]
    congr 1
    simp [short]
  have length : (s1 ++ s2).length < 65535 := by rwa [List.length_append]
  have window := window_append (h := h) (s1 ++ s2) 1 length
  rw [List.length_append] at window
  refine ⟨_,_,?_,ok.append _,.append _,window⟩
  rw [Heap.concat,locked]
  rfl

/-- A string of a buffer that no other string has is ended in place; another one gets a buffer of its own. -/
theorem toc_spec {m : Machine} (good : Good m) (bounded : Bounded m) {i : Nat} (inside : i < m.strs.length) :
    ∃ s h', m.heap.toc m.strs[i] = some (s,h') ∧ Counted h' (fun x => held (m.strs.eraseIdx i) x + if s.buf = x then 1 else 0) ∧
      Frame m.heap h' ∧ Window h' s := by
  have member := List.getElem_mem inside
  obtain ⟨b,found,use⟩ := good.get member
  have ok := good.counted
  have split : held m.strs = fun x => held (m.strs.eraseIdx i) x + if m.strs[i].buf = x then 1 else 0 := funext (held_eraseIdx inside)
  have window := good.windows _ member
  by_cases sole : b.use ≤ 1
  · have frame : Frame m.heap (m.heap.set m.strs[i].buf (some { b with buf := b.buf.set m.strs[i].len 0 })) := by
      refine .set found ?_
      rintro b' ⟨⟩
      rw [List.length_set]
    refine ⟨m.strs[i],_,by simp [Heap.toc,found,sole],?_,frame,window.frame (lt_of_get found) frame⟩
    rw [← split]
    exact ok.set (lt_of_get found) (fun _ _ => rfl) (.inl ⟨_,rfl,held_pos member,use⟩)
  · obtain ⟨chars,reads,length,-⟩ := read_some found window
    have ne : m.heap.length ≠ m.strs[i].buf := Nat.ne_of_gt (lt_of_get found)
    have counted : Counted (m.heap ++ [some ⟨1,chars ++ [0]⟩]) fun x =>
        (held (m.strs.eraseIdx i) x + if m.heap.length = x then 1 else 0) + if m.strs[i].buf = x then 1 else 0 := by
      have made := ok.append (chars ++ [0])
      rw [split] at made
      simp only [Nat.add_right_comm _ (if m.heap.length = _ then 1 else 0)]
      exact made
    have few : held (m.strs.eraseIdx i) m.strs[i].buf + (if m.heap.length = m.strs[i].buf then 1 else 0) < 2 ^ 16 := by
      rw [if_neg ne]
      exact Nat.lt_of_le_of_lt (held_le inside _) (bounded _)
    obtain ⟨h',unlocked,counted',frame⟩ := counted.unlock few (Nat.add_pos_left (held_zero _) _)
    have small : m.strs[i].len < 65535 := by
      obtain ⟨fits,start,less⟩ := window b found
      unfold zeroOff at start
      omega
    have whole : Window h' ⟨m.heap.length,zeroOff,m.strs[i].len⟩ := by
      have fresh := window_append (h := m.heap) chars 1 (length ▸ small)
      have same : short chars.length = m.strs[i].len := by rw [length]; exact Nat.mod_eq_of_lt (by omega)
      rw [same] at fresh
      exact fresh.frame (by simp) frame
    refine ⟨⟨m.heap.length,zeroOff,m.strs[i].len⟩,h',?_,counted',(Frame.append _).trans frame,whole⟩
    simp [Heap.toc,found,sole,reads,unlocked]

theorem toCString_spec {m : Machine} (good : Good m) (bounded : Bounded m) {i : Nat} (inside : i < m.strs.length) :
    ∃ s h', m.heap.toCString m.strs[i] = some (s,h') ∧ Counted h' (fun x => held (m.strs.eraseIdx i) x + if s.buf = x then 1 else 0) ∧
      Frame m.heap h' ∧ Window h' s := by
  have member := List.getElem_mem inside
  obtain ⟨b,found,-⟩ := good.get member
  have window := good.windows _ member
  obtain ⟨c,here⟩ : ∃ c, m.heap.byte m.strs[i].buf (m.strs[i].off + m.strs[i].len) = some c := by
    obtain ⟨fits,-,-⟩ := window b found
    rw [Heap.byte,found]
    exact at_some (by omega)
  by_cases ended : c = 0
  · have split : held m.strs = fun x => held (m.strs.eraseIdx i) x + if m.strs[i].buf = x then 1 else 0 := funext (held_eraseIdx inside)
    refine ⟨m.strs[i],m.heap,by simp [Heap.toCString,here,ended],?_,.refl _,window⟩
    rw [← split]
    exact good.counted
  · obtain ⟨s,h',made,rest⟩ := toc_spec good bounded inside
    exact ⟨s,h',by simp [Heap.toCString,here,ended,made],rest⟩

theorem Good.unlock {m : Machine} (good : Good m) (bounded : Bounded m) {i : Nat} (inside : i < m.strs.length) :
    ∃ h', m.heap.unlock m.strs[i].buf = some h' ∧ Counted h' (held (m.strs.eraseIdx i)) ∧ Frame m.heap h' := by
  have split : held m.strs = fun x => held (m.strs.eraseIdx i) x + if m.strs[i].buf = x then 1 else 0 := funext (held_eraseIdx inside)
  have counted := good.counted
  rw [split] at counted
  exact counted.unlock (Nat.lt_of_le_of_lt (held_le inside _) (bounded _)) (held_zero _)

theorem Good.read {m : Machine} (good : Good m) (member : s ∈ m.strs) : ∃ chars, m.heap.read s = some chars ∧ chars.length = s.len := by
  obtain ⟨b,found,-⟩ := good.get member
  obtain ⟨chars,reads,length,-⟩ := read_some found (good.windows s member)
  exact ⟨chars,reads,length⟩

theorem Window.substring {off len : Nat} (window : Window h s) (fits : off + len ≤ s.len) :
    Window h ⟨s.buf,short (s.off + off),short len⟩ := by
  intro b found
  obtain ⟨inside,start,small⟩ := window b found
  unfold zeroOff at *
  have sameLen : short len = len := Nat.mod_eq_of_lt (by omega)
  simp only [sameLen]
  by_cases wraps : s.off + off < 2 ^ 16
  · have same : short (s.off + off) = s.off + off := Nat.mod_eq_of_lt wraps
    rw [same]
    omega
  · have same : short (s.off + off) = 0 := by
      unfold short
      omega
    rw [same]
    omega

theorem Op.keeps {m : Machine} {op : Op} (good : Good m) (bounded : Bounded m) (valid : op.Valid m) :
    ∃ m', op.apply m = some m' ∧ Good m' := by
  have ok := good.counted
  have positive := held_zero m.strs
  cases op with
  | empty =>
    obtain ⟨h',locked,counted,frame⟩ := ok.lock positive
    refine ⟨_,by rw [Op.apply,locked]; rfl,good.append frame counted (good.static.frame frame).window⟩
  | chars str =>
    obtain ⟨s,h',made,counted,frame,window⟩ := copy_spec ok good.static positive valid
    exact ⟨_,by rw [Op.apply,made]; rfl,good.append frame counted window⟩
  | copy i =>
    have inside : i < m.strs.length := valid
    have member := List.getElem_mem inside
    obtain ⟨h',locked,counted,frame⟩ := ok.lock (held_pos member)
    refine ⟨⟨h',m.strs ++ [m.strs[i]]⟩,?_,good.append frame counted (good.frame frame member)⟩
    simp [Op.apply,inside,locked]
  | assign i j =>
    obtain ⟨insideI,insideJ⟩ : i < m.strs.length ∧ j < m.strs.length := valid
    have member := List.getElem_mem insideJ
    obtain ⟨h₁,locked,counted₁,frame₁⟩ := ok.lock (held_pos member)
    have counted₂ : Counted h₁ fun x =>
        (held (m.strs.eraseIdx i) x + if m.strs[j].buf = x then 1 else 0) + if m.strs[i].buf = x then 1 else 0 := by
      simp only [Nat.add_right_comm _ (if m.strs[j].buf = _ then 1 else 0),← held_eraseIdx insideI]
      exact counted₁
    have few : held (m.strs.eraseIdx i) m.strs[i].buf + (if m.strs[j].buf = m.strs[i].buf then 1 else 0) < 2 ^ 16 := by
      have count := held_eraseIdx insideI m.strs[i].buf
      have := bounded m.strs[i].buf
      rw [if_pos rfl] at count
      split <;> omega
    obtain ⟨h₂,unlocked,counted,frame₂⟩ := counted₂.unlock few (Nat.add_pos_left (held_zero _) _)
    have frame := frame₁.trans frame₂
    refine ⟨⟨h₂,m.strs.set i m.strs[j]⟩,?_,good.set frame insideI counted (good.frame frame member)⟩
    simp [Op.apply,insideI,insideJ,locked,unlocked]
  | assignChars i str =>
    obtain ⟨inside,small⟩ : i < m.strs.length ∧ str.length < 65535 := valid
    obtain ⟨h₁,unlocked,counted₁,frame₁⟩ := good.unlock bounded inside
    obtain ⟨s,h₂,made,counted,frame₂,window⟩ := copy_spec counted₁ (good.static.frame frame₁) (held_zero _) small
    refine ⟨⟨h₂,m.strs.set i s⟩,?_,good.set (frame₁.trans frame₂) inside counted window⟩
    simp [Op.apply,inside,unlocked,made]
  | substring i off len =>
    obtain ⟨s,at_,fits⟩ := valid
    have member := List.mem_of_getElem? at_
    obtain ⟨h',locked,counted,frame⟩ := ok.lock (held_pos member)
    obtain ⟨b,found,-⟩ := good.get member
    have window : Window m.heap ⟨s.buf,short (s.off + off),short len⟩ := (good.windows s member).substring fits
    refine ⟨⟨h',m.strs ++ [⟨s.buf,short (s.off + off),short len⟩]⟩,?_,good.append frame counted (window.frame (lt_of_get found) frame)⟩
    simp [Op.apply,at_,locked]
  | concat i j =>
    obtain ⟨s,str,atI,atJ,small⟩ := valid
    obtain ⟨s1,readI,lengthI⟩ := good.read (List.mem_of_getElem? atI)
    obtain ⟨s2,readJ,lengthJ⟩ := good.read (List.mem_of_getElem? atJ)
    obtain ⟨s',h',made,counted,frame,window⟩ := concat_spec ok s1 s2 (by omega)
    refine ⟨⟨h',m.strs ++ [s']⟩,?_,good.append frame counted window⟩
    simp [Op.apply,atI,atJ,readI,readJ,made]
  | concatChars i str =>
    obtain ⟨s,at_,small⟩ := valid
    obtain ⟨s1,reads,length⟩ := good.read (List.mem_of_getElem? at_)
    obtain ⟨s',h',made,counted,frame,window⟩ := concat_spec ok s1 str (by omega)
    refine ⟨⟨h',m.strs ++ [s']⟩,?_,good.append frame counted window⟩
    simp [Op.apply,at_,reads,made]
  | destroy i =>
    have inside : i < m.strs.length := valid
    obtain ⟨h',unlocked,counted,frame⟩ := good.unlock bounded inside
    refine ⟨⟨h',m.strs.eraseIdx i⟩,?_,counted,?_,good.static.frame frame⟩
    · simp [Op.apply,inside,unlocked]
    · intro s member
      exact good.frame frame (List.mem_of_mem_eraseIdx member)
  | toCString i =>
    have inside : i < m.strs.length := valid
    obtain ⟨s,h',made,counted,frame,window⟩ := toCString_spec good bounded inside
    refine ⟨⟨h',m.strs.set i s⟩,?_,good.set frame inside counted window⟩
    simp [Op.apply,inside,made]

end

/-- The count of a buffer is the number of the strings that refer to it, which keep it from being deleted; the
    buffer of the empty string has one reference more. -/
def CountsRight (m : Machine) : Prop :=
  (∃ b, m.heap.get 0 = some b ∧ b.use = refs m.strs 0 + 1) ∧
    ∀ id, id ≠ 0 → (∀ b, m.heap.get id = some b → b.use = refs m.strs id) ∧ (m.heap.get id = none ↔ refs m.strs id = 0)

theorem Good.countsRight {m : Machine} (good : Good m) (bounded : Bounded m) : CountsRight m := by
  have ok := good.counted
  have exact : ∀ id, short (held m.strs id) = held m.strs id := fun id => Nat.mod_eq_of_lt (bounded id)
  refine ⟨?_,?_⟩
  · obtain ⟨b,found,use⟩ := ok.alive 0 (held_zero _)
    exact ⟨b,found,use.trans (exact 0)⟩
  · intro id heap
    have same : held m.strs id = refs m.strs id := by simp [held,heap]
    refine ⟨?_,?_,?_⟩
    · intro b found
      rw [(ok.of_get found).2,exact,same]
    · intro deleted
      by_contra some
      obtain ⟨b,found,-⟩ := ok.alive id (same ▸ Nat.pos_of_ne_zero some)
      rw [found] at deleted
      cases deleted
    · exact fun null => ok.deleted id (same.trans null)

theorem bounded_start : Bounded .start := by
  intro id
  simp only [held,refs,Machine.start,List.countP_nil]
  split <;> decide

/-- What holds in every state of a run in which the references to a buffer fit in its count. -/
def Sound (m : Machine) : Prop := Good m ∧ Bounded m

theorem sound_start : Sound .start := ⟨good_start,bounded_start⟩

theorem Sound.step (m : Machine) (op : Op) (sound : Sound m) (valid : op.Valid m) (few : op.Few m) :
    ∃ m', op.apply m = some m' ∧ Sound m' := by
  obtain ⟨m',applied,good'⟩ := Op.keeps sound.1 sound.2 valid
  exact ⟨m',applied,good',few m' applied⟩

/-- In a run in which the references to a buffer fit in its count, the count is the number of these references, and a
    buffer is deleted exactly with the last one. -/
theorem use_eq_refs (ops : List Op) (valid : Along Op.apply Op.Valid .start ops) (few : Along Op.apply Op.Few .start ops) :
    SafeAlong Op.apply (fun _ _ m' => CountsRight m') .start ops := by
  refine safeAlong_of_along ?_ sound_start valid few
  intro m op sound validOp fewOp
  obtain ⟨m',applied,sound'⟩ := Sound.step m op sound validOp fewOp
  exact ⟨m',applied,sound'.1.countsRight sound'.2,sound'⟩

theorem few_of_apply {m t : Machine} {op : Op} (applied : op.apply m = some t) (small : t.strs.length + 1 < 2 ^ 16) : op.Few m := by
  intro m' applied' id
  obtain rfl : t = m' := Option.some.inj (applied.symm.trans applied')
  have le : refs t.strs id ≤ t.strs.length := List.countP_le_length
  unfold held
  split <;> omega

/-- A buffer with so many references by the strings of a character, and a last list of strings. -/
def Machine.sharing (use : Nat) (strs : List Str) : Machine := ⟨[some ⟨1,[0]⟩,some ⟨use,[97,0]⟩],strs⟩

/-- A copy of a string that disappears, and then its last string. -/
theorem use_eq_refs_copy :
    SafeAlong Op.apply (fun _ _ m' => CountsRight m') .start [.chars [97],.copy 0,.destroy 0,.destroy 0] := by
  refine use_eq_refs _ ?_ ?_
  · refine .cons (t := .sharing 1 [⟨1,2,1⟩]) rfl (by decide : 1 < 65535) ?_
    refine .cons (t := .sharing 2 [⟨1,2,1⟩,⟨1,2,1⟩]) rfl (by decide : 0 < 1) ?_
    refine .cons (t := .sharing 1 [⟨1,2,1⟩]) rfl (by decide : 0 < 2) ?_
    exact .cons rfl (by decide : 0 < 1) trivial
  · refine .cons (t := .sharing 1 [⟨1,2,1⟩]) rfl (few_of_apply rfl (by decide)) ?_
    refine .cons (t := .sharing 2 [⟨1,2,1⟩,⟨1,2,1⟩]) rfl (few_of_apply rfl (by decide)) ?_
    refine .cons (t := .sharing 1 [⟨1,2,1⟩]) rfl (few_of_apply rfl (by decide)) ?_
    exact .cons rfl (few_of_apply rfl (by decide)) trivial

theorem apply_copy (use : Nat) (strs : List Str) : Op.apply (.sharing (short use) (⟨1,2,1⟩ :: strs)) (.copy 0) =
    some (.sharing (short (use + 1)) (⟨1,2,1⟩ :: (strs ++ [⟨1,2,1⟩]))) := by
  have wraps : short (short use + 1) = short (use + 1) := Nat.mod_add_mod ..
  simp [Op.apply,Machine.sharing,Heap.lock,Heap.get,wraps]

/-- The copies of a string wrap the count of its buffer. -/
theorem run_copies (n use : Nat) (strs : List Str) (ops : List Op) :
    (List.replicate n (Op.copy 0) ++ ops).foldlM Op.apply (.sharing (short use) (⟨1,2,1⟩ :: strs)) =
      ops.foldlM Op.apply (.sharing (short (use + n)) (⟨1,2,1⟩ :: (strs ++ List.replicate n ⟨1,2,1⟩))) := by
  induction n generalizing use strs with
  | zero => simp
  | succ n ih =>
    rw [List.replicate_succ,List.cons_append,List.foldlM_cons,apply_copy]
    have rest := ih (use + 1) (strs ++ [⟨1,2,1⟩])
    rw [List.append_assoc,List.singleton_append,← List.replicate_succ,Nat.add_right_comm] at rest
    exact rest

theorem along_copies {ops : List Op} (n use : Nat) (strs : List Str)
    (rest : Along Op.apply Op.Valid (.sharing (short (use + n)) (⟨1,2,1⟩ :: (strs ++ List.replicate n ⟨1,2,1⟩))) ops) :
    Along Op.apply Op.Valid (.sharing (short use) (⟨1,2,1⟩ :: strs)) (List.replicate n (.copy 0) ++ ops) := by
  induction n generalizing use strs with
  | zero => simpa using rest
  | succ n ih =>
    refine .cons (apply_copy use strs) (Nat.succ_pos _) (ih (use + 1) (strs ++ [⟨1,2,1⟩]) ?_)
    rw [List.append_assoc,List.singleton_append,← List.replicate_succ,Nat.add_right_comm]
    exact rest

def copies (n : Nat) : List Op := .chars [97] :: (List.replicate n (.copy 0) ++ [.destroy 0])

theorem along_copies_destroy (n : Nat) : Along Op.apply Op.Valid .start (copies n) := by
  refine .cons (t := .sharing (short 1) [⟨1,2,1⟩]) rfl (by decide : 1 < 65535) (along_copies n 1 [] ?_)
  exact ⟨Nat.succ_pos _,fun _ _ => trivial⟩

/-- The destruction of the string deletes the buffer when its count is one. -/
theorem run_copies_destroy (n : Nat) (one : short (1 + n) = 1) :
    (copies n).foldlM Op.apply .start = some ⟨[some ⟨1,[0]⟩,none],List.replicate n ⟨1,2,1⟩⟩ := by
  have made : Op.apply .start (.chars [97]) = some (.sharing (short 1) [⟨1,2,1⟩]) := rfl
  rw [copies,List.foldlM_cons,made]
  have rest := run_copies n 1 [] [.destroy 0]
  rw [one,List.nil_append] at rest
  exact rest.trans rfl

theorem refs_replicate (n : Nat) (s : Str) : refs (List.replicate n s) s.buf = n := by
  simp [refs,List.countP_replicate]

/-- The count of the empty string is one more than its references from the start; the count of a buffer of 65537
    references is one, so that the first string that disappears deletes it for the 65536 other ones. -/
theorem use_wraps :
    (∃ m b, [Op.empty].foldlM Op.apply .start = some m ∧ m.heap.get 0 = some b ∧ b.use = 2 ∧ refs m.strs 0 = 1) ∧
      Along Op.apply Op.Valid .start (copies 65536) ∧
      ∃ m, (copies 65536).foldlM Op.apply .start = some m ∧ m.heap.get 1 = none ∧ refs m.strs 1 = 65536 := by
  refine ⟨⟨_,_,rfl,rfl,rfl,rfl⟩,along_copies_destroy 65536,?_⟩
  exact ⟨_,run_copies_destroy 65536 (by decide),rfl,refs_replicate 65536 ⟨1,2,1⟩⟩

/-! ### The end of a C string -/

def text (h : Heap) (s : Str) : List (Option UInt8) := (List.range s.len).map fun k => h.byte s.buf (s.off + k)

/-- `toCString` returns the characters of a string with the null character after them, and changes no string. -/
def Ended (m : Machine) (i : Nat) : Prop :=
  ∃ s s' h', m.strs[i]? = some s ∧ m.heap.toCString s = some (s',h') ∧ s'.len = s.len ∧ text h' s' = text m.heap s ∧
    h'.byte s'.buf (s'.off + s'.len) = some 0 ∧ (m.strs.set i s').map (text h') = m.strs.map (text m.heap)

def Fits (m : Machine) (i : Nat) : Prop :=
  ∀ s b, m.strs[i]? = some s → m.heap.get s.buf = some b → b.at (s.off + s.len) = some 0 ∨ 2 ≤ b.use ∨ s.off = zeroOff

section
variable {h h' : Heap} {m : Machine} {s : Str} {b b' : Buffer} {i : Nat} {c : UInt8}

theorem text_congr (same : ∀ k < s.len, h'.byte s.buf (s.off + k) = h.byte s.buf (s.off + k)) : text h' s = text h s :=
  List.map_congr_left fun k member => same k (List.mem_range.mp member)

theorem text_of_buf (window : Window h s) (found : h.get s.buf = some b) (found' : h'.get s.buf = some b') (same : b'.buf = b.buf) :
    text h' s = text h s := by
  apply text_congr
  intro k less
  obtain ⟨-,start,-⟩ := window b found
  obtain ⟨j,at_⟩ : ∃ j, s.off + k = j + 2 := ⟨s.off + k - 2,by unfold zeroOff at start; omega⟩
  rw [Heap.byte,Heap.byte,found,found',at_]
  exact congrArg (fun buf : List UInt8 => buf[j]?) same

theorem ended_of_null (at_ : m.strs[i]? = some s) (null : m.heap.byte s.buf (s.off + s.len) = some 0) : Ended m i := by
  refine ⟨s,s,m.heap,at_,by simp [Heap.toCString,null],rfl,rfl,null,?_⟩
  obtain ⟨inside,same⟩ := List.getElem?_eq_some_iff.mp at_
  rw [← same,List.set_getElem_self]

theorem map_set_text (at_ : m.strs[i]? = some s) {s' : Str} (own : text h' s' = text m.heap s)
    (others : ∀ j t, j ≠ i → m.strs[j]? = some t → text h' t = text m.heap t) :
    (m.strs.set i s').map (text h') = m.strs.map (text m.heap) := by
  refine List.ext_getElem? ?_
  intro j
  rw [List.getElem?_map,List.getElem?_map,List.getElem?_set]
  by_cases same : i = j
  · subst same
    obtain ⟨inside,-⟩ := List.getElem?_eq_some_iff.mp at_
    rw [if_pos rfl,if_pos inside,at_,Option.map_some,Option.map_some,own]
  · rw [if_neg same]
    cases found : m.strs[j]? with
    | none => rfl
    | some t => exact congrArg some (others j t (Ne.symm same) found)

theorem unlock_of_shared {id : Nat} (found : h.get id = some b) (shared : 2 ≤ b.use) (small : b.use < 2 ^ 16) :
    ∃ h', h.unlock id = some h' ∧ ∀ x, h'.get x = if id = x then some ⟨b.use - 1,b.buf⟩ else h.get x := by
  have less : short (b.use + (2 ^ 16 - 1)) = b.use - 1 := by
    unfold short
    omega
  refine ⟨h.set id (some ⟨b.use - 1,b.buf⟩),?_,get_set (lt_of_get found) _⟩
  rw [Heap.unlock,found,Option.map_some,less]
  have kept : ¬(b.use - 1 = 0 ∧ id ≠ 0) := by omega
  simp only [if_neg kept]

theorem ended_of_shared (good : Good m) (at_ : m.strs[i]? = some s) (found : m.heap.get s.buf = some b)
    (here : m.heap.byte s.buf (s.off + s.len) = some c) (some_ : c ≠ 0) (shared : 2 ≤ b.use) : Ended m i := by
  have member := List.mem_of_getElem? at_
  obtain ⟨chars,reads,length,bytes⟩ := read_some found (good.windows s member)
  have ne : m.heap.length ≠ s.buf := Nat.ne_of_gt (lt_of_get found)
  have small : b.use < 2 ^ 16 := by
    rw [(good.counted.of_get found).2]
    exact Nat.mod_lt _ (by decide)
  have found₁ : Heap.get (m.heap ++ [some ⟨1,chars ++ [0]⟩]) s.buf = some b := by rw [get_append,if_neg ne,found]
  obtain ⟨h',unlocked,get'⟩ := unlock_of_shared found₁ shared small
  have made : m.heap.toCString s = some (⟨m.heap.length,zeroOff,s.len⟩,h') := by
    have many : ¬b.use ≤ 1 := by omega
    simp [Heap.toCString,here,some_,Heap.toc,found,many,reads,unlocked]
  have new : ∀ k, h'.byte m.heap.length (zeroOff + k) = (chars ++ [0])[k]? := by
    intro k
    rw [Heap.byte,get',if_neg ne.symm,get_append,if_pos rfl,Nat.add_comm]
    rfl
  have own : text h' ⟨m.heap.length,zeroOff,s.len⟩ = text m.heap s := by
    refine List.map_congr_left ?_
    intro k inside
    have less : k < s.len := List.mem_range.mp inside
    rw [new,bytes k less,List.getElem?_append_left (by omega)]
  refine ⟨s,_,_,at_,made,rfl,own,?_,map_set_text at_ own ?_⟩
  · rw [new,← length]
    simp
  · intro j t _ atT
    have memberT := List.mem_of_getElem? atT
    obtain ⟨b₀,foundT,-⟩ := good.get memberT
    by_cases same : s.buf = t.buf
    · have old : m.heap.get t.buf = some b := same ▸ found
      have kept : h'.get t.buf = some ⟨b.use - 1,b.buf⟩ := by rw [get',if_pos same]
      exact text_of_buf (good.windows t memberT) old kept rfl
    · have neT : m.heap.length ≠ t.buf := Nat.ne_of_gt (lt_of_get foundT)
      have kept : h'.get t.buf = some b₀ := by rw [get',if_neg same,get_append,if_neg neT,foundT]
      exact text_of_buf (good.windows t memberT) foundT kept rfl

theorem buf_ne_of_sole (good : Good m) (bounded : Bounded m) (at_ : m.strs[i]? = some s) (found : m.heap.get s.buf = some b)
    (sole : b.use ≤ 1) {j : Nat} {t : Str} (other : j ≠ i) (atT : m.strs[j]? = some t) : s.buf ≠ t.buf := by
  obtain ⟨inside,same⟩ := List.getElem?_eq_some_iff.mp at_
  have use : b.use = held m.strs s.buf := (good.counted.of_get found).2.trans (Nat.mod_eq_of_lt (bounded _))
  have count := held_eraseIdx inside s.buf
  rw [same,if_pos rfl] at count
  intro equal
  obtain ⟨insideT,sameT⟩ := List.getElem?_eq_some_iff.mp atT
  have member : t ∈ m.strs.eraseIdx i := List.mem_eraseIdx_iff_getElem.mpr ⟨j,insideT,other,sameT⟩
  have positive := held_pos member
  rw [← equal] at positive
  omega

theorem at_set {n k : Nat} (other : k ≠ zeroOff + n) : Buffer.at ⟨b.use,b.buf.set n 0⟩ k = b.at k := by
  match k with
  | 0 => rfl
  | 1 => rfl
  | k + 2 =>
    have ne : n ≠ k := by
      rintro rfl
      exact other (Nat.add_comm ..)
    exact List.getElem?_set_ne ne

/-- The null character that `toc` puts in the buffer of the only string ends the string when it starts with the buffer. -/
theorem ended_sole_iff (good : Good m) (bounded : Bounded m) (at_ : m.strs[i]? = some s) (found : m.heap.get s.buf = some b)
    (here : b.at (s.off + s.len) = some c) (some_ : c ≠ 0) (sole : b.use ≤ 1) : Ended m i ↔ s.off = zeroOff := by
  have member := List.mem_of_getElem? at_
  have window := good.windows s member
  have byte : m.heap.byte s.buf (s.off + s.len) = some c := by rw [Heap.byte,found]; exact here
  have made : m.heap.toCString s = some (s,m.heap.set s.buf (some ⟨b.use,b.buf.set s.len 0⟩)) := by
    simp [Heap.toCString,byte,some_,Heap.toc,found,sole]
  have get' := get_set (lt_of_get found) (some ⟨b.use,b.buf.set s.len 0⟩)
  have own : ∀ k, Heap.byte (m.heap.set s.buf (some ⟨b.use,b.buf.set s.len 0⟩)) s.buf k = Buffer.at ⟨b.use,b.buf.set s.len 0⟩ k := by
    intro k
    rw [Heap.byte,get',if_pos rfl]
    rfl
  constructor
  · rintro ⟨s₁,s',h',atS,toC,-,-,ended,-⟩
    obtain rfl : s = s₁ := Option.some.inj (at_.symm.trans atS)
    obtain ⟨rfl,rfl⟩ := Prod.mk.inj (Option.some.inj (made.symm.trans toC))
    by_contra other
    rw [own,at_set (by omega),here,Option.some.injEq] at ended
    exact some_ ended
  · intro start
    obtain ⟨fits,-,-⟩ := window b found
    have kept : text (m.heap.set s.buf (some ⟨b.use,b.buf.set s.len 0⟩)) s = text m.heap s := by
      apply text_congr
      intro k less
      rw [own,at_set (by omega),Heap.byte,found]
      rfl
    refine ⟨s,s,_,at_,made,rfl,kept,?_,map_set_text at_ kept ?_⟩
    · rw [own,start,Nat.add_comm]
      refine List.getElem?_set_self ?_
      unfold zeroOff at start
      omega
    · intro j t other atT
      have memberT := List.mem_of_getElem? atT
      obtain ⟨b₀,foundT,-⟩ := good.get memberT
      have away := buf_ne_of_sole good bounded at_ found sole other atT
      have foundT' : Heap.get (m.heap.set s.buf (some ⟨b.use,b.buf.set s.len 0⟩)) t.buf = some b₀ := by rw [get',if_neg away,foundT]
      exact text_of_buf (good.windows t memberT) foundT foundT' rfl

end

/-- After a run in which the references to a buffer fit in its count, `toCString` returns the characters of the string with
    the null character after them, and changes no string, exactly when the null character is there already, or the
    buffer has another reference, or the string starts with its buffer. -/
theorem toCString_ended_iff (ops : List Op) (m : Machine) (i : Nat) (valid : Along Op.apply Op.Valid .start ops)
    (few : Along Op.apply Op.Few .start ops) (ran : ops.foldlM Op.apply .start = some m) (inside : i < m.strs.length) :
    Ended m i ↔ Fits m i := by
  obtain ⟨good,bounded⟩ : Sound m := inv_of_run Sound.step sound_start valid few ran
  have at_ : m.strs[i]? = some m.strs[i] := List.getElem?_eq_getElem inside
  have member := List.getElem_mem inside
  obtain ⟨b,found,-⟩ := good.get member
  obtain ⟨c,here⟩ : ∃ c, b.at (m.strs[i].off + m.strs[i].len) = some c := by
    obtain ⟨fits,-,-⟩ := good.windows _ member b found
    exact at_some (by omega)
  have byte : m.heap.byte m.strs[i].buf (m.strs[i].off + m.strs[i].len) = some c := by rw [Heap.byte,found]; exact here
  have only : Fits m i ↔ b.at (m.strs[i].off + m.strs[i].len) = some 0 ∨ 2 ≤ b.use ∨ m.strs[i].off = zeroOff := by
    constructor
    · intro fits
      exact fits _ b at_ found
    · intro fits s b' atS found'
      obtain rfl : m.strs[i] = s := Option.some.inj (at_.symm.trans atS)
      obtain rfl : b = b' := Option.some.inj (found.symm.trans found')
      exact fits
  rw [only]
  by_cases null : c = 0
  · subst null
    exact ⟨fun _ => .inl here,fun _ => ended_of_null at_ byte⟩
  · have other : b.at (m.strs[i].off + m.strs[i].len) ≠ some 0 := by simpa [here] using null
    by_cases shared : 2 ≤ b.use
    · exact ⟨fun _ => .inr (.inl shared),fun _ => ended_of_shared good at_ found byte null shared⟩
    · rw [ended_sole_iff good bounded at_ found here null (by omega)]
      simp [other,shared]

/-- The start of a string that is still there. -/
theorem toCString_ended_start :
    Ended ⟨[some ⟨1,[0]⟩,some ⟨2,[97,98,0]⟩],[⟨1,2,2⟩,⟨1,2,1⟩]⟩ 1 := by
  refine (toCString_ended_iff [.chars [97,98],.substring 0 0 1] _ 1 ?_ ?_ rfl (by decide)).mpr ?_
  · refine .cons (t := ⟨[some ⟨1,[0]⟩,some ⟨1,[97,98,0]⟩],[⟨1,2,2⟩]⟩) rfl (by decide : 2 < 65535) ?_
    exact .cons rfl ⟨_,rfl,by decide⟩ trivial
  · refine .cons (t := ⟨[some ⟨1,[0]⟩,some ⟨1,[97,98,0]⟩],[⟨1,2,2⟩]⟩) rfl (few_of_apply rfl (by decide)) ?_
    exact .cons rfl (few_of_apply rfl (by decide)) trivial
  · intro s b at_ found
    cases at_
    cases found
    exact .inr (.inl (Nat.le_refl 2))

/-- The substring "b" of "abc", whose string disappeared: the null character is put over the b, in place of the c. -/
theorem toc_over_character :
    let ops : List Op := [.chars [97,98,99],.substring 0 1 1,.destroy 0]
    Along Op.apply Op.Valid .start ops ∧ ∃ m, ops.foldlM Op.apply .start = some m ∧ m.strs.map (text m.heap) = [[some 98]] ∧ ¬Ended m 0 := by
  refine ⟨?_,⟨[some ⟨1,[0]⟩,some ⟨1,[97,98,99,0]⟩],[⟨1,3,1⟩]⟩,rfl,rfl,?_⟩
  · refine .cons (t := ⟨[some ⟨1,[0]⟩,some ⟨1,[97,98,99,0]⟩],[⟨1,2,3⟩]⟩) rfl (by decide : 3 < 65535) ?_
    refine .cons (t := ⟨[some ⟨1,[0]⟩,some ⟨2,[97,98,99,0]⟩],[⟨1,2,3⟩,⟨1,3,1⟩]⟩) rfl ⟨_,rfl,by decide⟩ ?_
    exact .cons rfl (by decide : 0 < 2) trivial
  · rintro ⟨s,s',h',at_,made,-,same,-,-⟩
    cases at_
    cases made
    exact absurd same (by decide)

end Otawa.Strings
