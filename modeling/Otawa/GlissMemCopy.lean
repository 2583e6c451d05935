import Otawa.GlissMem

/-!
The copy of a memory of `fast_mem` (`gliss_mem_copy`). The loop on the lists of
a secondary table takes its list with the index of the primary table: only the
lists on the diagonal of the two tables are copied, and from the seventeenth
secondary table on the access is out of the table. What is copied is apart from
the original.
-/
namespace Otawa.GlissMem.Fast

open Paged Runs

/-! ### The code -/

def copyEntry (target : State UInt8 Memory) (pte : Entry) : Option (State UInt8 Memory) :=
  (target.heap[pte.storage]?).bind fun bytes => write target pte.addr bytes

/-- The loop on the lists of a secondary table, with the index of the primary one; no result out of the table. -/
def copyTable (i : Fin 4096) (secondary : Fin 16 → List Entry) (target : State UInt8 Memory) : Option (State UInt8 Memory) :=
  (List.range 16).foldlM
    (fun target _ => if inside : i.val < 16 then (secondary ⟨i.val,inside⟩).foldlM copyEntry target else none) target

def copy (memory : State UInt8 Memory) : Option (State UInt8 Memory) :=
  (List.finRange 4096).foldlM
    (fun target i =>
      match memory.table.primary i with
      | none => some target
      | some secondary => copyTable i secondary target)
    ⟨memory.heap,new⟩

def list (m : Memory) (i : Fin 4096) : List Entry :=
  match m.primary i with
  | none => []
  | some secondary => (List.range 16).flatMap fun _ => if inside : i.val < 16 then secondary ⟨i.val,inside⟩ else []

def visited (m : Memory) : List Entry := (List.finRange 4096).flatMap (list m)

theorem foldlM_flatMap {α β σ : Type} (f : σ → β → Option σ) (g : α → List β) (items : List α) (s : σ) :
    items.foldlM (fun s a => (g a).foldlM f s) s = (items.flatMap g).foldlM f s := by
  induction items generalizing s with
  | nil => rfl
  | cons a items ih =>
    rw [List.foldlM_cons,List.flatMap_cons,List.foldlM_append]
    exact bind_congr ih

variable {memory : State UInt8 Memory}

theorem copy_eq (inside : ∀ i secondary, memory.table.primary i = some secondary → i.val < 16) :
    copy memory = (visited memory.table).foldlM copyEntry ⟨memory.heap,new⟩ := by
  rw [visited,← foldlM_flatMap,copy]
  congr 1
  funext target i
  rw [list]
  cases found : memory.table.primary i with
  | none => rfl
  | some secondary =>
    simp only [copyTable]
    rw [← foldlM_flatMap]
    simp only [dif_pos (inside i secondary found)]

theorem copy_eq_none {i : Fin 4096} {secondary : Fin 16 → List Entry} (found : memory.table.primary i = some secondary)
    (outside : ¬i.val < 16) : copy memory = none := by
  obtain ⟨before,after,split⟩ := List.append_of_mem (List.mem_finRange i)
  have table (target : State UInt8 Memory) : copyTable i secondary target = none := by
    rw [copyTable,List.range_succ_eq_map,List.foldlM_cons,dif_neg outside]
    rfl
  rw [copy,split,List.foldlM_append]
  refine Option.bind_eq_none_iff.mpr fun target _ => ?_
  rw [List.foldlM_cons,found]
  simp only [table]
  rfl

theorem mem_visited {m : Memory} {pte : Entry} :
    pte ∈ visited m ↔ ∃ i secondary, m.primary i = some secondary ∧ ∃ inside : i.val < 16, pte ∈ secondary ⟨i.val,inside⟩ := by
  simp only [visited,List.mem_flatMap]
  constructor
  · rintro ⟨i,-,member⟩
    rw [list] at member
    split at member
    next => exact absurd member List.not_mem_nil
    next secondary found =>
      obtain ⟨-,-,member⟩ := List.mem_flatMap.mp member
      split at member
      next inside => exact ⟨i,secondary,found,inside,member⟩
      next => exact absurd member List.not_mem_nil
  · rintro ⟨i,secondary,found,inside,member⟩
    refine ⟨i,List.mem_finRange i,?_⟩
    rw [list,found]
    refine List.mem_flatMap.mpr ⟨0,by simp,?_⟩
    rw [dif_pos inside]
    exact member

theorem Valid.lookup_eq {m : Memory} (valid : Valid m) {i : Fin 4096} {secondary : Fin 16 → List Entry} (found : m.primary i = some secondary)
    {j : Fin 16} {pte : Entry} (member : pte ∈ secondary j) :
    ∃ p, pte.addr = p * pageSize ∧ lookup m p = some pte.storage ∧ i.val = p % 4096 ∧ j.val = p / 4096 % 16 := by
  obtain ⟨p,addr,rfl,rfl⟩ := valid.placed i secondary found j pte member
  refine ⟨p,addr,?_,?_,?_⟩
  · have distinct := valid.distinct _ secondary found (hash2 pte.addr)
    rw [lookup,searchPage_eq,secondaryTable,← addr,found]
    obtain ⟨before,after,split⟩ := List.append_of_mem member
    rw [Option.getD_some,split,List.find?_append]
    rw [split,List.map_append,List.map_cons] at distinct
    have earlier : before.find? (fun other => other.addr == pte.addr) = none := by
      rw [List.find?_eq_none]
      intro other inside same
      rw [List.nodup_append] at distinct
      exact distinct.2.2 _ (List.mem_map_of_mem inside) _ List.mem_cons_self (beq_iff_eq.mp same)
    rw [earlier]
    simp
  · rw [hash1,addr,mul_div_pageSize]
    rfl
  · rw [hash2,addr,mul_div_pageSize]
    rfl

/-! ### What is copied -/

structure Copying (memory target : State UInt8 Memory) : Prop where
  copied : paging.Inv target
  original : paging.Inv ⟨target.heap,memory.table⟩
  separate : paging.Separate target.table memory.table
  kept : ∀ p b, lookup memory.table p = some b → target.heap[b]? = memory.heap[b]?

theorem copyEntry_spec {memory t : State UInt8 Memory} (copying : Copying memory t) {pte : Entry} {p : Nat} (addr : pte.addr = p * pageSize)
    (owned : lookup memory.table p = some pte.storage) :
    ∃ t', copyEntry t pte = some t' ∧ Copying memory t' ∧
      ∀ x, paging.flat false t' x = if pte.addr = x / pageSize * pageSize then paging.flat false memory x else paging.flat false t x := by
  have inside : pte.storage < t.heap.length := copying.original.inside p _ owned
  obtain ⟨page,found⟩ : ∃ page, t.heap[pte.storage]? = some page := ⟨_,List.getElem?_eq_getElem inside⟩
  have full : page.length = pageSize := copying.original.full page (List.mem_of_getElem? found)
  have start : pte.addr % pageSize = 0 := by rw [addr,Nat.mul_mod_left]
  have room : pte.addr % pageSize + page.length ≤ pageSize := by omega
  obtain ⟨t',stored,inv,flat,extends'⟩ := paging.store_spec false copying.copied pte.addr page room
  obtain ⟨source,separate,kept,-⟩ := Paging.Extends.other false extends' inv copying.original copying.separate
  refine ⟨t',?_,⟨inv,source,separate,fun q b old => (kept q b old).trans (copying.kept q b old)⟩,fun x => ?_⟩
  · rw [copyEntry,found,Option.bind_some,write,if_pos (by rw [full]; decide),paging.write_eq_store space t room,stored]
  · have split := Nat.div_add_mod x pageSize
    have small : x % pageSize < pageSize := Nat.mod_lt x (by decide)
    rw [flat,overwrite]
    by_cases here : pte.addr = x / pageSize * pageSize
    · have same : p = x / pageSize := Nat.eq_of_mul_eq_mul_right (by decide) (addr.symm.trans here)
      subst same
      rw [Nat.mul_comm] at split
      rw [if_pos (by omega),if_pos here,show x - pte.addr = x % pageSize by omega,Paging.flat]
      change _ = ((lookup memory.table (x / pageSize)).bind _).getD 0
      rw [owned,Option.bind_some,← copying.kept _ _ owned,found,Option.bind_some]
      change _ = (page[x % pageSize]?).getD 0
      rw [List.getElem?_eq_getElem (by omega)]
      rfl
    · rw [if_neg here]
      have beyond : (if pte.addr ≤ x then page[x - pte.addr]? else none) = none := by
        split
        next after =>
          refine List.getElem?_eq_none ?_
          by_contra few
          refine here ?_
          have inside : pte.addr % pageSize + (x - pte.addr) < pageSize := by omega
          have := (div_mod_add inside).1
          rw [Nat.add_sub_cancel' after] at this
          rw [this,addr,mul_div_pageSize]
        next => rfl
      rw [beyond,Option.getD_none]

theorem copyEntries_spec {memory t : State UInt8 Memory} (copying : Copying memory t) (entries : List Entry)
    (owned : ∀ pte ∈ entries, ∃ p, pte.addr = p * pageSize ∧ lookup memory.table p = some pte.storage) :
    ∃ t', entries.foldlM copyEntry t = some t' ∧ Copying memory t' ∧
      ∀ x, ((∃ pte ∈ entries, pte.addr = x / pageSize * pageSize) → paging.flat false t' x = paging.flat false memory x) ∧
        ((∀ pte ∈ entries, pte.addr ≠ x / pageSize * pageSize) → paging.flat false t' x = paging.flat false t x) := by
  induction entries generalizing t with
  | nil => exact ⟨t,rfl,copying,fun x => ⟨fun ⟨pte,member,_⟩ => absurd member List.not_mem_nil,fun _ => rfl⟩⟩
  | cons pte entries ih =>
    obtain ⟨p,addr,here⟩ := owned pte List.mem_cons_self
    obtain ⟨t1,copied,copying1,flat1⟩ := copyEntry_spec copying addr here
    obtain ⟨t2,rest,copying2,flat2⟩ := ih copying1 fun other member => owned other (List.mem_cons_of_mem pte member)
    refine ⟨t2,by rw [List.foldlM_cons,copied]; exact rest,copying2,fun x => ⟨?_,?_⟩⟩
    · rintro ⟨other,member,same⟩
      by_cases later : ∃ other ∈ entries, other.addr = x / pageSize * pageSize
      · exact (flat2 x).1 later
      · rcases List.mem_cons.mp member with rfl | member
        · rw [(flat2 x).2 (fun other member same => later ⟨other,member,same⟩),flat1,if_pos same]
        · exact absurd ⟨other,member,same⟩ later
    · intro none
      rw [(flat2 x).2 (fun other member => none other (List.mem_cons_of_mem pte member)),flat1,if_neg (none pte List.mem_cons_self)]

theorem entry_of_lookup {m : Memory} {p b : Nat} (owned : lookup m p = some b) :
    ∃ secondary, m.primary (hash1 (p * pageSize)) = some secondary ∧
      ∃ pte ∈ secondary (hash2 (p * pageSize)), pte.addr = p * pageSize ∧ pte.storage = b := by
  obtain ⟨pte,searched,rfl⟩ := Option.map_eq_some_iff.mp owned
  rw [searchPage_eq] at searched
  have member := List.mem_of_find?_eq_some searched
  obtain ⟨secondary,found,eq⟩ := mem_secondaryTable member
  have same := List.find?_some searched
  exact ⟨secondary,found,pte,eq ▸ member,by simpa using same,rfl⟩

theorem hash1_page (p : Nat) : (hash1 (p * pageSize)).val = p % 4096 := by
  rw [hash1,mul_div_pageSize]
  rfl

theorem hash2_page (p : Nat) : (hash2 (p * pageSize)).val = p / 4096 % 16 := by
  rw [hash2,mul_div_pageSize]
  rfl

theorem visited_iff {m : Memory} (valid : Valid m) {p b : Nat} (owned : lookup m p = some b) :
    (∃ pte ∈ visited m, pte.addr = p * pageSize) ↔ p % 4096 < 16 ∧ p / 4096 % 16 = p % 4096 := by
  constructor
  · rintro ⟨pte,member,addr⟩
    obtain ⟨i,secondary,found,inside,member⟩ := mem_visited.mp member
    obtain ⟨q,addr',-,first,second⟩ := valid.lookup_eq found member
    obtain rfl : p = q := Nat.eq_of_mul_eq_mul_right (by decide) (addr.symm.trans addr')
    exact ⟨first ▸ inside,second.symm.trans first⟩
  · rintro ⟨small,same⟩
    obtain ⟨secondary,found,pte,member,addr,-⟩ := entry_of_lookup owned
    have first := hash1_page p
    have second := hash2_page p
    refine ⟨pte,mem_visited.mpr ⟨_,secondary,found,first ▸ small,?_⟩,addr⟩
    have index : (⟨(hash1 (p * pageSize)).val,first ▸ small⟩ : Fin 16) = hash2 (p * pageSize) := Fin.ext (first.trans (same.symm.trans second.symm))
    rwa [index]

/-- Each page of a memory is in one of the first tables, and it is on the diagonal or null. -/
def Diagonal (memory : State UInt8 Memory) : Prop :=
  ∀ p b, lookup memory.table p = some b →
    p % 4096 < 16 ∧ (p / 4096 % 16 = p % 4096 ∨ ∀ byte ∈ (memory.heap[b]?).getD [], byte = 0)

theorem flat_new (heap : List (List UInt8)) (x : Nat) : paging.flat false ⟨heap,new⟩ x = 0 := rfl

theorem copying_new (inv : paging.Inv memory) : Copying memory ⟨memory.heap,new⟩ :=
  ⟨⟨valid_new,nofun,inv.full,nofun⟩,inv,nofun,fun _ _ _ => rfl⟩

theorem flat_of_unowned {x : Nat} (unowned : lookup memory.table (x / pageSize) = none) : paging.flat false memory x = 0 := by
  change ((lookup memory.table (x / pageSize)).bind _).getD 0 = 0
  rw [unowned]
  rfl

theorem copy_spec (inv : paging.Inv memory)
    (inside : ∀ i secondary, memory.table.primary i = some secondary → i.val < 16) :
    ∃ t, copy memory = some t ∧ Copying memory t ∧ ∀ x, paging.flat false t x =
      if x / pageSize / 4096 % 16 = x / pageSize % 4096 then paging.flat false memory x else 0 := by
  have valid : Valid memory.table := inv.valid
  have owned (pte : Entry) (member : pte ∈ visited memory.table) : ∃ p, pte.addr = p * pageSize ∧ lookup memory.table p = some pte.storage := by
    obtain ⟨i,secondary,found,small,member⟩ := mem_visited.mp member
    obtain ⟨p,addr,owned,-,-⟩ := valid.lookup_eq found member
    exact ⟨p,addr,owned⟩
  obtain ⟨t,copied,copying,flat⟩ := copyEntries_spec (copying_new inv) (visited memory.table) owned
  refine ⟨t,(copy_eq inside).trans copied,copying,fun x => ?_⟩
  by_cases seen : ∃ pte ∈ visited memory.table, pte.addr = x / pageSize * pageSize
  · rw [(flat x).1 seen]
    obtain ⟨pte,member,addr⟩ := seen
    obtain ⟨p,addr',here⟩ := owned pte member
    obtain rfl : p = x / pageSize := Nat.eq_of_mul_eq_mul_right (by decide) (addr'.symm.trans addr)
    rw [if_pos ((visited_iff valid here).mp ⟨pte,member,addr⟩).2]
  · rw [(flat x).2 fun pte member addr => seen ⟨pte,member,addr⟩,flat_new]
    split
    next diagonal =>
      cases here : lookup memory.table (x / pageSize) with
      | none => exact (flat_of_unowned here).symm
      | some b =>
        obtain ⟨secondary,found,-⟩ := entry_of_lookup here
        have small := inside _ secondary found
        rw [hash1_page] at small
        exact absurd ((visited_iff valid here).mpr ⟨small,diagonal⟩) seen
    next => rfl

theorem copying_of_copy {memory t : State UInt8 Memory} (inv : paging.Inv memory) (copied : copy memory = some t) :
    Copying memory t ∧ (∀ i secondary, memory.table.primary i = some secondary → i.val < 16) ∧ ∀ x, paging.flat false t x =
      if x / pageSize / 4096 % 16 = x / pageSize % 4096 then paging.flat false memory x else 0 := by
  have inside (i : Fin 4096) (secondary : Fin 16 → List Entry) (found : memory.table.primary i = some secondary) : i.val < 16 := by
    by_contra outside
    rw [copy_eq_none found outside] at copied
    exact absurd copied nofun
  obtain ⟨t',copied',copying,flat⟩ := copy_spec inv inside
  obtain rfl : t = t' := Option.some.inj (copied.symm.trans copied')
  exact ⟨copying,inside,flat⟩

theorem flat_page {p b : Nat} {page : List UInt8} (inv : paging.Inv memory)
    (owned : lookup memory.table p = some b) (found : memory.heap[b]? = some page) :
    (∀ byte ∈ page, byte = 0) ↔ ∀ x, x / pageSize = p → paging.flat false memory x = 0 := by
  have full : page.length = pageSize := inv.full page (List.mem_of_getElem? found)
  have flat (x : Nat) (here : x / pageSize = p) : paging.flat false memory x = (page[x % pageSize]?).getD 0 := by
    change ((lookup memory.table (x / pageSize)).bind fun b => (memory.heap[b]?).bind fun page => page[x % pageSize]?).getD 0 = _
    rw [here,owned,Option.bind_some,found,Option.bind_some]
  constructor
  · intro null x here
    have small : x % pageSize < pageSize := Nat.mod_lt x (by decide)
    rw [flat x here,List.getElem?_eq_getElem (by omega)]
    exact null _ (List.getElem_mem _)
  · intro null byte member
    obtain ⟨k,below,rfl⟩ := List.mem_iff_getElem.mp member
    have start : p * pageSize % pageSize + k < pageSize := by
      rw [Nat.mul_mod_left]
      omega
    obtain ⟨here,offset⟩ := div_mod_add start
    rw [mul_div_pageSize] at here
    rw [Nat.mul_mod_left,Nat.zero_add] at offset
    have := null _ here
    rwa [flat _ here,offset,List.getElem?_eq_getElem below] at this

theorem copy_same_iff (inv : paging.Inv memory) :
    (∃ t, copy memory = some t ∧ paging.flat false t = paging.flat false memory) ↔ Diagonal memory := by
  have valid : Valid memory.table := inv.valid
  constructor
  · rintro ⟨t,copied,same⟩ p b owned
    obtain ⟨-,inside,flat⟩ := copying_of_copy inv copied
    obtain ⟨secondary,found,-⟩ := entry_of_lookup owned
    refine ⟨hash1_page p ▸ inside _ secondary found,?_⟩
    by_cases diagonal : p / 4096 % 16 = p % 4096
    · exact .inl diagonal
    · obtain ⟨page,here⟩ : ∃ page, memory.heap[b]? = some page := ⟨_,List.getElem?_eq_getElem (inv.inside p b owned)⟩
      rw [here]
      refine .inr ((flat_page inv owned here).mpr fun x page => ?_)
      rw [← same,flat,page,if_neg diagonal]
  · intro diagonal
    have inside (i : Fin 4096) (secondary : Fin 16 → List Entry) (found : memory.table.primary i = some secondary) : i.val < 16 := by
      obtain ⟨j,some⟩ := valid.used i secondary found
      obtain ⟨pte,member⟩ := List.exists_mem_of_ne_nil _ some
      obtain ⟨p,-,owned,first,-⟩ := valid.lookup_eq found member
      exact first ▸ (diagonal p _ owned).1
    obtain ⟨t,copied,copying,flat⟩ := copy_spec inv inside
    refine ⟨t,copied,funext fun x => ?_⟩
    rw [flat]
    split
    next => rfl
    next other =>
      cases owned : lookup memory.table (x / pageSize) with
      | some b =>
        obtain ⟨page,found⟩ : ∃ page, memory.heap[b]? = some page := ⟨_,List.getElem?_eq_getElem (inv.inside _ b owned)⟩
        have null := (diagonal _ b owned).2.resolve_left other
        rw [found] at null
        exact ((flat_page inv owned found).mp null x rfl).symm
      | none => exact (flat_of_unowned owned).symm

section
variable (host target : Endian)

def apply (s : State UInt8 Memory) (op : Op) : Option (State UInt8 Memory) := (step host target s op).map Prod.snd

def readByte (s : State UInt8 Memory) (x : Nat) : Option Nat := (read8 host s x).map Prod.fst

/-- Two memories, each with its blocks in the heap of the program. -/
structure Pair where
  heap : List (List UInt8)
  memories : Bool → Memory

def Pair.apply (pair : Pair) (op : Bool × Op) : Option Pair :=
  (Fast.apply host target ⟨pair.heap,pair.memories op.1⟩ op.2).map fun s => ⟨s.heap,Function.update pair.memories op.1 s.table⟩

/-- After any accesses to the two memories, one more in a memory does not change the bytes of the other one. -/
def Independent (pair : Pair) : Prop :=
  ∀ (ops : List (Bool × Op)) (reached : Pair), ops.foldlM (Pair.apply host target) pair = some reached →
    ∀ side op s, apply host target ⟨reached.heap,reached.memories side⟩ op = some s →
      ∀ x, readByte host ⟨s.heap,reached.memories !side⟩ x = readByte host ⟨reached.heap,reached.memories !side⟩ x

variable {host target}

theorem apply_spec {s s' : State UInt8 Memory} {op : Op} (inv : paging.Inv s) (applied : apply host target s op = some s') :
    paging.Inv s' ∧ paging.Extends s s' := by
  obtain ⟨result,stepped,rfl⟩ := Option.map_eq_some_iff.mp applied
  by_cases fits : Fits op
  · obtain ⟨answer,s',eq,inv',extends',-⟩ : Refines paging false target s op (step host target s op) := step_spec inv fits
    obtain rfl := Option.some.inj (stepped.symm.trans eq)
    exact ⟨inv',extends'⟩
  · rw [step_eq_none fits] at stepped
    exact absurd stepped nofun

theorem inv_of_reached {ops : List Op} {s t : State UInt8 Memory} (inv : paging.Inv s) (reached : ops.foldlM (apply host target) s = some t) :
    paging.Inv t := by
  induction ops generalizing s with
  | nil =>
    obtain rfl := Option.some.inj reached
    exact inv
  | cons op ops ih =>
    rw [List.foldlM_cons] at reached
    obtain ⟨u,applied,rest⟩ := Option.bind_eq_some_iff.mp reached
    exact ih (apply_spec inv applied).1 rest

theorem readByte_eq {s : State UInt8 Memory} (inv : paging.Inv s) (x : Nat) : readByte host s x = some (paging.flat false s x).toNat := by
  obtain ⟨s',loaded,-⟩ := paging.load_spec false inv x 1 (one_in_page x)
  rw [readByte,read8,loaded]
  cases host <;> simp [slice,valueOf]

theorem readByte_eq_iff {s t : State UInt8 Memory} (invS : paging.Inv s) (invT : paging.Inv t) :
    (∀ x, readByte host t x = readByte host s x) ↔ paging.flat false t = paging.flat false s := by
  constructor
  · intro same
    funext x
    have := same x
    rw [readByte_eq invS,readByte_eq invT] at this
    exact UInt8.toNat_inj.mp (Option.some.inj this)
  · intro same x
    rw [readByte_eq invS,readByte_eq invT,same]

/-- Each memory is right, and they have no block in common. -/
structure Pair.Inv (pair : Pair) : Prop where
  inv : ∀ side, paging.Inv ⟨pair.heap,pair.memories side⟩
  separate : ∀ side, paging.Separate (pair.memories side) (pair.memories !side)

theorem Pair.apply_spec {pair : Pair} {side : Bool} {op : Op} {s : State UInt8 Memory} (inv : pair.Inv)
    (applied : Fast.apply host target ⟨pair.heap,pair.memories side⟩ op = some s) :
    Pair.Inv ⟨s.heap,Function.update pair.memories side s.table⟩ ∧
      ∀ x, readByte host ⟨s.heap,pair.memories !side⟩ x = readByte host ⟨pair.heap,pair.memories !side⟩ x := by
  obtain ⟨inv',extends'⟩ := Fast.apply_spec (inv.inv side) applied
  obtain ⟨other,separate,-,flat⟩ := Paging.Extends.other false extends' inv' (inv.inv !side) (inv.separate side)
  have updated : Function.update pair.memories side s.table (!side) = pair.memories (!side) := Function.update_of_ne (by simp) _ _
  refine ⟨⟨fun x => ?_,fun x => ?_⟩,(readByte_eq_iff (inv.inv !side) other).mpr flat⟩
  · rcases Bool.eq_or_eq_not x side with rfl | rfl
    · simpa using inv'
    · simpa [updated] using other
  · rcases Bool.eq_or_eq_not x side with rfl | rfl
    · simpa [updated] using separate
    · simpa [updated] using separate.symm

theorem Pair.Inv.independent {pair : Pair} (inv : pair.Inv) : Independent host target pair := by
  intro ops
  induction ops generalizing pair with
  | nil =>
    intro reached eq side op s applied
    obtain rfl := Option.some.inj eq
    exact (Pair.apply_spec inv applied).2
  | cons first ops ih =>
    intro reached eq
    rw [List.foldlM_cons] at eq
    obtain ⟨next,applied,rest⟩ := Option.bind_eq_some_iff.mp eq
    obtain ⟨s,accessed,rfl⟩ := Option.map_eq_some_iff.mp applied
    exact ih (Pair.apply_spec inv accessed).1 reached rest

end

theorem Copying.flat_original {memory t : State UInt8 Memory} (copying : Copying memory t) :
    paging.flat false ⟨t.heap,memory.table⟩ = paging.flat false memory := by
  funext x
  change ((lookup memory.table (x / pageSize)).bind fun b => (t.heap[b]?).bind _).getD 0 = ((lookup memory.table (x / pageSize)).bind _).getD 0
  cases owned : lookup memory.table (x / pageSize) with
  | none => rfl
  | some b => rw [Option.bind_some,copying.kept _ b owned]; rfl

def together (memory t : State UInt8 Memory) : Pair := ⟨t.heap,fun copied => if copied then t.table else memory.table⟩

theorem Copying.together {memory t : State UInt8 Memory} (copying : Copying memory t) : (together memory t).Inv := by
  constructor
  · intro side
    cases side with
    | false => exact copying.original
    | true => exact copying.copied
  · intro side
    cases side with
    | false => exact copying.separate.symm
    | true => exact copying.separate

/-- A memory that accesses make is copied, with the same bytes in both and each apart from the other, exactly when its
    pages are in the first tables and the ones that are not null are on the diagonal. -/
theorem copy_right_iff (host target : Endian) (ops : List Op) (s : State UInt8 Memory) (reached : ops.foldlM (apply host target) start = some s) :
    (∃ t, copy s = some t ∧ (∀ x, readByte host t x = readByte host s x) ∧ (∀ x, readByte host ⟨t.heap,s.table⟩ x = readByte host s x) ∧
      Independent host target (together s t)) ↔ Diagonal s := by
  have inv : paging.Inv s := inv_of_reached start_spec.1 reached
  constructor
  · rintro ⟨t,copied,same,-,-⟩
    obtain ⟨copying,-⟩ := copying_of_copy inv copied
    exact (copy_same_iff inv).mp ⟨t,copied,(readByte_eq_iff inv copying.copied).mp same⟩
  · intro diagonal
    obtain ⟨t,copied,same⟩ := (copy_same_iff inv).mpr diagonal
    obtain ⟨copying,-⟩ := copying_of_copy inv copied
    exact ⟨t,copied,(readByte_eq_iff inv copying.copied).mpr same,(readByte_eq_iff inv copying.original).mpr copying.flat_original,
      copying.together.independent⟩

/-- A byte in the first page. -/
theorem copy_right_iff_byte :
    let s : State UInt8 Memory := ⟨[splice 5 [7] (List.replicate pageSize 0)],new.push ⟨0 * pageSize,0⟩⟩
    (∃ t, copy s = some t ∧ (∀ x, readByte .little t x = readByte .little s x) ∧ (∀ x, readByte .little ⟨t.heap,s.table⟩ x = readByte .little s x) ∧
      Independent .little .big (together s t)) ∧ Diagonal s := by
  intro s
  have right := copy_right_iff .little .big [.writeInt .byte 5 7] s rfl
  have diagonal : Diagonal s := by
    intro p b owned
    change lookup (new.push ⟨0 * pageSize,0⟩) p = some b at owned
    rw [lookup_push] at owned
    split at owned
    next same => simp [same]
    next => exact absurd owned nofun
  exact ⟨right.mpr diagonal,diagonal⟩

/-- A byte in the page 16, whose copy goes out of a table, and one in the page 1, which is not copied. -/
theorem copy_wrong :
    (([Op.writeInt .byte 65536 7].foldlM (apply .little .little) start).map fun s => (copy s).isNone) = some true ∧
      (([Op.writeInt .byte 4096 7].foldlM (apply .little .little) start).bind fun s =>
        (copy s).map fun t => (readByte .little s 4096,readByte .little t 4096)) = some (some 7,some 0) := by
  constructor
  · decide +kernel
  · decide +kernel

end Otawa.GlissMem.Fast
