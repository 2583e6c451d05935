import Otawa.DataPurge
import Otawa.Runs
import Mathlib.Data.Fintype.Basic
import Mathlib.Data.Fintype.Sets

/-!
Dirty analysis of one set of a write-back data cache (`DirtyManager`): the blocks
that may be dirty and those that must be. A state is sound for the blocks that are
really dirty when these are between the two. `dirty_run_iff` says along which
sequences of stores, purges and joins it stays sound.
-/
namespace Otawa.Dcache
open Otawa.Cache (BlockAccess inRange)
open Otawa.Runs (Always Meets always_iff_meets)

variable {size : Nat}

/-- `DirtyManager::t`. -/
structure Dirty (size : Nat) where
  may : Finset (Fin size)
  must : Finset (Fin size)

/-- The variables of the loop over a range: the first block found, whether there was
    another one, and the state. -/
structure Scan (size : Nat) where
  first : Option (Fin size)
  many : Bool
  d : Dirty size

def storeTurn (ranged : Fin size → Bool) (scan : Scan size) (i : Fin size) : Scan size :=
  if ranged i then
    match scan.first with
    | none => { scan with first := some i }
    | some _ => { scan with many := true, d := { scan.d with may := insert i scan.d.may } }
  else scan

def storeRange (ranged : Fin size → Bool) (d : Dirty size) : Dirty size :=
  let scan := (List.finRange size).foldl (storeTurn ranged) ⟨none,false,d⟩
  match scan.first with
  | none => scan.d
  | some first =>
    let d := { scan.d with may := insert first scan.d.may }
    if !scan.many then { d with must := insert first d.must } else d

/-- One turn of the loop for a purged range, which has its own `first` and `many`. -/
def purgeTurn (ranged : Fin size → Bool) (d : Dirty size) (i : Fin size) : Dirty size :=
  let first : Option (Fin size) := none
  let many := false
  let first := if ranged i then (if first = none then some i else first) else first
  match first with
  | none => d
  | some first =>
    let d := { d with must := d.must.erase first }
    if !many then { d with may := d.may.erase first } else d

def purgeRange (ranged : Fin size → Bool) (d : Dirty size) : Dirty size := (List.finRange size).foldl (purgeTurn ranged) d

/-- `DirtyManager::update` for the collection of a set, given the addresses of its
    blocks; `none` for a block out of the collection. -/
def updateDirty (set : Nat) (address : Fin size → Nat) (d : Dirty size) (action : Action) (acc : BlockAccess) :
    Option (Dirty size) :=
  match action with
  | .LOAD => some d
  | .STORE =>
    match acc with
    | .BLOCK set' index =>
      if set' = set then
        if bound : index < size then some ⟨insert ⟨index,bound⟩ d.may,insert ⟨index,bound⟩ d.must⟩ else none
      else some d
    | .RANGE first last => some (storeRange (fun i => inRange first last (address i)) d)
    | .ANY => some { d with may := Finset.univ }
  | .PURGE =>
    match acc with
    | .BLOCK set' index =>
      if set' = set then
        if bound : index < size then some ⟨d.may.erase ⟨index,bound⟩,d.must.erase ⟨index,bound⟩⟩ else none
      else some d
    | .RANGE first last => some (purgeRange (fun i => inRange first last (address i)) d)
    | .ANY => some { d with must := ∅ }

/-- `join`. -/
def joinDirty (d s : Dirty size) : Dirty size := ⟨d.may ∪ s.may,d.must ∩ s.must⟩

/-! ### The loops -/

variable (ranged : Fin size → Bool)

private theorem scan_some (l : List (Fin size)) (first : Fin size) (many : Bool) (d : Dirty size) :
    l.foldl (storeTurn ranged) ⟨some first,many,d⟩ =
      ⟨some first,many || !(l.filter ranged).isEmpty,{ d with may := d.may ∪ (l.filter ranged).toFinset }⟩ := by
  induction l generalizing many d with
  | nil => simp
  | cons i rest ih =>
    rw [List.foldl_cons]
    by_cases here : ranged i = true
    · rw [storeTurn,if_pos here]
      dsimp only
      rw [ih]
      simp [here]
    · rw [storeTurn,if_neg here,ih]
      simp [here]

private theorem scan_none (l : List (Fin size)) (d : Dirty size) :
    l.foldl (storeTurn ranged) ⟨none,false,d⟩ =
      match l.filter ranged with
      | [] => ⟨none,false,d⟩
      | first :: rest => ⟨some first,!rest.isEmpty,{ d with may := d.may ∪ rest.toFinset }⟩ := by
  induction l with
  | nil => rfl
  | cons i rest ih =>
    rw [List.foldl_cons]
    by_cases here : ranged i = true
    · rw [storeTurn,if_pos here]
      dsimp only
      rw [scan_some]
      simp [here]
    · rw [storeTurn,if_neg here,ih,List.filter_cons_of_neg here]

/-- The blocks of the collection that pass the test. -/
def inside (ranged : Fin size → Bool) : Finset (Fin size) := ((List.finRange size).filter ranged).toFinset

theorem mem_inside {ranged : Fin size → Bool} {i : Fin size} : i ∈ inside ranged ↔ ranged i = true := by
  simp [inside]

theorem storeRange_may (d : Dirty size) :
    (storeRange ranged d).may = d.may ∪ inside ranged := by
  unfold storeRange inside
  rw [scan_none]
  cases (List.finRange size).filter ranged with
  | nil => simp
  | cons first rest =>
    dsimp only
    split <;> simp [Finset.union_insert]

theorem mem_storeRange_must {ranged : Fin size → Bool} {d : Dirty size} {i : Fin size} :
    i ∈ (storeRange ranged d).must ↔ i ∈ d.must ∨ inside ranged = {i} := by
  have distinct : ((List.finRange size).filter ranged).Nodup := (List.nodup_finRange size).filter _
  unfold storeRange inside
  rw [scan_none]
  cases found : (List.finRange size).filter ranged with
  | nil => simp
  | cons first rest =>
    cases rest with
    | nil => simp [eq_comm,or_comm]
    | cons second rest =>
      have several : ¬ insert first (insert second rest.toFinset) = {i} := by
        intro single
        have left : first = i := Finset.mem_singleton.mp (single ▸ by simp)
        have right : second = i := Finset.mem_singleton.mp (single ▸ by simp)
        rw [found,left,right] at distinct
        simp at distinct
      simp [several]

private theorem purge_scan (l : List (Fin size)) (d : Dirty size) :
    l.foldl (purgeTurn ranged) d =
      ⟨d.may \ (l.filter ranged).toFinset,d.must \ (l.filter ranged).toFinset⟩ := by
  induction l generalizing d with
  | nil => simp
  | cons i rest ih =>
    rw [List.foldl_cons,ih]
    by_cases here : ranged i = true
    · simp [purgeTurn,here,Finset.sdiff_insert,Finset.erase_sdiff_comm]
    · simp [purgeTurn,here]

theorem purgeRange_eq (d : Dirty size) :
    purgeRange ranged d = ⟨d.may \ inside ranged,d.must \ inside ranged⟩ := purge_scan ranged _ d

/-! ### Soundness -/

variable {B : Type*} [DecidableEq B]

/-- The really dirty blocks are among those that may be, and hold those that must be. -/
def SoundDirty (d : Dirty size) (real : Finset (Fin size)) : Prop := real ⊆ d.may ∧ d.must ⊆ real

/-- The blocks of the collection that are dirty once a block of memory was touched. -/
def touch (names : Fin size ↪ B) (action : Action) (x : B) (real : Finset (Fin size)) : Finset (Fin size) :=
  match action with
  | .LOAD => real
  | .STORE => real ∪ Finset.univ.filter fun i => names i = x
  | .PURGE => real.filter fun i => names i ≠ x

def MayTouch (names : Fin size ↪ B) (address : B → Nat) (set : Nat) (x : B) : BlockAccess → Prop
  | .BLOCK set' index => if set' = set then ∃ i : Fin size, i.val = index ∧ x = names i else ∀ i, names i ≠ x
  | .RANGE first last => InSets first last (address x)
  | .ANY => True

/-- The steps of the analysis. -/
inductive DirtyOp (size : Nat)
  | access (action : Action) (acc : BlockAccess)
  | join (s : Dirty size)

/-- A step of the analysis with what happens in the cache. -/
def DirtyStep (names : Fin size ↪ B) (address : B → Nat) (set : Nat) (p : Dirty size × Finset (Fin size))
    (op : DirtyOp size) (q : Dirty size × Finset (Fin size)) : Prop :=
  match op with
  | .access action acc =>
    updateDirty set (fun i => address (names i)) p.1 action acc = some q.1 ∧
      ∃ x, MayTouch names address set x acc ∧ q.2 = touch names action x p.2
  | .join s => (q.1 = joinDirty p.1 s ∨ q.1 = joinDirty s p.1) ∧ q.2 = p.2

/-- The condition under which a step stays sound: a store to a range that seems to
    hold one block of the collection finds it dirty or can touch no other, and a
    purge of a range can touch no other block than a dirty one it cleans. -/
def DirtyFits (names : Fin size ↪ B) (address : B → Nat) (p : Dirty size × Finset (Fin size)) : DirtyOp size → Prop
  | .access .STORE (.RANGE first last) =>
    ∀ i, (∀ j, inRange first last (address (names j)) = true ↔ j = i) →
      i ∈ p.2 ∨ ∀ x, InSets first last (address x) → x = names i
  | .access .PURGE (.RANGE first last) =>
    ∀ i ∈ p.2, inRange first last (address (names i)) = true → ∀ x, InSets first last (address x) → x = names i
  | _ => True

section Steps
variable {names : Fin size ↪ B} {d : Dirty size} {real : Finset (Fin size)}

theorem sound_join (sound : SoundDirty d real) (s : Dirty size) :
    SoundDirty (joinDirty d s) real ∧ SoundDirty (joinDirty s d) real := by
  obtain ⟨may,must⟩ := sound
  refine ⟨⟨?_,?_⟩,?_,?_⟩
  · exact may.trans Finset.subset_union_left
  · exact Finset.inter_subset_left.trans must
  · exact may.trans Finset.subset_union_right
  · exact Finset.inter_subset_right.trans must

private theorem mem_store {x : B} {i : Fin size} : i ∈ touch names .STORE x real ↔ i ∈ real ∨ names i = x := by
  simp [touch]

private theorem mem_purge {x : B} {i : Fin size} : i ∈ touch names .PURGE x real ↔ i ∈ real ∧ names i ≠ x := by
  simp [touch]

theorem store_sound {d' : Dirty size} {x : B} (sound : SoundDirty d real)
    (may : ∀ i, i ∈ d.may ∨ names i = x → i ∈ d'.may) (must : ∀ i ∈ d'.must, i ∈ d.must ∨ names i = x) :
    SoundDirty d' (touch names .STORE x real) := by
  constructor
  · intro i dirty
    exact may i ((mem_store.mp dirty).imp (sound.1 ·) id)
  · intro i member
    exact mem_store.mpr ((must i member).imp (sound.2 ·) id)

theorem purge_sound {d' : Dirty size} {x : B} (sound : SoundDirty d real)
    (may : ∀ i ∈ real, names i ≠ x → i ∈ d'.may) (must : ∀ i ∈ d'.must, i ∈ d.must ∧ names i ≠ x) :
    SoundDirty d' (touch names .PURGE x real) := by
  constructor
  · intro i dirty
    obtain ⟨before,other⟩ := mem_purge.mp dirty
    exact may i before other
  · intro i member
    obtain ⟨before,other⟩ := must i member
    exact mem_purge.mpr ⟨sound.2 before,other⟩

variable {address : B → Nat} {first last : Nat}

private theorem store_range_exact (sound : SoundDirty d real) :
    (∀ x, InSets first last (address x) →
        SoundDirty (storeRange (fun i => inRange first last (address (names i))) d) (touch names .STORE x real)) ↔
      DirtyFits names address (d,real) (.access .STORE (.RANGE first last)) := by
  have single (i : Fin size) : inside (fun j => inRange first last (address (names j))) = {i} ↔
      ∀ j, inRange first last (address (names j)) = true ↔ j = i := by
    simp only [Finset.ext_iff,mem_inside,Finset.mem_singleton]
  constructor
  · intro kept i alone
    by_contra other
    obtain ⟨clean,x,touched,different⟩ : i ∉ real ∧ ∃ x, InSets first last (address x) ∧ x ≠ names i := by
      simpa [not_or] using other
    have member := (kept x touched).2 (mem_storeRange_must.mpr (.inr ((single i).mpr alone)))
    exact (mem_store.mp member).elim clean (different ·.symm)
  · intro fits x touched
    refine ⟨?_,?_⟩
    · intro i dirty
      rw [storeRange_may,Finset.mem_union,mem_inside]
      rcases mem_store.mp dirty with before | rfl
      · exact .inl (sound.1 before)
      · exact .inr ((inRange_iff first last _).mpr (.inl touched))
    · intro i member
      rcases mem_storeRange_must.mp member with before | alone
      · exact mem_store.mpr (.inl (sound.2 before))
      · rcases fits i ((single i).mp alone) with dirty | only
        · exact mem_store.mpr (.inl dirty)
        · exact mem_store.mpr (.inr (only x touched).symm)

private theorem purge_range_exact (sound : SoundDirty d real) :
    (∀ x, InSets first last (address x) →
        SoundDirty (purgeRange (fun i => inRange first last (address (names i))) d) (touch names .PURGE x real)) ↔
      DirtyFits names address (d,real) (.access .PURGE (.RANGE first last)) := by
  have cleaned (i : Fin size) (s : Finset (Fin size)) : i ∈ s \ inside (fun j => inRange first last (address (names j))) ↔
      i ∈ s ∧ ¬ inRange first last (address (names i)) = true := by
    rw [Finset.mem_sdiff,mem_inside]
  constructor
  · intro kept i dirty ranged x touched
    by_contra different
    have member := (kept x touched).1 (mem_purge.mpr ⟨dirty,Ne.symm different⟩)
    rw [purgeRange_eq,cleaned] at member
    exact member.2 ranged
  · intro fits x touched
    rw [purgeRange_eq]
    refine purge_sound sound ?_ ?_
    · intro i dirty other
      refine (cleaned i _).mpr ⟨sound.1 dirty,fun ranged => ?_⟩
      exact other (fits i dirty ranged x touched).symm
    · intro i member
      obtain ⟨before,outside⟩ := (cleaned i _).mp member
      refine ⟨before,?_⟩
      rintro rfl
      exact outside ((inRange_iff first last _).mpr (.inl touched))

private theorem block_sound {set set' index : Nat} {action : Action} {q : Dirty size × Finset (Fin size)}
    (sound : SoundDirty d real)
    (step : DirtyStep names address set (d,real) (.access action (.BLOCK set' index)) q) : SoundDirty q.1 q.2 := by
  obtain ⟨d',real'⟩ := q
  obtain ⟨updated,x,touched,rfl⟩ := step
  dsimp only at updated touched ⊢
  by_cases here : set' = set
  · rw [MayTouch,if_pos here] at touched
    obtain ⟨k,rfl,rfl⟩ := touched
    cases action with
    | LOAD =>
      cases updated
      exact sound
    | STORE =>
      simp only [updateDirty,if_pos here,k.isLt,↓reduceDIte,Option.some.injEq] at updated
      subst updated
      refine store_sound sound ?_ ?_
      · rintro i (may | same)
        · exact Finset.mem_insert_of_mem may
        · exact Finset.mem_insert.mpr (.inl (names.injective same))
      · intro i member
        rcases Finset.mem_insert.mp member with rfl | must
        · exact .inr rfl
        · exact .inl must
    | PURGE =>
      simp only [updateDirty,if_pos here,k.isLt,↓reduceDIte,Option.some.injEq] at updated
      subst updated
      refine purge_sound sound ?_ ?_
      · intro i dirty other
        exact Finset.mem_erase.mpr ⟨fun same => other (congrArg names same),sound.1 dirty⟩
      · intro i member
        obtain ⟨other,must⟩ := Finset.mem_erase.mp member
        exact ⟨must,fun same => other (names.injective same)⟩
  · rw [MayTouch,if_neg here] at touched
    cases action with
    | LOAD =>
      cases updated
      exact sound
    | STORE =>
      simp only [updateDirty,if_neg here,Option.some.injEq] at updated
      subst updated
      exact store_sound sound (fun i known => known.resolve_right (touched i)) fun i must => .inl must
    | PURGE =>
      simp only [updateDirty,if_neg here,Option.some.injEq] at updated
      subst updated
      exact purge_sound sound (fun i dirty _ => sound.1 dirty) fun i must => ⟨must,touched i⟩

private theorem steps_iff {set : Nat} {action : Action} {acc : BlockAccess} {d' : Dirty size}
    (updated : updateDirty set (fun i => address (names i)) d action acc = some d') :
    (∀ q, DirtyStep names address set (d,real) (.access action acc) q → SoundDirty q.1 q.2) ↔
      ∀ x, MayTouch names address set x acc → SoundDirty d' (touch names action x real) := by
  constructor
  · intro kept x touched
    exact kept (d',touch names action x real) ⟨updated,x,touched,rfl⟩
  · rintro kept ⟨t,real'⟩ ⟨other,x,touched,same⟩
    dsimp only at other same ⊢
    cases updated.symm.trans other
    rw [same]
    exact kept x touched

end Steps

variable {names : Fin size ↪ B} {address : B → Nat} {set : Nat}

theorem dirtyStep_exact (p : Dirty size × Finset (Fin size)) (op : DirtyOp size) (sound : SoundDirty p.1 p.2) :
    (∀ q, DirtyStep names address set p op q → SoundDirty q.1 q.2) ↔ DirtyFits names address p op := by
  obtain ⟨d,real⟩ := p
  cases op with
  | join s =>
    refine iff_of_true ?_ trivial
    rintro ⟨d',real'⟩ ⟨joined,kept⟩
    dsimp only at joined kept ⊢
    rcases joined with same | same <;> rw [same,kept]
    · exact (sound_join sound s).1
    · exact (sound_join sound s).2
  | access action acc =>
    cases acc with
    | BLOCK set' index =>
      refine iff_of_true (fun q step => block_sound sound step) ?_
      cases action <;> trivial
    | ANY =>
      cases action with
      | LOAD => exact iff_of_true ((steps_iff rfl).mpr fun _ _ => sound) trivial
      | STORE =>
        refine iff_of_true ((steps_iff rfl).mpr fun x _ => ?_) trivial
        exact store_sound sound (fun i _ => Finset.mem_univ i) fun i must => .inl must
      | PURGE =>
        refine iff_of_true ((steps_iff rfl).mpr fun x _ => ?_) trivial
        exact purge_sound sound (fun i dirty _ => sound.1 dirty) fun i must => absurd must (Finset.notMem_empty i)
    | RANGE first last =>
      cases action with
      | LOAD => exact iff_of_true ((steps_iff rfl).mpr fun _ _ => sound) trivial
      | STORE => exact (steps_iff rfl).trans (store_range_exact sound)
      | PURGE => exact (steps_iff rfl).trans (purge_range_exact sound)

/-- A state stays sound in exactly the runs whose stores and purges of ranges meet
    the condition, whatever blocks the accesses touch. -/
theorem dirty_run_iff {d : Dirty size} {real : Finset (Fin size)} (sound : SoundDirty d real) (ops : List (DirtyOp size)) :
    Always (DirtyStep names address set) (fun p => SoundDirty p.1 p.2) (d,real) ops ↔
      Meets (DirtyStep names address set) (DirtyFits names address) (d,real) ops :=
  always_iff_meets dirtyStep_exact sound ops

def twoBlocks : Fin 2 ↪ Nat := Fin.valEmbedding
def at16 (x : Nat) : Nat := 16 * x

def bothDirty : Dirty 2 := ⟨Finset.univ,Finset.univ⟩

theorem sound_bothDirty : SoundDirty bothDirty Finset.univ := ⟨Finset.Subset.refl _,Finset.Subset.refl _⟩

/-- A store to block 0, a join with two dirty blocks, and a store and a purge that only
    block 1 is in the range of. -/
def storePurge : List (DirtyOp 2) :=
  [.access .STORE (.BLOCK 0 0),.join bothDirty,.access .STORE (.RANGE 8 24),.access .PURGE (.RANGE 8 24)]

theorem dirty_run_iff_storePurge :
    Always (DirtyStep twoBlocks at16 0) (fun p => SoundDirty p.1 p.2) (⟨∅,∅⟩,∅) storePurge := by
  refine (dirty_run_iff ⟨Finset.empty_subset _,Finset.empty_subset _⟩ storePurge).mpr fun before op inside t _ => ?_
  have only (x : Nat) (within : InSets 8 24 (at16 x)) : x = 1 := by
    rw [InSets,if_pos (by decide)] at within
    unfold at16 at within
    omega
  have listed : op ∈ storePurge := inside.subset (by simp)
  simp only [storePurge,List.mem_cons,List.not_mem_nil,or_false] at listed
  rcases listed with rfl | rfl | rfl | rfl
  · trivial
  · trivial
  · intro i alone
    obtain rfl : 1 = i := (alone 1).mp (by decide)
    exact .inr only
  · intro i _ ranged x within
    have second : ∀ i, inRange 8 24 (at16 (twoBlocks i)) = true → i = 1 := by decide
    exact (second i ranged) ▸ only x within

/-- The purge of one of two dirty blocks cleans both in the state. -/
theorem purge_cleans_both :
    SoundDirty bothDirty Finset.univ ∧
      ¬ Always (DirtyStep twoBlocks at16 0) (fun p => SoundDirty p.1 p.2) (bothDirty,Finset.univ)
        [.access .PURGE (.RANGE 0 16)] := by
  refine ⟨sound_bothDirty,?_⟩
  intro always
  have touched : InSets 0 16 (at16 0) := by
    rw [InSets,if_pos (by decide)]
    decide
  have step : DirtyStep twoBlocks at16 0 (bothDirty,Finset.univ) (.access .PURGE (.RANGE 0 16))
      (purgeRange (fun i => inRange 0 16 (at16 (twoBlocks i))) bothDirty,touch twoBlocks .PURGE 0 Finset.univ) :=
    ⟨rfl,0,touched,rfl⟩
  have sound := always _ (List.prefix_refl _) _ ⟨_,step,rfl⟩
  have lost : (1 : Fin 2) ∈ (purgeRange (fun i => inRange 0 16 (at16 (twoBlocks i))) bothDirty).may :=
    sound.1 (by decide)
  exact absurd lost (by decide)

end Otawa.Dcache
