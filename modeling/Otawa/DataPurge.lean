import Otawa.DataAccess
import Mathlib.Data.List.Forall2

/-!
Purges in the persistence analysis of the data cache (`PERSProblem::purge`). A purge
of a block reads the number of its set where the index of the block was meant, and
`inRange` takes every set for a range that is not ascending; `purge_exact_iff` says
when the right blocks are wiped all the same.
-/
namespace Otawa.Dcache
open Otawa.Cache (BlockAccess Item Domain inRange)

variable {size A : Nat}

def items (d : Domain size A) : List (Item size A) := d.whole :: d.data

/-- `PERSProblem::purge`, `none` when an age out of the array is read. -/
def purge (line : Nat) (d : Domain size A) (acc : BlockAccess) : Option (Domain size A) :=
  let purged := { d with
    whole := purgeItem line d.whole acc
    data := d.data.map fun item => purgeItem line item acc }
  match acc with
  | .BLOCK set _ => if set = line ∧ size ≤ set then none else some purged
  | _ => some purged

def InSets (first last set : Nat) : Prop := if first ≤ last then first ≤ set ∧ set ≤ last else first ≤ set ∨ set ≤ last

def MayPurge (line : Nat) (i : Fin size) : BlockAccess → Prop
  | .BLOCK set index => set = line ∧ i.val = index
  | .RANGE first last => InSets first last line
  | .ANY => True

/-- The blocks that the access may purge are wiped if they have an age, and the
    others keep theirs. -/
def Purged (line : Nat) (acc : BlockAccess) (item item' : Item size A) : Prop :=
  ∀ i, (MayPurge line i acc → item.age i ≠ -1 → item'.age i = A) ∧
    ((¬ MayPurge line i acc ∨ item.age i = -1) → item'.age i = item.age i)

/-- Wiping the block changes nothing. -/
def Settled (item : Item size A) (i : Fin size) : Prop := item.age i = -1 ∨ item.age i = A

/-- The condition under which a purge is exact. -/
def PurgeFits (line : Nat) (d : Domain size A) : BlockAccess → Prop
  | .BLOCK set index => set = line → line < size ∧
      (index = line ∨ ∀ item ∈ items d, ∀ i : Fin size, i.val = line ∨ i.val = index → Settled item i)
  | .RANGE first last => first < last ∨ InSets first last line ∨ ∀ item ∈ items d, ∀ i, Settled item i
  | .ANY => True

private theorem wipe_age (item : Item size A) (which : Fin size → Bool) (i : Fin size) :
    (wipe item which).age i = if which i = true ∧ item.age i ≠ -1 then (A : Int) else item.age i := by
  simp [wipe]

private theorem purged_wipe {line : Nat} {acc : BlockAccess} {item : Item size A} {which : Fin size → Bool} :
    Purged line acc item (wipe item which) ↔ ∀ i, (which i = true ↔ MayPurge line i acc) ∨ Settled item i := by
  unfold Purged Settled
  apply forall_congr'
  intro i
  rw [wipe_age]
  by_cases chosen : which i = true
  · by_cases purged : MayPurge line i acc
    · simp [chosen,purged]
      omega
    · by_cases absent : item.age i = -1
      · simp [chosen,purged,absent]
      · simp [chosen,purged,absent,eq_comm]
  · by_cases purged : MayPurge line i acc
    · by_cases absent : item.age i = -1
      · simp [chosen,purged,absent]
      · simp [chosen,purged,absent]
    · simp [chosen,purged]

private theorem purged_same {line : Nat} {acc : BlockAccess} {item : Item size A} :
    Purged line acc item item ↔ ∀ i, ¬ MayPurge line i acc ∨ Settled item i := by
  unfold Purged Settled
  apply forall_congr'
  intro i
  by_cases purged : MayPurge line i acc
  · simp [purged,or_iff_not_imp_left]
  · simp [purged]

private theorem forall₂_map {α : Type*} {r : α → α → Prop} {f : α → α} {l : List α} :
    List.Forall₂ r l (l.map f) ↔ ∀ x ∈ l, r x (f x) := by
  rw [List.forall₂_map_right_iff,List.forall₂_same]

theorem inRange_iff (first last set : Nat) :
    inRange first last set = true ↔ InSets first last set ∨ last ≤ first := by
  unfold inRange InSets
  split <;> split <;> simp <;> omega

private theorem range_exact (line : Nat) (d : Domain size A) (first last : Nat) :
    (∀ item ∈ items d, Purged line (.RANGE first last) item (purgeItem line item (.RANGE first last))) ↔
      PurgeFits line d (.RANGE first last) := by
  have decided := inRange_iff first last line
  by_cases wiped : inRange first last line = true
  · have purge (item : Item size A) : purgeItem line item (.RANGE first last) = wipe item fun _ => true := by
      simp [purgeItem,wiped]
    simp only [purge,purged_wipe,true_iff]
    by_cases inside : InSets first last line
    · exact iff_of_true (fun _ _ _ => .inl inside) (.inr (.inl inside))
    · have wrapped : last ≤ first := (decided.mp wiped).resolve_left inside
      constructor
      · intro settled
        exact .inr (.inr fun item member i => (settled item member i).resolve_left inside)
      · rintro (ascending | range | settled) item member i
        · omega
        · exact .inl range
        · exact .inr (settled item member i)
  · have outside : ¬ InSets first last line ∧ ¬ last ≤ first := not_or.mp (wiped ∘ decided.mpr)
    have purge (item : Item size A) : purgeItem line item (.RANGE first last) = item := by
      simp [purgeItem,wiped]
    simp only [purge,purged_same]
    exact iff_of_true (fun _ _ _ => .inl outside.1) (.inl (by omega))

private theorem block_exact {line : Nat} (bound : line < size) (d : Domain size A) (index : Nat) :
    (∀ item ∈ items d, Purged line (.BLOCK line index) item (purgeItem line item (.BLOCK line index))) ↔
      (index = line ∨ ∀ item ∈ items d, ∀ i : Fin size, i.val = line ∨ i.val = index → Settled item i) := by
  have purge (item : Item size A) : purgeItem line item (.BLOCK line index) = wipe item fun i => i.val == line :=
    if_pos rfl
  have designated (i : Fin size) : MayPurge line i (.BLOCK line index) ↔ i.val = index := and_iff_right rfl
  simp only [purge,purged_wipe,designated,beq_iff_eq]
  by_cases same : index = line
  · subst same
    exact iff_of_true (fun _ _ _ => .inl Iff.rfl) (.inl rfl)
  · simp only [same,false_or]
    constructor
    · intro exact item member i place
      refine (exact item member i).resolve_left fun both => ?_
      rcases place with here | here
      · exact same ((both.mp here).symm.trans here)
      · exact same (here.symm.trans (both.mpr here))
    · intro settled item member i
      by_cases place : i.val = line ∨ i.val = index
      · exact .inr (settled item member i place)
      · exact .inl (iff_of_false (place ∘ .inl) (place ∘ .inr))

/-- A purge wipes exactly the blocks that the access may purge, in the item of the
    whole program and in those of the loops, exactly when it is unknown; or of a
    range that ascends or holds the set; or of a block of another set or with the
    number of its set as its index; or when what differs has no age or is wiped. -/
theorem purge_exact_iff (line : Nat) (d : Domain size A) (acc : BlockAccess) :
    (∃ t, purge line d acc = some t ∧ List.Forall₂ (Purged line acc) (items d) (items t)) ↔ PurgeFits line d acc := by
  have all (acc : BlockAccess) :
      List.Forall₂ (Purged line acc) (items d) ((items d).map fun item => purgeItem line item acc) ↔
        ∀ item ∈ items d, Purged line acc item (purgeItem line item acc) := forall₂_map
  cases acc with
  | ANY =>
    refine iff_of_true ⟨_,rfl,(all .ANY).mpr fun item _ => ?_⟩ trivial
    exact purged_wipe.mpr fun i => .inl (iff_of_true rfl trivial)
  | RANGE first last =>
    rw [← range_exact,← all]
    exact ⟨fun ⟨_,done,exact⟩ => by cases done; exact exact,fun exact => ⟨_,rfl,exact⟩⟩
  | BLOCK set index =>
    by_cases here : set = line
    · subst here
      by_cases bound : set < size
      · have fits : PurgeFits set d (.BLOCK set index) ↔
            (index = set ∨ ∀ item ∈ items d, ∀ i : Fin size, i.val = set ∨ i.val = index → Settled item i) :=
          ⟨fun fits => (fits rfl).2,fun fits _ => ⟨bound,fits⟩⟩
        rw [fits,← block_exact bound,← all]
        have done : ¬ (set = set ∧ size ≤ set) := by omega
        constructor
        · rintro ⟨t,purged,exact⟩
          rw [purge,if_neg done] at purged
          cases purged
          exact exact
        · intro exact
          exact ⟨_,if_neg done,exact⟩
      · refine iff_of_false ?_ fun fits => bound (fits rfl).1
        rintro ⟨t,done,-⟩
        simp [purge,Nat.not_lt.mp bound] at done
    · refine iff_of_true ?_ fun same => absurd same here
      have unmoved (item : Item size A) : purgeItem line item (.BLOCK set index) = item := if_neg here
      refine ⟨_,if_neg fun both => here both.1,(all _).mpr fun item _ => ?_⟩
      rw [unmoved]
      exact purged_same.mpr fun i => .inl fun purged => here purged.1

theorem twoAges_valid (i : Fin 2) : (i.val : Int) = -1 ∨ 0 ≤ (i.val : Int) ∧ (i.val : Int) ≤ 2 := .inr (by omega)
def twoAges : Item 2 2 := ⟨fun i => i.val,twoAges_valid,Nat.zero_lt_two⟩
def oneLevel : Domain 2 2 := ⟨twoAges,[twoAges],Cache.ACS.empty Nat.zero_lt_two⟩

/-- The purge of block 1 of set 0 wipes block 0. -/
theorem purge_wipes_another :
    ¬ ∀ (line : Nat) (d : Domain 2 2) (acc : BlockAccess),
      ∃ t, purge line d acc = some t ∧ List.Forall₂ (Purged line acc) (items d) (items t) := by
  intro exact
  obtain ⟨t,done,purged⟩ := exact 0 oneLevel (.BLOCK 0 1)
  cases done
  have other : ¬ MayPurge 0 (0 : Fin 2) (.BLOCK 0 1) := fun purged => absurd purged.2 (by decide)
  have kept := ((List.forall₂_cons.mp purged).1 0).2 (.inl other)
  exact absurd kept (by decide)

end Otawa.Dcache
