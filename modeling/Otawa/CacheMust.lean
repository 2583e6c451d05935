import Otawa.LruSet
import Mathlib.Logic.Relation
import Mathlib.Logic.Function.Basic

/-!
MUST analysis of one cache set. A state (`ACS`) gives each block of the collection
an age below the associativity, or -1 for a block that may be absent. The state is
sound for a concrete set when the blocks with an age are there at most that far from
the newest one; `run_sound` keeps soundness along any sequence of steps.
-/
namespace Otawa.Cache
open Otawa.LruSet (Lru Within)

/-- The blocks that the identifiers of a collection stand for; an identifier may
    stand for none, and no block has two of them. -/
structure Naming (size : Nat) (B : Type*) where
  block : Fin size → Option B
  injective : ∀ i j b, block i = some b → block j = some b → i = j

/-- Abstract cache states: ages from 0 to A-1, -1 for a block that may be absent. -/
structure ACS (size A : Nat) where
  age : Fin size → Int
  valid : ∀ i, age i = -1 ∨ 0 ≤ age i ∧ age i < A
  ways : 0 < A

/-- One turn of the ageing loops: a block is older by one, and may be absent at age A. -/
def older (A : Nat) (age : Int) : Int :=
  let aged := if age ≠ -1 then age + 1 else age
  if aged = A then -1 else aged

theorem older_valid {A : Nat} {age : Int} (valid : age = -1 ∨ 0 ≤ age ∧ age < A) :
    older A age = -1 ∨ 0 ≤ older A age ∧ older A age < A := by
  unfold older
  dsimp only
  split <;> split <;> omega

variable {size A : Nat}

namespace ACS

def empty (ways : 0 < A) : ACS size A := ⟨fun _ => -1,fun _ => .inl rfl,ways⟩

def contains (s : ACS size A) (id : Fin size) : Bool := s.age id != -1

/-- The loop of `inject`: blocks younger than a present block get older, all of
    them when the block may be absent. -/
def aged (s : ACS size A) (id i : Fin size) : Int :=
  if s.contains id then
    if s.age i < s.age id ∧ s.age i ≠ -1 then s.age i + 1 else s.age i
  else older A (s.age i)

theorem aged_valid (s : ACS size A) (id i : Fin size) :
    s.aged id i = -1 ∨ 0 ≤ s.aged id i ∧ s.aged id i < A := by
  have here := s.valid i
  have there := s.valid id
  unfold aged
  split
  · split <;> omega
  · exact older_valid here

def inject (s : ACS size A) (id : Fin size) : ACS size A where
  age := Function.update (s.aged id) id 0
  valid i := by
    by_cases same : i = id
    · subst same
      rw [Function.update_self]
      have := s.ways
      omega
    · rw [Function.update_of_ne same]; exact s.aged_valid id i
  ways := s.ways

/-- `inject` as the categories of level 2 write it: a present block gets the age 0 twice. -/
def injectCat2 (s : ACS size A) (id : Fin size) : Fin size → Int :=
  let age :=
    if s.contains id then
      Function.update (fun i => if s.age i < s.age id ∧ s.age i ≠ -1 then s.age i + 1 else s.age i) id 0
    else fun i => older A (s.age i)
  Function.update age id 0

theorem injectCat2_eq (s : ACS size A) (id : Fin size) : s.injectCat2 id = (s.inject id).age := by
  funext i
  by_cases same : i = id
  · subst same
    simp [injectCat2,inject]
  · simp only [injectCat2,inject,Function.update_of_ne same,aged]
    split
    · rw [Function.update_of_ne same]
    · rfl

def ageAll (s : ACS size A) : ACS size A := ⟨fun i => older A (s.age i),fun i => older_valid (s.valid i),s.ways⟩

/-- `lub`: the older age, and -1 for a block that may be absent on a side. -/
def lub (a b : ACS size A) : ACS size A where
  age i := if (a.age i < b.age i ∧ a.age i ≠ -1) ∨ b.age i = -1 then b.age i else a.age i
  valid i := by
    have here := a.valid i
    have there := b.valid i
    split <;> assumption
  ways := a.ways

/-- `out[index] = -1`. -/
def forget (s : ACS size A) (index : Nat) : ACS size A where
  age i := if i.val = index then -1 else s.age i
  valid i := by
    split
    · exact .inl rfl
    · exact s.valid i
  ways := s.ways

end ACS

/-- The kinds of accesses (`BlockAccess`). Ranges are between two sets of the cache. -/
inductive BlockAccess where
  | ANY
  | BLOCK (set index : Nat)
  | RANGE (first last : Nat)

def inRange (first last set : Nat) : Bool :=
  if first < last then first ≤ set && set ≤ last else set ≤ first || last ≤ set

def purge (set : Nat) (out : ACS size A) : BlockAccess → ACS size A
  | .RANGE first last => if !inRange first last set then out else ACS.empty out.ways
  | .ANY => ACS.empty out.ways
  | .BLOCK s index => if set = s then out.forget index else out

variable {B : Type*}

def Sound (names : Naming size B) (s : ACS size A) (c : Lru B A) : Prop :=
  ∀ i, s.age i ≠ -1 → ∃ b, names.block i = some b ∧ Within c b (s.age i).toNat

/-- The blocks of a set that a purge may remove. The range of sets goes through the
    last set of the cache when its first set is above its last one. -/
def Purges (names : Naming size B) (set : Nat) (b : B) : BlockAccess → Prop
  | .ANY => True
  | .BLOCK s index => set = s ∧ ∃ i : Fin size, i.val = index ∧ names.block i = some b
  | .RANGE first last => if first ≤ last then first ≤ set ∧ set ≤ last else first ≤ set ∨ set ≤ last

variable {names : Naming size B} {s : ACS size A} {c : Lru B A}

theorem sound_empty (names : Naming size B) (c : Lru B A) (ways : 0 < A) : Sound names (ACS.empty ways) c := by
  intro i present; exact absurd rfl present

theorem lub_sound_left (sound : Sound names s c) (t : ACS size A) : Sound names (s.lub t) c := by
  intro i present
  simp only [ACS.lub] at present ⊢
  split at present
  · rename_i chosen
    have known := s.valid i
    have known' := t.valid i
    obtain ⟨b,named,within⟩ := sound i (by omega)
    rw [if_pos chosen]
    exact ⟨b,named,within.mono (by omega)⟩
  · rename_i kept
    rw [if_neg kept]
    exact sound i present

theorem lub_sound_right (sound : Sound names s c) (t : ACS size A) : Sound names (t.lub s) c := by
  intro i present
  simp only [ACS.lub] at present ⊢
  split at present
  · rename_i chosen
    rw [if_pos chosen]
    exact sound i present
  · rename_i kept
    have known := t.valid i
    have known' := s.valid i
    obtain ⟨b,named,within⟩ := sound i (by omega)
    rw [if_neg kept]
    exact ⟨b,named,within.mono (by omega)⟩

theorem forget_sound (sound : Sound names s c) {index : Nat} {keep : B → Bool}
    (removed : ∀ b, keep b = false → ∃ i : Fin size, i.val = index ∧ names.block i = some b) :
    Sound names (s.forget index) (c.remove keep) := by
  intro i present
  simp only [ACS.forget] at present ⊢
  split at present
  · exact absurd rfl present
  · rename_i other
    obtain ⟨b,named,within⟩ := sound i present
    rw [if_neg other]
    refine ⟨b,named,within.remove ?_⟩
    -- a removed block has the forgotten identifier and no other
    by_contra gone
    obtain ⟨j,index',named'⟩ := removed b (by simpa using gone)
    exact other (names.injective i j b named named' ▸ index')

theorem inRange_of_purges {first last set : Nat}
    (purged : if first ≤ last then first ≤ set ∧ set ≤ last else first ≤ set ∨ set ≤ last) :
    inRange first last set = true := by
  unfold inRange
  split at purged <;> split <;> simp <;> omega

private theorem remove_none_sound (sound : Sound names s c) {keep : B → Bool} (kept : ∀ b, keep b = true) :
    Sound names s (c.remove keep) := by
  intro i present
  obtain ⟨b,named,within⟩ := sound i present
  exact ⟨b,named,within.remove (kept b)⟩

theorem purge_sound (sound : Sound names s c) {set : Nat} {acc : BlockAccess} {keep : B → Bool}
    (removed : ∀ b, keep b = false → Purges names set b acc) : Sound names (purge set s acc) (c.remove keep) := by
  cases acc with
  | ANY => exact sound_empty names _ _
  | BLOCK other index =>
    show Sound names (if set = other then s.forget index else s) _
    split
    · exact forget_sound sound fun b gone => (removed b gone).2
    · rename_i elsewhere
      refine remove_none_sound sound fun b => ?_
      by_contra gone
      exact elsewhere (removed b (by simpa using gone)).1
  | RANGE first last =>
    show Sound names (if !inRange first last set then s else ACS.empty s.ways) _
    split
    · rename_i outside
      refine remove_none_sound sound fun b => ?_
      by_contra gone
      have inside := inRange_of_purges (removed b (by simpa using gone))
      simp [inside] at outside
    · exact sound_empty names _ _

variable [DecidableEq B]

private theorem older_sound (sound : Sound names s c) (b : B) (i : Fin size) (present : older A (s.age i) ≠ -1) :
    ∃ x, names.block i = some x ∧ Within (c.access b) x (older A (s.age i)).toNat := by
  have known := s.valid i
  have some : s.age i ≠ -1 := by
    intro absent
    apply present
    simp [older,absent]
  obtain ⟨x,named,within⟩ := sound i some
  have aged : older A (s.age i) = s.age i + 1 := by
    unfold older at present ⊢
    rw [if_pos some] at present ⊢
    dsimp only at present ⊢
    split at present
    · exact absurd rfl present
    · rename_i inside; rw [if_neg inside]
  have fits : s.age i + 1 ≠ A := by
    intro full
    apply present
    simp [older,some,full]
  rw [aged,show (s.age i + 1).toNat = (s.age i).toNat + 1 by omega]
  exact ⟨x,named,within.access (by omega) b⟩

theorem ageAll_sound (sound : Sound names s c) (b : B) : Sound names s.ageAll (c.access b) :=
  fun i present => older_sound sound b i present

theorem inject_sound (sound : Sound names s c) {id : Fin size} {b : B} (named : names.block id = some b) :
    Sound names (s.inject id) (c.access b) := by
  intro i present
  by_cases same : i = id
  · subst same
    refine ⟨b,named,?_⟩
    simpa [ACS.inject] using LruSet.within_access_self c b
  simp only [ACS.inject,Function.update_of_ne same,ACS.aged] at present ⊢
  by_cases inside : s.contains id
  · rw [if_pos inside] at present ⊢
    have known := s.valid i
    have known' := s.valid id
    have contained : s.age id ≠ -1 := by simpa [ACS.contains] using inside
    obtain ⟨b',named',accessed⟩ := sound id contained
    cases named.symm.trans named'
    by_cases younger : s.age i < s.age id ∧ s.age i ≠ -1
    · rw [if_pos younger]
      obtain ⟨x,named,within⟩ := sound i younger.2
      rw [show (s.age i + 1).toNat = (s.age i).toNat + 1 by omega]
      exact ⟨x,named,within.access (by omega) b⟩
    · rw [if_neg younger] at present ⊢
      obtain ⟨x,named,within⟩ := sound i present
      exact ⟨x,named,within.access_younger (by omega) accessed (by omega)⟩
  · rw [if_neg inside] at present ⊢
    exact older_sound sound b i present

/-- The steps of the analysis with what happens in the cache. -/
inductive Step (names : Naming size B) (set : Nat) : ACS size A × Lru B A → ACS size A × Lru B A → Prop
  | inject (s : ACS size A) (c : Lru B A) (id : Fin size) (b : B) (named : names.block id = some b) :
    Step names set (s,c) (s.inject id,c.access b)
  | injectCat2 (s t : ACS size A) (c : Lru B A) (id : Fin size) (b : B) (named : names.block id = some b)
    (ages : t.age = s.injectCat2 id) : Step names set (s,c) (t,c.access b)
  | lubLeft (s t : ACS size A) (c : Lru B A) : Step names set (s,c) (s.lub t,c)
  | lubRight (s t : ACS size A) (c : Lru B A) : Step names set (s,c) (t.lub s,c)
  | ageAll (s : ACS size A) (c : Lru B A) (b : B) : Step names set (s,c) (s.ageAll,c.access b)
  | purge (s : ACS size A) (c : Lru B A) (acc : BlockAccess) (keep : B → Bool)
    (removed : ∀ b, keep b = false → Purges names set b acc) :
    Step names set (s,c) (Cache.purge set s acc,c.remove keep)

theorem step_sound {set : Nat} {p q : ACS size A × Lru B A} (step : Step names set p q) (sound : Sound names p.1 p.2) :
    Sound names q.1 q.2 := by
  cases step with
  | inject s c id b named => exact inject_sound sound named
  | injectCat2 s t c id b named ages =>
    intro i present
    have kept := inject_sound sound named i
    rw [← ACS.injectCat2_eq,← ages] at kept
    exact kept present
  | lubLeft s t c => exact lub_sound_left sound t
  | lubRight s t c => exact lub_sound_right sound t
  | ageAll s c b => exact ageAll_sound sound b
  | purge s c acc keep removed => exact purge_sound sound removed

/-- A state stays sound along every sequence of steps. -/
theorem run_sound {set : Nat} {s s' : ACS size A} {c c' : Lru B A} (sound : Sound names s c)
    (run : Relation.ReflTransGen (Step names set) (s,c) (s',c')) : Sound names s' c' := by
  suffices reached : ∀ q : ACS size A × Lru B A, Relation.ReflTransGen (Step names set) (s,c) q → Sound names q.1 q.2 from
    reached (s',c') run
  intro q steps
  induction steps with
  | refl => exact sound
  | tail _ step ih => exact step_sound step ih

theorem numberNames_injective (i j : Fin 3) (b : Nat) (left : some i.val = some b) (right : some j.val = some b) : i = j :=
  Fin.ext (Option.some.inj (left.trans right.symm))

/-- Three blocks in a set of two ways. -/
def numberNames : Naming 3 Nat := ⟨fun i => some i.val,numberNames_injective⟩
def emptyWays : Lru Nat 2 := ⟨[],List.nodup_nil,by decide,by decide⟩

/-- The third block ages the second one and evicts the first one; on the other way to the
    join, the last two blocks are used in the other order. -/
theorem run_sound_evicting :
    let evicting : ACS 3 2 := (((ACS.empty emptyWays.ways).inject 0).inject 1).inject 2
    let swapped : ACS 3 2 := ((ACS.empty emptyWays.ways).inject 2).inject 1
    Sound numberNames (purge 0 ((evicting.lub swapped).inject 1) (.BLOCK 0 2))
        (((((emptyWays.access 0).access 1).access 2).access 1).remove fun b => b ≠ 2) ∧
      (evicting.age 0 = -1 ∧ evicting.age 1 = 1 ∧ evicting.age 2 = 0) ∧ (evicting.lub swapped).age 2 = 1 ∧
      (purge 0 ((evicting.lub swapped).inject 1) (.BLOCK 0 2)).age 1 = 0 := by
  intro evicting swapped
  have accesses : Relation.ReflTransGen (Step numberNames 0) (ACS.empty emptyWays.ways,emptyWays)
      (evicting,((emptyWays.access 0).access 1).access 2) :=
    ((Relation.ReflTransGen.single (.inject _ _ 0 0 rfl)).tail (.inject _ _ 1 1 rfl)).tail (.inject _ _ 2 2 rfl)
  have met := (accesses.tail (.lubLeft _ swapped _)).tail (.inject _ _ 1 1 rfl)
  have purged := met.tail (.purge _ _ (.BLOCK 0 2) (fun b => b ≠ 2) fun b gone =>
    ⟨rfl,2,rfl,congrArg some (show b = 2 by simpa using gone).symm⟩)
  exact ⟨run_sound (sound_empty numberNames emptyWays _) purged,by decide,by decide,by decide⟩

end Otawa.Cache
