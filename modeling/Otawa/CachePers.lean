import Otawa.CacheMust
import Mathlib.Data.List.Induction

/-!
Persistence analysis of one cache set, computed with the MUST state of the same point
(`MUSTPERS`). An item bounds the ages of the blocks accessed since a loop was entered;
the age A stands for a block that may have been replaced. `run_kept_iff` says along
which sequences of accesses the innermost item is right.
-/
namespace Otawa.Cache
open Otawa.LruSet (Lru Within)

variable {size A : Nat}

/-- `PERSProblem::Item`: ages from 0 to A, -1 for a block that was not accessed. -/
structure Item (size A : Nat) where
  age : Fin size → Int
  valid : ∀ i, age i = -1 ∨ 0 ≤ age i ∧ age i ≤ A
  ways : 0 < A

namespace Item

def empty (ways : 0 < A) : Item size A := ⟨fun _ => -1,fun _ => .inl rfl,ways⟩

/-- The loop of `inject`: with the accessed block in the MUST state, only the blocks
    younger than it in this item get older. -/
def aged (item : Item size A) (must : ACS size A) (id i : Fin size) : Int :=
  if must.contains id then
    if item.age i < item.age id ∧ item.age i ≠ -1 ∧ item.age i ≠ A then item.age i + 1 else item.age i
  else if item.age i ≠ -1 ∧ item.age i ≠ A then item.age i + 1 else item.age i

theorem aged_valid (item : Item size A) (must : ACS size A) (id i : Fin size) :
    item.aged must id i = -1 ∨ 0 ≤ item.aged must id i ∧ item.aged must id i ≤ A := by
  have known := item.valid i
  unfold aged
  repeat' split
  all_goals omega

def inject (item : Item size A) (must : ACS size A) (id : Fin size) : Item size A where
  age := Function.update (item.aged must id) id 0
  valid i := by
    by_cases same : i = id
    · subst same
      rw [Function.update_self]
      omega
    · rw [Function.update_of_ne same]; exact item.aged_valid must id i
  ways := item.ways

end Item

/-- `MUSTPERS::Domain`: the item of the whole program, the items of the loops around
    the current point, the innermost last, and the MUST state. -/
structure Domain (size A : Nat) where
  whole : Item size A
  data : List (Item size A)
  must : ACS size A

namespace Domain

def enterContext (d : Domain size A) : Domain size A := { d with data := d.data ++ [Item.empty d.must.ways] }

/-- `inject`: every item first, with the MUST state before the access. -/
def inject (d : Domain size A) (id : Fin size) : Domain size A where
  whole := d.whole.inject d.must id
  data := d.data.map fun item => item.inject d.must id
  must := d.must.inject id

def innermost (d : Domain size A) : Option (Item size A) := d.data.getLast?

theorem innermost_enterContext (d : Domain size A) : d.enterContext.innermost = some (Item.empty d.must.ways) := by
  simp [innermost,enterContext]

theorem innermost_inject (d : Domain size A) (id : Fin size) :
    (d.inject id).innermost = d.innermost.map fun item => item.inject d.must id := by
  simp [innermost,inject,List.getLast?_map]

end Domain

variable {B : Type*} {names : Naming size B}

def injects (d : Domain size A) (accesses : List (Fin size × B)) : Domain size A :=
  accesses.foldl (fun d access => d.inject access.1) d

/-- Every block accessed has an age in the item, and with an age below A it is still
    in the set, at a position not greater than its age. -/
def Kept (item : Item size A) (c : Lru B A) (accesses : List (Fin size × B)) : Prop :=
  ∀ access ∈ accesses, item.age access.1 ≠ -1 ∧
    (item.age access.1 < A → Within c access.2 (item.age access.1).toNat)

/-- The access that goes wrong: the MUST state knows the block from before the loop,
    the item does not, and some block was already accessed in the loop. -/
def Stale (d : Domain size A) (item : Item size A) (id : Fin size) : Prop :=
  d.must.contains id = true ∧ item.age id = -1 ∧ ∃ i, item.age i ≠ -1

/-- What a run without such an access maintains. -/
structure Tracks (names : Naming size B) (d : Domain size A) (item : Item size A) (c : Lru B A)
    (accesses : List (Fin size × B)) : Prop where
  innermost : d.innermost = some item
  sound : Sound names d.must c
  named : ∀ access ∈ accesses, names.block access.1 = some access.2
  kept : Kept item c accesses
  only : ∀ i, item.age i ≠ -1 → ∃ access ∈ accesses, access.1 = i
  newest : ∀ access, accesses.getLast? = some access → item.age access.1 = 0 ∧ Within c access.2 0

private theorem tracks_enter {d : Domain size A} {c : Lru B A} (sound : Sound names d.must c) :
    Tracks names d.enterContext (Item.empty d.must.ways) c [] where
  innermost := d.innermost_enterContext
  sound := sound
  named := by intro access member; cases member
  kept := by intro access member; cases member
  only := by intro i present; exact absurd rfl present
  newest := by intro access last; cases last

section Access
variable [DecidableEq B] {d : Domain size A} {item : Item size A} {c : Lru B A} {accesses : List (Fin size × B)}
variable {id : Fin size} {b : B}

private theorem kept_other (tracks : Tracks names d item c accesses) (named : names.block id = some b)
    (fresh : ¬ Stale d item id) {access : Fin size × B} (member : access ∈ accesses) (other : access.1 ≠ id) :
    item.aged d.must id access.1 ≠ -1 ∧
      (item.aged d.must id access.1 < A → Within (c.access b) access.2 (item.aged d.must id access.1).toNat) := by
  obtain ⟨present,within⟩ := tracks.kept access member
  have known := item.valid access.1
  have known' := item.valid id
  -- one more access ages a block by one at most
  have grown (below : item.age access.1 + 1 < A) :
      Within (c.access b) access.2 (item.age access.1 + 1).toNat := by
    rw [show (item.age access.1 + 1).toNat = (item.age access.1).toNat + 1 by omega]
    exact (within (by omega)).access (by omega) b
  unfold Item.aged
  by_cases inside : d.must.contains id
  · rw [if_pos inside]
    have injected : item.age id ≠ -1 := by
      intro absent
      exact fresh ⟨inside,absent,access.1,present⟩
    by_cases younger : item.age access.1 < item.age id ∧ item.age access.1 ≠ -1 ∧ item.age access.1 ≠ A
    · rw [if_pos younger]
      exact ⟨by omega,grown⟩
    · rw [if_neg younger]
      refine ⟨present,fun below => ?_⟩
      obtain ⟨before,beforeMem,rfl⟩ := tracks.only id injected
      have accessed := (tracks.kept before beforeMem).2 (by omega)
      rw [Option.some.inj ((tracks.named before beforeMem).symm.trans named)] at accessed
      exact (within below).access_younger (by omega) accessed (by omega)
  · rw [if_neg inside]
    by_cases bounded : item.age access.1 ≠ -1 ∧ item.age access.1 ≠ A
    · rw [if_pos bounded]
      exact ⟨by omega,grown⟩
    · rw [if_neg bounded]
      exact ⟨present,fun below => by omega⟩

private theorem tracks_inject (tracks : Tracks names d item c accesses) (named : names.block id = some b)
    (fresh : ¬ Stale d item id) :
    Tracks names (d.inject id) (item.inject d.must id) (c.access b) (accesses ++ [(id,b)]) where
  innermost := by rw [d.innermost_inject,tracks.innermost]; rfl
  sound := inject_sound tracks.sound named
  named := by
    intro access member
    rcases List.mem_append.mp member with old | new
    · exact tracks.named access old
    · cases List.mem_singleton.mp new; exact named
  kept := by
    intro access member
    by_cases same : access.1 = id
    · have block : access.2 = b := by
        rcases List.mem_append.mp member with old | new
        · exact Option.some.inj ((tracks.named access old).symm.trans (same ▸ named))
        · cases List.mem_singleton.mp new; rfl
      simp only [Item.inject,same,Function.update_self,block]
      exact ⟨by decide,fun _ => LruSet.within_access_self c b⟩
    · simp only [Item.inject,Function.update_of_ne same]
      have old : access ∈ accesses := by
        rcases List.mem_append.mp member with old | new
        · exact old
        · cases List.mem_singleton.mp new; exact absurd rfl same
      exact kept_other tracks named fresh old same
  only := by
    intro i present
    by_cases same : i = id
    · exact ⟨(id,b),by simp,same.symm⟩
    · simp only [Item.inject,Function.update_of_ne same,Item.aged] at present
      have known : item.age i ≠ -1 := by
        intro absent
        simp [absent] at present
      obtain ⟨access,member,same'⟩ := tracks.only i known
      exact ⟨access,List.mem_append_left _ member,same'⟩
  newest := by
    intro access last
    rw [List.getLast?_append,List.getLast?_singleton] at last
    cases last
    exact ⟨by simp [Item.inject],LruSet.within_access_self c b⟩

private theorem not_kept_of_stale (tracks : Tracks names d item c accesses) (named : names.block id = some b)
    (stale : Stale d item id) : ¬ Kept (item.inject d.must id) (c.access b) (accesses ++ [(id,b)]) := by
  intro kept
  obtain ⟨inside,absent,i,present⟩ := stale
  obtain ⟨before,beforeMem,_⟩ := tracks.only i present
  obtain ⟨last,isLast⟩ : ∃ last, accesses.getLast? = some last :=
    ⟨_,List.getLast?_eq_some_getLast (List.ne_nil_of_mem beforeMem)⟩
  obtain ⟨age,_⟩ := tracks.newest last isLast
  have lastMem : last ∈ accesses := List.mem_of_getLast? isLast
  have other : last.1 ≠ id := by
    intro same
    rw [same] at age
    omega
  have frozen : (item.inject d.must id).age last.1 = 0 := by
    simp only [Item.inject,Function.update_of_ne other,Item.aged,inside,if_true,age,absent]
    rfl
  have within := (kept last (List.mem_append_left _ lastMem)).2 (by rw [frozen]; exact_mod_cast item.ways)
  rw [frozen] at within
  have same := LruSet.within_zero within (LruSet.within_access_self c b)
  exact other (names.injective _ _ b ((tracks.named last lastMem).trans (by rw [same])) named)

end Access

private theorem injects_append (d : Domain size A) (accesses : List (Fin size × B)) (access : Fin size × B) :
    injects d (accesses ++ [access]) = (injects d accesses).inject access.1 := by simp [injects]

def NeverStale (d : Domain size A) (accesses : List (Fin size × B)) : Prop :=
  ∀ done access rest, accesses = done ++ access :: rest → ∀ item, (injects d done).innermost = some item →
    ¬ Stale (injects d done) item access.1

private theorem neverStale_append {d : Domain size A} {accesses : List (Fin size × B)} {access : Fin size × B}
    {item : Item size A} (innermost : (injects d accesses).innermost = some item) :
    NeverStale d (accesses ++ [access]) ↔ NeverStale d accesses ∧ ¬ Stale (injects d accesses) item access.1 := by
  constructor
  · intro never
    refine ⟨?_,never accesses access [] rfl item innermost⟩
    rintro done other rest rfl
    exact never done other (rest ++ [access]) (by simp)
  · rintro ⟨never,fresh⟩ done other rest split found innermost'
    rcases List.eq_nil_or_concat' rest with rfl | ⟨rest,last,rfl⟩
    · obtain ⟨rfl,same⟩ := List.append_inj' split rfl
      cases same
      cases innermost.symm.trans innermost'
      exact fresh
    · rw [← List.cons_append,← List.append_assoc] at split
      obtain ⟨rfl,_⟩ := List.append_inj' split rfl
      exact never done other rest rfl found innermost'

variable [DecidableEq B]

def accessed (c : Lru B A) (accesses : List (Fin size × B)) : Lru B A := c.accesses (accesses.map Prod.snd)

private theorem accessed_append (c : Lru B A) (accesses : List (Fin size × B)) (access : Fin size × B) :
    accessed c (accesses ++ [access]) = (accessed c accesses).access access.2 := by
  simp [accessed,Lru.accesses,List.foldl_append]

def KeptAfter (d : Domain size A) (c : Lru B A) (accesses : List (Fin size × B)) : Prop :=
  ∃ item, (injects d accesses).innermost = some item ∧ Kept item (accessed c accesses) accesses

private theorem kept_and_tracks {d : Domain size A} {c : Lru B A} (sound : Sound names d.must c)
    {accesses : List (Fin size × B)} (named : ∀ access ∈ accesses, names.block access.1 = some access.2) :
    ((∀ done, done <+: accesses → KeptAfter d.enterContext c done) ↔ NeverStale d.enterContext accesses) ∧
      (NeverStale d.enterContext accesses →
        ∃ item, Tracks names (injects d.enterContext accesses) item (accessed c accesses) accesses) := by
  -- the accesses from the last one backwards: the prefix is tracked until it goes stale
  induction accesses using List.reverseRecOn with
  | nil =>
    have start := tracks_enter sound
    refine ⟨iff_of_true ?_ ?_,fun _ => ⟨_,start⟩⟩
    · intro done isPrefix
      rw [List.prefix_nil.mp isPrefix]
      exact ⟨_,start.innermost,start.kept⟩
    · intro done access rest split
      simp at split
  | append_singleton accesses access ih =>
    have here := named access (by simp)
    obtain ⟨before,tracked⟩ := ih fun other member => named other (List.mem_append_left _ member)
    have step {item : Item size A} (tracks : Tracks names (injects d.enterContext accesses) item
        (accessed c accesses) accesses) (fresh : ¬ Stale (injects d.enterContext accesses) item access.1) :=
      tracks_inject tracks here fresh
    constructor
    · constructor
      · intro kept
        have never := before.mp fun done isPrefix => kept done (isPrefix.trans (List.prefix_append _ _))
        obtain ⟨item,tracks⟩ := tracked never
        refine (neverStale_append tracks.innermost).mpr ⟨never,fun stale => ?_⟩
        obtain ⟨last,innermost,right⟩ := kept _ (List.prefix_refl _)
        rw [injects_append,Domain.innermost_inject,tracks.innermost] at innermost
        cases innermost
        rw [accessed_append] at right
        exact not_kept_of_stale tracks here stale right
      · intro never done isPrefix
        have earlier : NeverStale d.enterContext accesses := by
          rintro done other rest rfl
          exact never done other (rest ++ [access]) (by simp)
        rcases List.prefix_concat_iff.mp isPrefix with rfl | shorter
        · obtain ⟨item,tracks⟩ := tracked earlier
          have after := step tracks ((neverStale_append tracks.innermost).mp never).2
          rw [KeptAfter,injects_append,accessed_append]
          exact ⟨_,after.innermost,after.kept⟩
        · exact before.mpr earlier done shorter
    · intro never
      have earlier : NeverStale d.enterContext accesses := by
        rintro done other rest rfl
        exact never done other (rest ++ [access]) (by simp)
      obtain ⟨item,tracks⟩ := tracked earlier
      rw [injects_append,accessed_append]
      exact ⟨_,step tracks ((neverStale_append tracks.innermost).mp never).2⟩

/-- From the entry of a loop, with any set and any sound MUST state, the item of the
    loop is right in every state reached exactly when no access is stale. -/
theorem run_kept_iff {d : Domain size A} {c : Lru B A} (sound : Sound names d.must c)
    {accesses : List (Fin size × B)} (named : ∀ access ∈ accesses, names.block access.1 = some access.2) :
    (∀ done, done <+: accesses → KeptAfter d.enterContext c done) ↔ NeverStale d.enterContext accesses :=
  (kept_and_tracks sound named).1

/-- Four ways; y (1) is known to the MUST state from before the loop, behind z (2). -/
def knownBefore : Domain 3 4 where
  whole := Item.empty (by decide)
  data := []
  must := ⟨fun i => if i.val = 1 then 1 else -1,fun i => by split <;> simp,by decide⟩
def twoPresent : Lru Nat 4 := ⟨[2,1],by decide,by decide,by decide⟩

theorem sound_knownBefore : Sound numberNames knownBefore.must twoPresent := by
  intro i present
  by_cases same : i.val = 1
  · obtain rfl : i = 1 := Fin.ext same
    exact ⟨1,rfl,show 1 ∈ [2,1].take 2 by decide⟩
  · exact absurd (by simp [knownBefore,same]) present

/-- In the loop x (0), z that ages it, and x again, which is now known to both states. -/
theorem run_kept_iff_aging : NeverStale knownBefore.enterContext [((0 : Fin 3),0),(2,2),(0,0)] ∧
    ∀ done, done <+: [((0 : Fin 3),0),(2,2),(0,0)] → KeptAfter knownBefore.enterContext twoPresent done := by
  have first : NeverStale knownBefore.enterContext ([] ++ [((0 : Fin 3),0)]) :=
    (neverStale_append rfl).mpr ⟨fun _ _ _ split => by simp at split,by unfold Stale; decide⟩
  have second : NeverStale knownBefore.enterContext ([(0,0)] ++ [((2 : Fin 3),2)]) :=
    (neverStale_append rfl).mpr ⟨first,by unfold Stale; decide⟩
  have never : NeverStale knownBefore.enterContext ([(0,0),(2,2)] ++ [((0 : Fin 3),0)]) :=
    (neverStale_append rfl).mpr ⟨second,by unfold Stale; decide⟩
  refine ⟨never,(run_kept_iff sound_knownBefore fun access member => ?_).mpr never⟩
  simp only [List.mem_cons,List.not_mem_nil,or_false] at member
  rcases member with rfl | rfl | rfl <;> rfl

/-- In the loop x (0), then y: x keeps the age 0 and is second in the set. -/
theorem stale_access_breaks :
    ¬ ∀ (size A : Nat) (names : Naming size Nat) (d : Domain size A) (c : Lru Nat A) (accesses : List (Fin size × Nat)),
      Sound names d.must c → (∀ access ∈ accesses, names.block access.1 = some access.2) →
      KeptAfter d.enterContext c accesses := by
  intro right
  have named : ∀ access ∈ [((0 : Fin 3),0),((1 : Fin 3),1)], numberNames.block access.1 = some access.2 := by
    intro access member
    rcases List.mem_pair.mp member with rfl | rfl <;> rfl
  obtain ⟨item,innermost,kept⟩ := right 3 4 numberNames knownBefore twoPresent _ sound_knownBefore named
  cases innermost
  have first := (kept (0,0) (by simp)).2 (by decide)
  exact absurd (show 0 ∈ [1] from first) (by decide)

end Otawa.Cache
