import Otawa.LruOrder
import Otawa.CacheMay
import Otawa.DataAccess
import Mathlib.Data.Finset.Image

/-!
The categories of the data accesses of a basic block (`CATBuilder`), without
persistence. The MUST state follows the accesses, the MAY state stays the one of the
entry of the block; a purge is taken as an access. `right_iff` says for which blocks
the hits and the misses are right in every execution.
-/
namespace Otawa.CatBuilder
open Otawa.Cache (ACS MayACS BlockAccess Naming Sound MayCovers Touches)
open Otawa.Dcache (Action)
open Otawa.LruSet (Lru mem_access mem_access_self before_access before_access_self mem_remove before_remove
  not_mem_before within_iff)
open Otawa.Runs (Run run_snoc)

variable {size A : Nat}

/-- `cache::category_t`, for those that need no persistence. -/
inductive Category where
  | NOT_CLASSIFIED | ALWAYS_HIT | ALWAYS_MISS
  deriving DecidableEq

/-- An access of `DATA_BLOCKS`. -/
abbrev Access := Action × BlockAccess

/-- `CATEGORY` of an access to a block: the test of the MAY state comes last. -/
def category (dom : ACS size A) (may : Option (MayACS size)) (id : Fin size) : Category :=
  let category := if dom.contains id then .ALWAYS_HIT else .NOT_CLASSIFIED
  match may with
  | none => category
  | some may => if may.age id = -1 then .ALWAYS_MISS else category

/-- One turn of the loop on the accesses, `none` for a block out of the collection. The
    accesses to the other sets keep their category. -/
def processAccess (set : Nat) (may : Option (MayACS size)) (dom : ACS size A) (access : Access) :
    Option (Option Category × ACS size A) :=
  match access.2 with
  | .BLOCK set' index =>
    if set' = set then
      if bound : index < size then some (some (category dom may ⟨index,bound⟩),dom.inject ⟨index,bound⟩) else none
    else some (none,dom)
  | .ANY | .RANGE _ _ => some (some .NOT_CLASSIFIED,dom.ageAll)

/-- `processLBlockSet` on the accesses of a basic block. -/
def processLBlockSet (set : Nat) (may : Option (MayACS size)) : ACS size A → List Access → Option (List (Option Category))
  | _,[] => some []
  | dom,access :: rest => do
    let (category,dom) ← processAccess set may dom access
    let categories ← processLBlockSet set may dom rest
    some (category :: categories)

/-! ### Executions -/

/-- What an access does to the set: it may load or purge a known block, or any block. -/
inductive Effect (size : Nat) where
  | load (i : Fin size)
  | purge (i : Fin size)
  | anyLoad
  | anyPurge
  | nothing

instance (set : Nat) (access : BlockAccess) : Decidable (Touches set access) := by
  cases access <;> unfold Touches <;> infer_instance

def effect (set : Nat) : Access → Effect size
  | (action,.BLOCK set' index) =>
    if set' = set then
      if bound : index < size then if action = .PURGE then .purge ⟨index,bound⟩ else .load ⟨index,bound⟩ else .nothing
    else .nothing
  | (action,access) => if Touches set access then if action = .PURGE then .anyPurge else .anyLoad else .nothing

variable {B : Type*} [DecidableEq B]

/-- What happens in the cache. -/
def Occurs (names : Fin size ↪ B) (c : Lru B A) (e : Effect size) (c' : Lru B A) : Prop :=
  match e with
  | .load i => c' = c.access (names i)
  | .purge i => c' = c.remove fun b => b ≠ names i
  | .anyLoad => c' = c ∨ ∃ b, c' = c.access b
  | .anyPurge => c' = c ∨ ∃ keep, c' = c.remove keep
  | .nothing => c' = c

def Executes (names : Fin size ↪ B) (set : Nat) (c : Lru B A) (accesses : List Access) (c' : Lru B A) : Prop :=
  Run (fun c access c' => Occurs names c (effect set access) c') c accesses c'

def naming (names : Fin size ↪ B) : Naming size B where
  block i := some (names i)
  injective _ _ _ first second := names.injective (Option.some.inj (first.trans second.symm))

structure Covered (names : Fin size ↪ B) (must : ACS size A) (may : Option (MayACS size)) (c : Lru B A) : Prop where
  must : Sound (naming names) must c
  may : ∀ state ∈ may, MayCovers names state c

def Right (names : Fin size ↪ B) (set : Nat) (must : ACS size A) (may : Option (MayACS size)) (accesses : List Access) : Prop :=
  ∀ categories, processLBlockSet set may must accesses = some categories →
    ∀ earlier action (i : Fin size) later, accesses = earlier ++ (action,.BLOCK set i) :: later →
      ∀ c c' : Lru B A, Covered names must may c → Executes names set c earlier c' →
        (categories[earlier.length]? = some (some .ALWAYS_HIT) → names i ∈ c'.blocks) ∧
        (categories[earlier.length]? = some (some .ALWAYS_MISS) → names i ∉ c'.blocks)

/-! ### Presence of a block -/

section Presence

/-- The blocks surely accessed since a block, if it may be present, and none if it is
    surely absent. -/
def sinceStep (A : Nat) (i : Fin size) (since : Option (Finset (Fin size))) : Effect size → Option (Finset (Fin size))
  | .load k => if k = i then some ∅ else since.bind fun s => if (insert k s).card < A then some (insert k s) else none
  | .purge k => if k = i then none else since.map fun s => s.erase k
  | .anyLoad => some ∅
  | .anyPurge => since.map fun _ => ∅
  | .nothing => since

/-- Whether a block may be present after the accesses, when it is not present before them. -/
def since (A set : Nat) (i : Fin size) (accesses : List Access) : Option (Finset (Fin size)) :=
  accesses.foldl (fun s access => sinceStep A i s (effect set access)) none

/-- Whether the last that is known of a block is a purge. -/
def purgedStep (i : Fin size) (purged : Bool) : Effect size → Bool
  | .load k => purged && k ≠ i
  | .purge k => purged || k = i
  | .anyPurge => true
  | .anyLoad | .nothing => purged

/-- Whether the block may have been purged since its last access. -/
def purged (set : Nat) (i : Fin size) (accesses : List Access) : Bool :=
  accesses.foldl (fun p access => purgedStep i p (effect set access)) false

variable {names : Fin size ↪ B} {set : Nat} {c c' : Lru B A} {i : Fin size} {e : Effect size}

/-- The blocks accessed since a block that is present are not fewer than those counted. -/
def AtLeast (names : Fin size ↪ B) (i : Fin size) (c : Lru B A) (s : Option (Finset (Fin size))) : Prop :=
  names i ∈ c.blocks → ∃ f, s = some f ∧ f.map names ⊆ c.before (names i)

/-- The block is present when it is counted as such, and no other blocks were accessed since. -/
def AtMost (names : Fin size ↪ B) (i : Fin size) (c : Lru B A) (s : Option (Finset (Fin size))) : Prop :=
  ∀ f, s = some f → names i ∈ c.blocks ∧ c.before (names i) ⊆ f.map names

theorem atLeast_step {s : Option (Finset (Fin size))} (least : AtLeast names i c s) (occurs : Occurs names c e c') :
    AtLeast names i c' (sinceStep A i s e) := by
  intro present
  cases e with
  | load k =>
    obtain rfl := occurs
    by_cases same : k = i
    · exact ⟨∅,if_pos same,by simp⟩
    · have other : names i ≠ names k := fun equal => same (names.injective equal).symm
      obtain ⟨here,few⟩ := (mem_access other).mp present
      obtain ⟨f,rfl,inside⟩ := least here
      have more : (insert k f).map names ⊆ insert (names k) (c.before (names i)) := by
        rw [Finset.map_insert]
        exact Finset.insert_subset_insert _ inside
      have card : (insert k f).card < A := by
        rw [← Finset.card_map names]
        exact Nat.lt_of_le_of_lt (Finset.card_le_card more) few
      refine ⟨insert k f,?_,?_⟩
      · rw [sinceStep,if_neg same,Option.bind_some,if_pos card]
      · rwa [before_access other present]
  | purge k =>
    obtain rfl := occurs
    obtain ⟨here,kept⟩ := mem_remove.mp present
    have other : names i ≠ names k := by simpa using kept
    obtain ⟨f,rfl,inside⟩ := least here
    have differ : k ≠ i := fun same => other (same ▸ rfl)
    refine ⟨f.erase k,by rw [sinceStep,if_neg differ]; rfl,?_⟩
    rw [before_remove (fun b => b ≠ names k) kept]
    intro b member
    obtain ⟨j,erased,rfl⟩ := Finset.mem_map.mp member
    obtain ⟨apart,counted⟩ := Finset.mem_erase.mp erased
    refine Finset.mem_filter.mpr ⟨inside (Finset.mem_map_of_mem names counted),?_⟩
    simpa using apart
  | anyLoad => exact ⟨∅,rfl,by simp⟩
  | anyPurge =>
    have here : names i ∈ c.blocks := by
      rcases occurs with rfl | ⟨keep,rfl⟩
      · exact present
      · exact (mem_remove.mp present).1
    obtain ⟨f,rfl,-⟩ := least here
    exact ⟨∅,rfl,by simp⟩
  | nothing =>
    obtain rfl := occurs
    exact least present

theorem atMost_step {s : Option (Finset (Fin size))} (most : AtMost names i c s) (e : Effect size) :
    ∃ c', Occurs names c e c' ∧ AtMost names i c' (sinceStep A i s e) := by
  have front : AtMost names i (c.access (names i)) (some ∅) := by
    rintro f same
    obtain rfl := Option.some.inj same
    exact ⟨mem_access_self c _,by rw [before_access_self]; simp⟩
  cases e with
  | load k =>
    by_cases same : k = i
    · subst same
      refine ⟨_,rfl,?_⟩
      rwa [sinceStep,if_pos rfl]
    · refine ⟨_,rfl,fun f counted => ?_⟩
      have other : names i ≠ names k := fun equal => same (names.injective equal).symm
      rw [sinceStep,if_neg same,Option.bind_eq_some_iff] at counted
      obtain ⟨f,rfl,counted⟩ := counted
      split at counted
      next card =>
        obtain rfl := Option.some.inj counted
        obtain ⟨here,inside⟩ := most f rfl
        have more : insert (names k) (c.before (names i)) ⊆ (insert k f).map names := by
          rw [Finset.map_insert]
          exact Finset.insert_subset_insert _ inside
        have few : (insert (names k) (c.before (names i))).card < A := by
          refine Nat.lt_of_le_of_lt (Finset.card_le_card more) ?_
          rwa [Finset.card_map]
        have present := (mem_access other).mpr ⟨here,few⟩
        exact ⟨present,by rwa [before_access other present]⟩
      next => cases counted
  | purge k =>
    refine ⟨_,rfl,fun f counted => ?_⟩
    by_cases same : k = i
    · rw [sinceStep,if_pos same] at counted
      cases counted
    · rw [sinceStep,if_neg same,Option.map_eq_some_iff] at counted
      obtain ⟨f,rfl,rfl⟩ := counted
      obtain ⟨here,inside⟩ := most f rfl
      have kept : decide (names i ≠ names k) = true := by
        simpa using fun equal => same (names.injective equal).symm
      refine ⟨mem_remove.mpr ⟨here,kept⟩,?_⟩
      rw [before_remove (fun b => b ≠ names k) kept]
      intro b member
      obtain ⟨before,apart⟩ := Finset.mem_filter.mp member
      obtain ⟨j,counted,rfl⟩ := Finset.mem_map.mp (inside before)
      refine Finset.mem_map_of_mem names (Finset.mem_erase.mpr ⟨?_,counted⟩)
      rintro rfl
      simp at apart
  | anyLoad => exact ⟨_,.inr ⟨names i,rfl⟩,front⟩
  | anyPurge =>
    -- all but the block are removed
    refine ⟨_,.inr ⟨fun b => b = names i,rfl⟩,fun f counted => ?_⟩
    rw [sinceStep,Option.map_eq_some_iff] at counted
    obtain ⟨f,rfl,rfl⟩ := counted
    obtain ⟨here,-⟩ := most f rfl
    refine ⟨mem_remove.mpr ⟨here,by simp⟩,?_⟩
    rw [before_remove (fun b => b = names i) (by simp)]
    intro b member
    obtain ⟨before,same⟩ := Finset.mem_filter.mp member
    obtain rfl : b = names i := by simpa using same
    exact absurd before (not_mem_before c _)
  | nothing => exact ⟨c,rfl,most⟩

theorem purged_step {p : Bool} (gone : p = true → names i ∉ c.blocks) (e : Effect size) :
    ∃ c', Occurs names c e c' ∧ (purgedStep i p e = true → names i ∉ c'.blocks) := by
  cases e with
  | load k =>
    refine ⟨_,rfl,fun still => ?_⟩
    obtain ⟨before,other⟩ : p = true ∧ k ≠ i := by simpa [purgedStep] using still
    have differ : names i ≠ names k := fun equal => other (names.injective equal).symm
    exact fun present => gone before ((mem_access differ).mp present).1
  | purge k =>
    refine ⟨_,rfl,fun now present => ?_⟩
    obtain ⟨here,kept⟩ := mem_remove.mp present
    have differ : k ≠ i := by
      rintro rfl
      simp at kept
    have before : p = true := by simpa [purgedStep,differ] using now
    exact gone before here
  | anyLoad => exact ⟨c,.inl rfl,gone⟩
  | anyPurge =>
    refine ⟨_,.inr ⟨fun b => b ≠ names i,rfl⟩,fun _ present => ?_⟩
    have kept := (mem_remove.mp present).2
    simp at kept
  | nothing => exact ⟨c,rfl,gone⟩

private theorem executes_exists {S : Type*} (P : Lru B A → S → Prop) (step : S → Effect size → S)
    (keeps : ∀ c s e, P c s → ∃ c', Occurs names c e c' ∧ P c' (step s e)) {s : S} (start : P c s) (accesses : List Access) :
    ∃ c', Executes names set c accesses c' ∧ P c' (accesses.foldl (fun s access => step s (effect set access)) s) := by
  induction accesses using List.reverseRecOn with
  | nil => exact ⟨c,rfl,start⟩
  | append_singleton earlier access ih =>
    obtain ⟨c',executes,here⟩ := ih
    obtain ⟨c'',occurs,there⟩ := keeps c' _ (effect set access) here
    refine ⟨c'',run_snoc.mpr ⟨c',executes,occurs⟩,?_⟩
    rwa [List.foldl_append]

private theorem executes_keeps {S : Type*} (P : Lru B A → S → Prop) (step : S → Effect size → S)
    (keeps : ∀ c c' s e, P c s → Occurs names c e c' → P c' (step s e)) {s : S} (start : P c s) {accesses : List Access}
    (executes : Executes names set c accesses c') :
    P c' (accesses.foldl (fun s access => step s (effect set access)) s) := by
  induction accesses using List.reverseRecOn generalizing c' with
  | nil =>
    obtain rfl := executes
    exact start
  | append_singleton earlier access ih =>
    obtain ⟨c'',before,occurs⟩ := run_snoc.mp executes
    rw [List.foldl_append]
    exact keeps _ _ _ _ (ih before) occurs

/-- A block that the cache does not hold before the accesses may be present after them
    exactly when fewer other blocks than ways were surely accessed since it may have been loaded. -/
theorem absent_iff (absent : names i ∉ c.blocks) (accesses : List Access) :
    (∀ c', Executes names set c accesses c' → names i ∉ c'.blocks) ↔ since A set i accesses = none := by
  constructor
  · intro away
    obtain ⟨c',executes,most⟩ := executes_exists (AtMost names i) (sinceStep A i)
      (fun c s e most => atMost_step most e) (c := c) (s := none) (fun f none => nomatch none) accesses
    cases known : since A set i accesses with
    | none => rfl
    | some f => exact absurd (most f known).1 (away c' executes)
  · intro none c' executes present
    have least := executes_keeps (AtLeast names i) (sinceStep A i)
      (fun c c' s e least occurs => atLeast_step least occurs) (s := Option.none) (fun here => absurd here absent) executes
    obtain ⟨f,known,-⟩ := least present
    rw [← since,none] at known
    cases known

theorem purged_gone (names : Fin size ↪ B) (c : Lru B A) {accesses : List Access} (gone : purged set i accesses = true) :
    ∃ c', Executes names set c accesses c' ∧ names i ∉ c'.blocks := by
  obtain ⟨c',executes,after⟩ := executes_exists (fun c p => p = true → names i ∉ c.blocks) (purgedStep i)
    (fun c p e gone => purged_step gone e) (c := c) (s := false) (fun impossible => nomatch impossible) accesses
  exact ⟨c',executes,after gone⟩

end Presence

def Indexed (size set : Nat) (access : Access) : Prop := ∀ index, access.2 = .BLOCK set index → index < size

def update (set : Nat) (dom : ACS size A) (access : Access) : ACS size A :=
  match access.2 with
  | .BLOCK set' index => if set' = set then if bound : index < size then dom.inject ⟨index,bound⟩ else dom else dom
  | .ANY | .RANGE _ _ => dom.ageAll

def mustAfter (set : Nat) (dom : ACS size A) (accesses : List Access) : ACS size A := accesses.foldl (update set) dom

section Must
variable {names : Fin size ↪ B} {set : Nat} {dom : ACS size A} {may : Option (MayACS size)} {g g' c c' : Lru B A}
variable {access : Access}

omit [DecidableEq B] in
theorem ageAll_stays (sound : Sound (naming names) dom g) : Sound (naming names) dom.ageAll g := by
  intro i present
  have known := dom.valid i
  simp only [ACS.ageAll,Cache.older] at present ⊢
  have before : dom.age i ≠ -1 := by
    intro absent
    simp [absent] at present
  obtain ⟨b,named,within⟩ := sound i before
  refine ⟨b,named,within.mono ?_⟩
  rw [if_pos before] at present ⊢
  split at present
  · exact absurd rfl present
  · next inside =>
    rw [if_neg inside]
    omega

/-- The accesses with the purges of a block taken as accesses to it, and the others not made. -/
def Follows (names : Fin size ↪ B) (g : Lru B A) (e : Effect size) (g' : Lru B A) : Prop :=
  match e with
  | .load i | .purge i => g' = g.access (names i)
  | .anyLoad => g' = g ∨ ∃ b, g' = g.access b
  | .anyPurge | .nothing => g' = g

theorem update_sound (sound : Sound (naming names) dom g) (follows : Follows names g (effect set access) g') :
    Sound (naming names) (update set dom access) g' := by
  obtain ⟨action,access⟩ := access
  have unknown (e : Effect size) (none : e = .anyLoad ∨ e = .anyPurge ∨ e = .nothing) (follows : Follows names g e g') :
      Sound (naming names) dom.ageAll g' := by
    rcases none with rfl | rfl | rfl
    · rcases follows with rfl | ⟨b,rfl⟩
      · exact ageAll_stays sound
      · exact Cache.ageAll_sound sound b
    · exact follows ▸ ageAll_stays sound
    · exact follows ▸ ageAll_stays sound
  cases access with
  | ANY =>
    refine unknown _ ?_ follows
    simp only [effect]
    split
    · split <;> simp
    · simp
  | RANGE first last =>
    refine unknown _ ?_ follows
    simp only [effect]
    split
    · split <;> simp
    · simp
  | BLOCK set' index =>
    simp only [effect] at follows
    simp only [update]
    by_cases here : set' = set
    · rw [if_pos here] at follows ⊢
      by_cases bound : index < size
      · rw [dif_pos bound] at follows ⊢
        have accessed : g' = g.access (names ⟨index,bound⟩) := by
          split at follows <;> exact follows
        rw [accessed]
        exact Cache.inject_sound sound rfl
      · rw [dif_neg bound] at follows ⊢
        exact follows ▸ sound
    · rw [if_neg here] at follows ⊢
      exact follows ▸ sound

/-- A set that the MUST state covers, which holds the blocks of the cache that have not
    been purged, and no fewer before each of them. -/
def Shadows (names : Fin size ↪ B) (dom : ACS size A) (p : Fin size → Bool) (c : Lru B A) : Prop :=
  ∃ g : Lru B A, Sound (naming names) dom g ∧
    ∀ i, p i = false → names i ∈ g.blocks → names i ∈ c.blocks ∧ c.before (names i) ⊆ g.before (names i)

private theorem shadow_access {x b : B} (shadow : x ≠ b → x ∈ g.blocks → x ∈ c.blocks ∧ c.before x ⊆ g.before x)
    (present : x ∈ (g.access b).blocks) :
    x ∈ (c.access b).blocks ∧ (c.access b).before x ⊆ (g.access b).before x := by
  by_cases same : x = b
  · subst same
    exact ⟨mem_access_self c x,by rw [before_access_self]; exact Finset.empty_subset _⟩
  · obtain ⟨here,few⟩ := (mem_access same).mp present
    obtain ⟨there,inside⟩ := shadow same here
    have more := Finset.insert_subset_insert b inside
    have also := (mem_access same).mpr ⟨there,Nat.lt_of_le_of_lt (Finset.card_le_card more) few⟩
    refine ⟨also,?_⟩
    rwa [before_access same also,before_access same present]

theorem shadows_step {p : Fin size → Bool} (shadows : Shadows names dom p c) (occurs : Occurs names c (effect set access) c') :
    Shadows names (update set dom access) (fun i => purgedStep i (p i) (effect set access)) c' := by
  obtain ⟨g,sound,shadow⟩ := shadows
  have follow {next : Lru B A} (follows : Follows names g (effect set access) next) :
      Sound (naming names) (update set dom access) next := update_sound sound follows
  generalize effect set access = e at occurs follow ⊢
  cases e with
  | load k =>
    obtain rfl := occurs
    refine ⟨g.access (names k),follow rfl,fun i kept present => ?_⟩
    refine shadow_access (fun other here => shadow i ?_ here) present
    have differ : k ≠ i := fun same => other (same ▸ rfl)
    simpa [purgedStep,differ] using kept
  | purge k =>
    obtain rfl := occurs
    refine ⟨g.access (names k),follow rfl,fun i kept present => ?_⟩
    obtain ⟨before,differ⟩ : p i = false ∧ k ≠ i := by simpa [purgedStep] using kept
    have other : names i ≠ names k := fun equal => differ (names.injective equal).symm
    have keep : decide (names i ≠ names k) = true := by simpa using other
    obtain ⟨here,-⟩ := (mem_access other).mp present
    obtain ⟨there,inside⟩ := shadow i before here
    refine ⟨mem_remove.mpr ⟨there,keep⟩,?_⟩
    rw [before_remove (fun b => b ≠ names k) keep,before_access other present]
    exact (Finset.filter_subset _ _).trans (inside.trans (Finset.subset_insert _ _))
  | anyLoad =>
    rcases occurs with rfl | ⟨b,rfl⟩
    · exact ⟨g,follow (.inl rfl),shadow⟩
    · exact ⟨g.access b,follow (.inr ⟨b,rfl⟩),fun i kept => shadow_access fun _ => shadow i kept⟩
  | anyPurge => exact ⟨g,follow rfl,fun i kept => nomatch kept⟩
  | nothing =>
    obtain rfl := occurs
    exact ⟨g,follow rfl,shadow⟩

theorem executes_shadows (sound : Sound (naming names) dom c) {accesses : List Access}
    (executes : Executes names set c accesses c') :
    Shadows names (mustAfter set dom accesses) (fun i => purged set i accesses) c' := by
  induction accesses using List.reverseRecOn generalizing c' with
  | nil =>
    obtain rfl := executes
    exact ⟨_,sound,fun i _ present => ⟨present,Finset.Subset.refl _⟩⟩
  | append_singleton earlier access ih =>
    obtain ⟨c'',before,occurs⟩ := run_snoc.mp executes
    have step := shadows_step (ih before) occurs
    simpa only [mustAfter,purged,List.foldl_append,List.foldl_cons,List.foldl_nil] using step

theorem present_of_contains (sound : Sound (naming names) dom c) {accesses : List Access} {i : Fin size}
    (contains : (mustAfter set dom accesses).contains i = true) (kept : purged set i accesses = false)
    (executes : Executes names set c accesses c') : names i ∈ c'.blocks := by
  obtain ⟨g,sound',shadow⟩ := executes_shadows sound executes
  obtain ⟨b,named,within⟩ := sound' i (by simpa [ACS.contains] using contains)
  obtain rfl := Option.some.inj named
  exact (shadow i kept (within_iff.mp within).1).1

end Must

section Categories
variable {names : Fin size ↪ B} {set : Nat} {must dom : ACS size A} {may : Option (MayACS size)} {i : Fin size}

def Missing (may : Option (MayACS size)) (i : Fin size) : Prop := ∃ state ∈ may, state.age i = -1

theorem category_of_missing (missing : Missing may i) : category dom may i = .ALWAYS_MISS := by
  obtain ⟨state,rfl,absent⟩ := missing
  exact if_pos absent

theorem category_of_not_missing (known : ¬ Missing may i) :
    category dom may i = if dom.contains i then .ALWAYS_HIT else .NOT_CLASSIFIED := by
  cases may with
  | none => rfl
  | some state => exact if_neg fun absent => known ⟨state,rfl,absent⟩

theorem processAccess_indexed (dom : ACS size A) (may : Option (MayACS size)) {access : Access}
    (indexed : Indexed size set access) :
    ∃ category, processAccess set may dom access = some (category,update set dom access) := by
  obtain ⟨action,access⟩ := access
  cases access with
  | ANY => exact ⟨_,rfl⟩
  | RANGE first last => exact ⟨_,rfl⟩
  | BLOCK set' index =>
    by_cases here : set' = set
    · subst here
      have bound : index < size := indexed index rfl
      exact ⟨some (category dom may ⟨index,bound⟩),by simp [processAccess,update,bound]⟩
    · exact ⟨none,by simp [processAccess,update,here]⟩

theorem processLBlockSet_indexed (dom : ACS size A) (may : Option (MayACS size)) {accesses : List Access}
    (indexed : ∀ access ∈ accesses, Indexed size set access) :
    ∃ categories, processLBlockSet set may dom accesses = some categories := by
  induction accesses generalizing dom with
  | nil => exact ⟨[],rfl⟩
  | cons access rest ih =>
    obtain ⟨category,processed⟩ := processAccess_indexed dom may (indexed access List.mem_cons_self)
    obtain ⟨categories,later⟩ := ih (update set dom access) fun access member => indexed access (List.mem_cons_of_mem _ member)
    exact ⟨category :: categories,by simp [processLBlockSet,processed,later]⟩

theorem processLBlockSet_at {earlier later : List Access} {action : Action} {categories : List (Option Category)}
    (indexed : ∀ access ∈ earlier, Indexed size set access)
    (processed : processLBlockSet set may dom (earlier ++ (action,.BLOCK set i) :: later) = some categories) :
    categories[earlier.length]? = some (some (category (mustAfter set dom earlier) may i)) := by
  induction earlier generalizing dom categories with
  | nil =>
    have here : processAccess set may dom (action,.BLOCK set i) = some (some (category dom may i),dom.inject i) := by
      simp [processAccess]
    rw [List.nil_append,processLBlockSet,here] at processed
    simp only [Option.bind_eq_bind,Option.bind_some,Option.bind_eq_some_iff,Option.some.injEq] at processed
    obtain ⟨rest,-,rfl⟩ := processed
    rfl
  | cons access earlier ih =>
    obtain ⟨first,here⟩ := processAccess_indexed dom may (indexed access List.mem_cons_self)
    rw [List.cons_append,processLBlockSet,here] at processed
    simp only [Option.bind_eq_bind,Option.bind_some,Option.bind_eq_some_iff,Option.some.injEq] at processed
    obtain ⟨rest,processed,rfl⟩ := processed
    exact ih (fun access member => indexed access (List.mem_cons_of_mem _ member)) processed

/-- When the categories are right: a block that the MAY state of the entry excludes has
    not been loaded since or has left the set again, and a block that the MUST state has
    was not purged since its last access. -/
def Fits (set : Nat) (must : ACS size A) (may : Option (MayACS size)) (accesses : List Access) : Prop :=
  ∀ earlier action (i : Fin size) later, accesses = earlier ++ (action,.BLOCK set i) :: later →
    (Missing may i → since A set i earlier = none) ∧
    (¬ Missing may i → (mustAfter set must earlier).contains i = true → purged set i earlier = false)

/-- The categories are right exactly for the accesses that fit, if some cache is covered. -/
theorem right_iff (names : Fin size ↪ B) (must : ACS size A) (may : Option (MayACS size)) {accesses : List Access}
    (indexed : ∀ access ∈ accesses, Indexed size set access) :
    Right names set must may accesses ↔ ((∃ c : Lru B A, Covered names must may c) → Fits set must may accesses) := by
  have absent {i : Fin size} {c : Lru B A} (covered : Covered names must may c) (missing : Missing may i) :
      names i ∉ c.blocks := by
    obtain ⟨state,known,gone⟩ := missing
    intro present
    obtain ⟨n,here⟩ := List.mem_iff_getElem?.mp present
    exact (covered.may state known i n here).1 gone
  constructor
  · rintro right ⟨c,covered⟩ earlier action i later rfl
    obtain ⟨categories,processed⟩ := processLBlockSet_indexed must may indexed
    have before : ∀ access ∈ earlier, Indexed size set access := fun access member =>
      indexed access (List.mem_append_left _ member)
    have given := processLBlockSet_at before processed
    have answers c' := right categories processed earlier action i later rfl c c' covered
    constructor
    · intro missing
      rw [category_of_missing missing] at given
      exact (absent_iff (absent covered missing) earlier).mp fun c' executes => (answers c' executes).2 given
    · intro known contains
      rw [category_of_not_missing known,if_pos contains] at given
      cases gone : purged set i earlier with
      | false => rfl
      | true =>
        obtain ⟨c',executes,away⟩ := purged_gone names c gone
        exact absurd ((answers c' executes).1 given) away
  · intro fits categories processed earlier action i later split c c' covered executes
    obtain ⟨misses,hits⟩ := fits ⟨c,covered⟩ earlier action i later split
    subst split
    have before : ∀ access ∈ earlier, Indexed size set access := fun access member =>
      indexed access (List.mem_append_left _ member)
    rw [processLBlockSet_at before processed]
    by_cases missing : Missing may i
    · rw [category_of_missing missing]
      refine ⟨fun impossible => (by simp at impossible),fun _ => ?_⟩
      exact (absent_iff (absent covered missing) earlier).mpr (misses missing) c' executes
    · rw [category_of_not_missing missing]
      split
      next contains =>
        refine ⟨fun _ => ?_,fun impossible => (by simp at impossible)⟩
        exact present_of_contains covered.must contains (hits missing contains) executes
      next => exact ⟨fun impossible => (by simp at impossible),fun impossible => (by simp at impossible)⟩

end Categories

def noAges : ACS 2 4 := ACS.empty Cache.fourWays_ways

theorem right_iff_twice : Right Cache.twoNumbers 0 noAges none [(.LOAD,.BLOCK 0 0),(.LOAD,.BLOCK 0 0)] ↔
    ((∃ c : Lru Nat 4, Covered Cache.twoNumbers noAges none c) →
      Fits 0 noAges none [(.LOAD,.BLOCK 0 0),(.LOAD,.BLOCK 0 0)]) := by
  refine right_iff _ _ _ fun access member index same => ?_
  simp only [List.mem_cons,List.not_mem_nil,or_false,or_self] at member
  subst member
  cases same
  omega

/-- The second of two loads of a block misses for the category when the MAY state of the
    entry excludes the block. A load after a purge hits for it. -/
theorem twice_and_purged :
    ¬ Right Cache.twoNumbers 0 noAges (some (MayACS.empty 2))
      [(.LOAD,.BLOCK 0 0),(.LOAD,.BLOCK 0 0)] ∧
    ¬ Right Cache.twoNumbers 0 noAges none
      [(.LOAD,.BLOCK 0 0),(.PURGE,.BLOCK 0 0),(.LOAD,.BLOCK 0 0)] := by
  constructor
  · intro right
    have answer := right _ rfl [(.LOAD,.BLOCK 0 0)] .LOAD 0 [] rfl Cache.fourWays (Cache.fourWays.access 0)
      ⟨Cache.sound_empty _ _ _,fun state known => ?_⟩ ⟨_,rfl,rfl⟩
    · exact answer.2 rfl (mem_access_self _ _)
    · obtain rfl := Option.some.inj known
      exact Cache.covers_empty _ rfl
  · intro right
    have answer := right _ rfl [(.LOAD,.BLOCK 0 0),(.PURGE,.BLOCK 0 0)] .LOAD 0 [] rfl Cache.fourWays _
      ⟨Cache.sound_empty _ _ _,fun state known => nomatch known⟩ ⟨_,rfl,_,rfl,rfl⟩
    have present := answer.1 rfl
    simp [Lru.remove] at present

end Otawa.CatBuilder
