import Otawa.Cfg
import Otawa.DirtyBlocks
import Otawa.DataCategories

/-!
Purge analysis of a write-back data cache (`PurgeAnalysis`): whether an access evicts a
dirty block. The tests compare the ages with the number of blocks of the cache instead of
the number of ways, look for an exact age where a bound is meant, and go through the wrong
blocks, so that no access is ever said to evict one in any case; `purge_right` says in which
executions the answer is right all the same.
-/
namespace Otawa.Dcache.PurgeAnalysis
open Otawa.Cache (ACS MayACS BlockAccess inRange Sound MayCovers Touches)
open Otawa.CatBuilder (naming)
open Otawa.LruSet (Lru Within within_iff mem_access)
open Otawa.Runs (Run Meets)

variable {size A : Nat}

/-! ### The analysis -/

/-- `purge_t`, in its order. -/
inductive Purge where
  | INV_PURGE | NO_PURGE | PERS_PURGE | MAY_PURGE | MUST_PURGE
  deriving DecidableEq

/-- `cache::category_t`. -/
inductive Category where
  | INVALID_CATEGORY | ALWAYS_HIT | FIRST_HIT | FIRST_MISS | ALWAYS_MISS | NOT_CLASSIFIED
  deriving DecidableEq

/-- An access with its `CATEGORY`. -/
structure Access where
  action : Action
  acc : BlockAccess
  category : Category

/-- `State`: the dirty, MUST and MAY states of a set. -/
structure State (size A : Nat) where
  dstate : Dirty size
  must : ACS size A
  may : MayACS size

/-- `MUSTProblem::update`. -/
def mustUpdate (set : Nat) (s : ACS size A) (action : Action) (acc : BlockAccess) : Option (ACS size A) :=
  match action with
  | .LOAD | .STORE =>
    match acc with
    | .RANGE first last =>
      if first < last then some (if set < first ∨ set > last then s else s.ageAll)
      else some (if first < set ∨ set < last then s else s.ageAll)
    | .ANY => some s.ageAll
    | .BLOCK set' index =>
      if set' = set then if bound : index < size then some (s.inject ⟨index,bound⟩) else none
      else some s
  | .PURGE => some (Cache.purge set s acc)

/-- `State::update`, with the addresses of the blocks of the collection. -/
def State.update (set : Nat) (address : Fin size → Nat) (st : State size A) (access : Access) : Option (State size A) := do
  let dstate ← updateDirty set address st.dstate access.action access.acc
  let must ← mustUpdate set st.must access.action access.acc
  let may ← Cache.mayUpdate A set st.may access.acc
  some ⟨dstate,must,may⟩

/-- `BlockAccess::in`, for a block of the same set. -/
def isIn (acc : BlockAccess) (index address : Nat) : Bool :=
  match acc with
  | .ANY => true
  | .BLOCK _ index' => index' == index
  | .RANGE first last => if first ≤ last then first ≤ address && address ≤ last else address ≤ first || last ≤ address

/-- `BlockAccess::inRange`, with the assertion of `first`. -/
def isInRange (acc : BlockAccess) (block : Nat) : Option Bool :=
  match acc with
  | .RANGE first last => some (inRange first last block)
  | _ => none

def isAny : BlockAccess → Bool
  | .ANY => true
  | _ => false

def tag (cache : Cache) (addr : Clp.Word) : Clp.Word := addr >>> (cache.blockBits + cache.rowBits)

def inSet (cache : Cache) (first last : Clp.Word) (set : Nat) : Bool :=
  if first < last && tag cache last - tag cache first ≥ cache.rowCount then true
  else if !(first < last : Bool) && tag cache first + cache.rowCount - tag cache last ≥ cache.rowCount then true
  else if cache.set first < cache.set last then
    (cache.set first).toNat ≤ set && set ≤ (cache.set last).toNat
  else set ≤ (cache.set first).toNat || (cache.set last).toNat ≤ set

/-- `mustPurge`, with the assertions on the indexes: `blocks` is the `blockCount` of the
cache. -/
def mustPurge (blocks set : Nat) (st : State size A) (acc : BlockAccess) : Option Bool :=
  (List.range set).anyM fun i =>
    if bound : i < size then
      let out := if isAny acc then some true else (isInRange acc i).map not
      out.map fun out => out && st.must.age ⟨i,bound⟩ == (blocks : Int) - 1 && decide (⟨i,bound⟩ ∈ st.dstate.must)
    else none

def mayPurge (blocks : Nat) (address : Fin size → Nat) (st : State size A) (acc : BlockAccess) : Bool :=
  (List.finRange size).any fun i =>
    (isAny acc || !isIn acc i (address i)) && st.may.age i == (blocks : Int) - 1 && decide (i ∈ st.dstate.may)

def concerns (cache : Cache) (set : Nat) : BlockAccess → Bool
  | .ANY => true
  | .BLOCK set' _ => set' == set
  | .RANGE first last => inSet cache (BitVec.ofNat 32 first) (BitVec.ofNat 32 last) set

/-- `hard::Cache::blockCount`, for some bits of the way numbers. -/
def blockCount (cache : Cache) (wayBits : Nat) : Nat := 2 ^ (cache.rowBits + wayBits)

/-- `processAccess`: the purge found for the set, if the access concerns it; without result
when an assertion fails. -/
def processAccess (cache : Cache) (wayBits set : Nat) (address : Fin size → Nat) (st : State size A) (access : Access) :
    Option (Option Purge) :=
  let blocks := blockCount cache wayBits
  let may := mayPurge blocks address st access.acc
  if concerns cache set access.acc then
    match access.category with
    | .ALWAYS_HIT => some (some .NO_PURGE)
    | .FIRST_MISS => some (some (if may then .PERS_PURGE else .NO_PURGE))
    | .ALWAYS_MISS =>
      if !may then some (some .NO_PURGE)
      else (mustPurge blocks set st access.acc).map fun must => some (if !must then .MAY_PURGE else .MUST_PURGE)
    | .NOT_CLASSIFIED => some (some (if may then .MAY_PURGE else .NO_PURGE))
    | .INVALID_CATEGORY | .FIRST_HIT => none
  else some none

/-- `processBB` for a set. -/
def processBB (cache : Cache) (wayBits set : Nat) (address : Fin size → Nat) : State size A → List Access →
    Option (List (Option Purge))
  | _, [] => some []
  | st, access :: rest => do
    let purge ← processAccess cache wayBits set address st access
    let st ← st.update set address access
    let purges ← processBB cache wayBits set address st rest
    some (purge :: purges)

/-- The order of `purge_t`. -/
def Purge.rank : Purge → Nat
  | .INV_PURGE => 0
  | .NO_PURGE => 1
  | .PERS_PURGE => 2
  | .MAY_PURGE => 3
  | .MUST_PURGE => 4

def apply (old : Purge) : Option Purge → Purge
  | some purge => if purge.rank ≥ old.rank then purge else old
  | none => old

/-- The collections of the sets, and the states at the entry of the block. -/
structure Entry (A : Nat) where
  size : Nat → Nat
  address : ∀ set, Fin (size set) → Nat
  start : ∀ set, State (size set) A

def processSets (cache : Cache) (wayBits : Nat) (entry : Entry A) (accesses : List Access) :
    List Nat → List Purge → Option (List Purge)
  | [], purges => some purges
  | set :: rest, purges =>
    if 0 < entry.size set then do
      let found ← processBB cache wayBits set (entry.address set) (entry.start set) accesses
      processSets cache wayBits entry accesses rest (List.zipWith apply purges found)
    else processSets cache wayBits entry accesses rest purges

def processWorkSpace (cache : Cache) (wayBits : Nat) (entry : Entry A) (accesses : List Access) : Option (List Purge) :=
  processSets cache wayBits entry accesses (List.range (2 ^ cache.rowBits)) (List.replicate accesses.length .INV_PURGE)

variable {B : Type*} [DecidableEq B]

/-- A set of the cache, and which of its blocks are dirty. -/
structure Cached (B : Type*) (A : Nat) where
  lru : Lru B A
  dirty : B → Prop

/-- An access to a block: write-back, write-allocate. What leaves the set is written back. -/
def Cached.after (c : Cached B A) (action : Action) (b : B) : Cached B A :=
  match action with
  | .LOAD => ⟨c.lru.access b,fun x => x ∈ c.lru.blocks ∧ c.dirty x⟩
  | .STORE => ⟨c.lru.access b,fun x => x = b ∨ x ∈ c.lru.blocks ∧ c.dirty x⟩
  | .PURGE => ⟨c.lru.remove fun x => x ≠ b,fun x => c.dirty x ∧ x ≠ b⟩

/-- A dirty block leaves the set when the block is loaded or stored. -/
def EvictsDirty (c : Cached B A) (action : Action) (b : B) : Prop :=
  action ≠ .PURGE ∧ ∃ x ∈ c.lru.blocks, c.dirty x ∧ x ∉ (c.lru.access b).blocks

structure Event (B : Type*) where
  set : Nat
  block : B

abbrev Op (B : Type*) := Access × Event B

/-- The accesses to a block go to it, the others to any block of their sets. -/
def Touch (sets : Nat) {size : Nat → Nat} (names : ∀ set, Fin (size set) ↪ B) (op : Op B) : Prop :=
  op.2.set < sets ∧
    match op.1.acc with
    | .BLOCK set index => op.2.set = set ∧ ∃ bound : index < size set, op.2.block = names set ⟨index,bound⟩
    | acc => Touches op.2.set acc

/-- A step of the analysis of a set, with what happens in the set. -/
def SetStep (set : Nat) (address : Fin size → Nat) (p : State size A × Cached B A) (op : Op B) (q : State size A × Cached B A) :
    Prop :=
  p.1.update set address op.1 = some q.1 ∧ q.2 = if op.2.set = set then p.2.after op.1.action op.2.block else p.2

/-- The states of a set cover the set. -/
structure Covers (names : Fin size ↪ B) (p : State size A × Cached B A) : Prop where
  must : Sound (naming names) p.1.must p.2.lru
  may : MayCovers names p.1.may p.2.lru
  mayDirty : ∀ i, names i ∈ p.2.lru.blocks → p.2.dirty (names i) → i ∈ p.1.dstate.may

/-- The accesses after which the states still cover the set: loads and stores of a known
block, which the MAY state does not age with the block behind it. -/
def UpdateFits (set : Nat) (names : Fin size ↪ B) (p : State size A × Cached B A) (op : Op B) : Prop :=
  op.1.action ≠ .PURGE ∧ ∃ set' index, op.1.acc = .BLOCK set' index ∧
    (set' = set → ∀ id : Fin size, id.val = index → ¬ Cache.AgedWith names p.1.may p.2.lru id)

section Steps
variable {set : Nat} {names : Fin size ↪ B} {address : Fin size → Nat} {p q : State size A × Cached B A}

theorem covers_other {set' index : Nat} (other : set' ≠ set) {access : Access} (purges : access.action ≠ .PURGE)
    (block : access.acc = .BLOCK set' index) (st : State size A) : st.update set address access = some st := by
  obtain ⟨action,acc,category⟩ := access
  obtain rfl := block
  cases action with
  | PURGE => exact absurd rfl purges
  | LOAD | STORE => simp [State.update,updateDirty,mustUpdate,Cache.mayUpdate,other]

theorem update_block {id : Fin size} {access : Access} (purges : access.action ≠ .PURGE)
    (block : access.acc = .BLOCK set id.val) (st : State size A) : st.update set address access = some
      { dstate := if access.action = .STORE then ⟨insert id st.dstate.may,insert id st.dstate.must⟩ else st.dstate
        must := st.must.inject id
        may := st.may.inject A id } := by
  obtain ⟨action,acc,category⟩ := access
  obtain rfl := block
  cases action with
  | PURGE => exact absurd rfl purges
  | LOAD | STORE => simp [State.update,updateDirty,mustUpdate,Cache.mayUpdate]

end Steps

section Evictions
variable {c : Lru B A} {b x : B}

theorem mem_access_of_hit (hit : b ∈ c.blocks) (present : x ∈ c.blocks) : x ∈ (c.access b).blocks := by
  have short : (b :: c.blocks.erase b).length ≤ A := by
    have length := List.length_erase_of_mem hit
    have some := List.length_pos_of_mem hit
    have bound := c.bound
    rw [List.length_cons]
    omega
  show x ∈ (b :: c.blocks.erase b).take A
  rw [List.take_of_length_le short,List.mem_cons]
  by_cases same : x = b
  · exact .inl same
  · exact .inr ((List.mem_erase_of_ne same).mpr present)

theorem evicted_iff (miss : b ∉ c.blocks) (present : x ∈ c.blocks) :
    x ∉ (c.access b).blocks ↔ A ≤ (c.before x).card + 1 := by
  have other : x ≠ b := fun same => miss (same ▸ present)
  have absent : b ∉ c.before x := fun inside => miss ((List.takeWhile_sublist _).subset (List.mem_toFinset.mp inside))
  rw [mem_access other,Finset.card_insert_of_notMem absent]
  simp [present]

end Evictions

section Runs
variable {sets : Nat} {size : Nat → Nat} {names : ∀ set, Fin (size set) ↪ B} {set : Nat} {address : Fin (size set) → Nat}
  {p q : State (size set) A × Cached B A} {op : Op B}

theorem covers_step (covers : Covers (names set) p) (touch : Touch sets names op) (step : SetStep set address p op q)
    (fits : UpdateFits set (names set) p op) : Covers (names set) q := by
  obtain ⟨st,c⟩ := p
  obtain ⟨st',c'⟩ := q
  obtain ⟨⟨action,acc,category⟩,event,block⟩ := op
  obtain ⟨updated,happens⟩ := step
  obtain ⟨purges,set',index,rfl,fits⟩ := fits
  obtain ⟨_,at_,bound,named⟩ := touch
  dsimp only at updated happens purges fits at_ named
  subst at_
  by_cases here : event = set
  · subst here
    have clear := fits rfl ⟨index,bound⟩ rfl
    rw [if_pos rfl,named] at happens
    rw [@update_block (size event) A event address ⟨index,bound⟩ ⟨action,.BLOCK event index,category⟩ purges rfl] at updated
    obtain rfl := Option.some.inj updated
    clear named
    generalize (⟨index,bound⟩ : Fin (size event)) = id at clear happens ⊢
    have may : MayCovers (names event) (st.may.inject A id) (c.lru.access (names event id)) := by
      have step : Cache.MayStep (names event) event (st.may,c.lru) (.access (.BLOCK event id.val))
          (st.may.inject A id,c.lru.access (names event id)) :=
        ⟨by simp [Cache.mayUpdate],by rw [Cache.Happens,if_pos rfl]; exact ⟨id,rfl,rfl⟩⟩
      refine (Cache.mayStep_exact _ _ covers.may).mpr ?_ _ step
      intro _ id' same
      obtain rfl := Fin.ext same
      exact clear
    have must : Sound (naming (names event)) (st.must.inject id) (c.lru.access (names event id)) :=
      Cache.inject_sound covers.must rfl
    rw [happens]
    cases action with
    | PURGE => exact absurd rfl purges
    | LOAD => exact ⟨must,may,fun i _ dirty => covers.mayDirty i dirty.1 dirty.2⟩
    | STORE =>
      refine ⟨must,may,fun i inside dirty => ?_⟩
      rcases dirty with same | ⟨present,dirty⟩
      · exact Finset.mem_insert.mpr (.inl ((names event).injective same))
      · exact Finset.mem_insert_of_mem (covers.mayDirty i present dirty)
  · rw [if_neg here] at happens
    rw [covers_other here purges rfl] at updated
    obtain rfl := Option.some.inj updated
    rw [happens]
    exact covers

theorem covers_run {start : State (size set) A × Cached B A} (covers : Covers (names set) start) {before : List (Op B)}
    (touch : ∀ op ∈ before, Touch sets names op) (fits : Meets (SetStep set address) (UpdateFits set (names set)) start before)
    (reached : Run (SetStep set address) start before p) : Covers (names set) p := by
  induction before using List.reverseRecOn generalizing p with
  | nil =>
    obtain rfl := reached
    exact covers
  | append_singleton earlier op ih =>
    obtain ⟨q,ran,step⟩ := Runs.run_snoc.mp reached
    have here := ih (fun op member => touch op (List.mem_append_left _ member))
      (fun before op start => fits before op (start.trans (List.prefix_append _ _))) ran
    exact covers_step here (touch op (by simp)) step (fits earlier op (List.prefix_refl _) q ran)

end Runs

/-- A block passes the test of `mayPurge`. -/
def MayTest (blocks : Nat) (address : Fin size → Nat) (st : State size A) (acc : BlockAccess) (i : Fin size) : Prop :=
  (isAny acc = true ∨ isIn acc i (address i) = false) ∧ st.may.age i = (blocks : Int) - 1 ∧ i ∈ st.dstate.may

/-- The states allow a block to be the one evicted by an access to another one: it may be
present, at the last position, and dirty. -/
def Victim (st : State size A) (i : Fin size) : Prop :=
  i ∈ st.dstate.may ∧ st.may.age i ≠ -1 ∧ (st.must.age i = -1 ∨ st.must.age i = (A : Int) - 1)

/-- The condition for a right answer, on the states of a set before an access. -/
structure DecisionFits (cache : Cache) (wayBits set : Nat) (names : Fin size ↪ B) (address : Fin size → Nat)
    (p : State size A × Cached B A) (op : Op B) : Prop where
  /-- The category is right. -/
  hit : op.2.set = set → op.1.category = .ALWAYS_HIT → op.2.block ∈ p.2.lru.blocks
  miss : op.2.set = set → op.1.category = .ALWAYS_MISS → op.2.block ∉ p.2.lru.blocks
  /-- The dirty blocks are known, and the access is taken to concern their set. -/
  known : op.2.set = set → ∀ x ∈ p.2.lru.blocks, p.2.dirty x → (∃ i, names i = x) ∧ concerns cache set op.1.acc = true
  /-- The blocks that may be the victim pass the test. -/
  victims : op.2.set = set → ∀ i, Victim p.1 i → names i ≠ op.2.block →
    MayTest (blockCount cache wayBits) address p.1 op.1.acc i

section Decisions
variable {cache : Cache} {wayBits set : Nat} {names : Fin size ↪ B} {address : Fin size → Nat} {p : State size A × Cached B A}
  {op : Op B}

omit [DecidableEq B] in
theorem mayPurge_iff {blocks : Nat} {st : State size A} {acc : BlockAccess} :
    mayPurge blocks address st acc = true ↔ ∃ i, MayTest blocks address st acc i := by
  simp [mayPurge,MayTest,and_assoc]

private theorem anyM_true {ι : Type} {test : ι → Option Bool} {l : List ι} (found : l.anyM test = some true) :
    ∃ i ∈ l, test i = some true := by
  induction l with
  | nil => cases found
  | cons i rest ih =>
    rw [List.anyM] at found
    obtain ⟨answer,tested,found⟩ := Option.bind_eq_some_iff.mp found
    cases answer with
    | true => exact ⟨i,List.mem_cons_self ..,tested⟩
    | false =>
      obtain ⟨j,member,tested⟩ := ih found
      exact ⟨j,List.mem_cons_of_mem _ member,tested⟩

omit [DecidableEq B] in
/-- The loop on the blocks is empty for set 0, and in a cache with other sets no age is as
great as the number of blocks less one. -/
theorem mustPurge_never {st : State size (2 ^ wayBits)} {acc : BlockAccess} (inside : set < 2 ^ cache.rowBits) :
    mustPurge (blockCount cache wayBits) set st acc ≠ some true := by
  intro found
  obtain ⟨i,member,tested⟩ := anyM_true found
  have below := List.mem_range.mp member
  split at tested
  next bound =>
    obtain ⟨out,_,tested⟩ := Option.map_eq_some_iff.mp tested
    simp only [Bool.and_eq_true,beq_iff_eq] at tested
    have age := tested.1.2
    have young := st.must.valid ⟨i,bound⟩
    have ways := Nat.two_pow_pos wayBits
    have blocks : 2 * 2 ^ wayBits ≤ blockCount cache wayBits := by
      rw [blockCount,Nat.pow_add]
      exact Nat.mul_le_mul_right _ (by omega)
    omega
  next => cases tested

theorem victim_of_evicted (covers : Covers names p) {i : Fin size} {b : B} (miss : b ∉ p.2.lru.blocks)
    (present : names i ∈ p.2.lru.blocks) (dirty : p.2.dirty (names i)) (evicted : names i ∉ (p.2.lru.access b).blocks) :
    Victim p.1 i := by
  obtain ⟨n,bound,here⟩ := List.getElem_of_mem present
  have mayAge := (covers.may i n (by rw [List.getElem?_eq_getElem bound,here])).1
  refine ⟨covers.mayDirty i present dirty,mayAge,?_⟩
  by_cases absent : p.1.must.age i = -1
  · exact .inl absent
  · obtain ⟨x,named,within⟩ := covers.must i absent
    obtain rfl := Option.some.inj named
    have last := (evicted_iff miss present).mp evicted
    have young := (within_iff.mp within).2
    have known := p.1.must.valid i
    exact .inr (by omega)

theorem no_purge_right (covers : Covers names p) (fits : DecisionFits cache wayBits set names address p op)
    (touched : op.2.set = set) {found : Option Purge} (decided : processAccess cache wayBits set address p.1 op.1 = some found)
    (low : ∀ purge, found = some purge → purge.rank ≤ 1) : ¬ EvictsDirty p.2 op.1.action op.2.block := by
  rintro ⟨_,x,present,dirty,evicted⟩
  obtain ⟨⟨i,rfl⟩,concerned⟩ := fits.known touched x present dirty
  have miss : op.2.block ∉ p.2.lru.blocks := fun hit => evicted (mem_access_of_hit hit present)
  have other : names i ≠ op.2.block := fun same => miss (same ▸ present)
  have purged : mayPurge (blockCount cache wayBits) address p.1 op.1.acc = true :=
    mayPurge_iff.mpr ⟨i,fits.victims touched i (victim_of_evicted covers miss present dirty evicted) other⟩
  rw [processAccess,if_pos concerned,purged] at decided
  cases category : op.1.category with
  | INVALID_CATEGORY | FIRST_HIT => simp [category] at decided
  | ALWAYS_HIT => exact miss (fits.hit touched category)
  | FIRST_MISS =>
    exact absurd (low .PERS_PURGE (by simpa [category] using decided.symm)) (by decide)
  | NOT_CLASSIFIED =>
    exact absurd (low .MAY_PURGE (by simpa [category] using decided.symm)) (by decide)
  | ALWAYS_MISS =>
    simp only [category,Bool.not_true,Bool.false_eq_true,if_false] at decided
    obtain ⟨must,_,rfl⟩ := Option.map_eq_some_iff.mp decided
    cases must with
    | true => exact absurd (low .MUST_PURGE rfl) (by decide)
    | false => exact absurd (low .MAY_PURGE rfl) (by decide)

omit [DecidableEq B] in
theorem must_never_answered {st : State size (2 ^ wayBits)} {access : Access} (inside : set < 2 ^ cache.rowBits) :
    processAccess cache wayBits set address st access ≠ some (some .MUST_PURGE) := by
  intro decided
  rw [processAccess] at decided
  split at decided
  next =>
    cases category : access.category with
    | INVALID_CATEGORY | FIRST_HIT | ALWAYS_HIT => simp [category] at decided
    | FIRST_MISS | NOT_CLASSIFIED =>
      simp only [category] at decided
      split at decided <;> simp at decided
    | ALWAYS_MISS =>
      simp only [category] at decided
      split at decided
      next => simp at decided
      next =>
        obtain ⟨must,found,purge⟩ := Option.map_eq_some_iff.mp decided
        cases must with
        | true => exact mustPurge_never inside found
        | false => simp at purge
  next => simp at decided

end Decisions

/-! ### The whole analysis -/

section Whole
variable {cache : Cache} {wayBits : Nat}

theorem processBB_at {set : Nat} {address : Fin size → Nat} {start : State size A × Cached B A} {before after : List (Op B)}
    {op : Op B} {found : List (Option Purge)}
    (computed : processBB cache wayBits set address start.1 ((before ++ op :: after).map Prod.fst) = some found) :
    ∃ p, Run (SetStep set address) start before p ∧
      ∃ purge, found[before.length]? = some purge ∧ processAccess cache wayBits set address p.1 op.1 = some purge := by
  induction before generalizing start found with
  | nil =>
    obtain ⟨purge,decided,computed⟩ := Option.bind_eq_some_iff.mp computed
    obtain ⟨st,_,computed⟩ := Option.bind_eq_some_iff.mp computed
    obtain ⟨rest,_,computed⟩ := Option.bind_eq_some_iff.mp computed
    obtain rfl := Option.some.inj computed
    exact ⟨start,rfl,purge,rfl,decided⟩
  | cons first before ih =>
    obtain ⟨_,_,computed⟩ := Option.bind_eq_some_iff.mp computed
    obtain ⟨st,updated,computed⟩ := Option.bind_eq_some_iff.mp computed
    obtain ⟨rest,later,computed⟩ := Option.bind_eq_some_iff.mp computed
    obtain rfl := Option.some.inj computed
    obtain ⟨p,ran,purge,here,decided⟩ :=
      @ih (st,if first.2.set = set then start.2.after first.1.action first.2.block else start.2) rest later
    exact ⟨p,⟨_,⟨updated,rfl⟩,ran⟩,purge,here,decided⟩

theorem length_processBB {set : Nat} {address : Fin size → Nat} {st : State size A} {accesses : List Access}
    {found : List (Option Purge)} (computed : processBB cache wayBits set address st accesses = some found) :
    found.length = accesses.length := by
  induction accesses generalizing st found with
  | nil =>
    obtain rfl := Option.some.inj computed
    rfl
  | cons access rest ih =>
    obtain ⟨_,_,computed⟩ := Option.bind_eq_some_iff.mp computed
    obtain ⟨_,_,computed⟩ := Option.bind_eq_some_iff.mp computed
    obtain ⟨_,later,computed⟩ := Option.bind_eq_some_iff.mp computed
    obtain rfl := Option.some.inj computed
    rw [List.length_cons,List.length_cons,ih later]

theorem run_unique {set : Nat} {address : Fin size → Nat} {start p q : State size A × Cached B A} {ops : List (Op B)}
    (first : Run (SetStep set address) start ops p) (second : Run (SetStep set address) start ops q) : p = q := by
  induction ops generalizing start with
  | nil => exact first.trans second.symm
  | cons op rest ih =>
    obtain ⟨u,⟨updated,happens⟩,first⟩ := first
    obtain ⟨v,⟨updated',happens'⟩,second⟩ := second
    obtain rfl : u = v := Prod.ext (Option.some.inj (updated.symm.trans updated')) (happens.trans happens'.symm)
    exact ih first second

theorem apply_rank (old : Purge) (purge : Option Purge) : old.rank ≤ (apply old purge).rank ∧
    (∀ q, purge = some q → q.rank ≤ (apply old purge).rank) ∧ (apply old purge = old ∨ purge = some (apply old purge)) := by
  cases purge with
  | none => exact ⟨Nat.le_refl _,fun q found => (Option.some_ne_none q found.symm).elim,.inl rfl⟩
  | some new =>
    rw [apply]
    split
    next more => exact ⟨more,fun q found => Nat.le_of_eq (by rw [Option.some.inj found]),.inr rfl⟩
    next less => exact ⟨Nat.le_refl _,fun q found => by rw [← Option.some.inj found]; omega,.inl rfl⟩

theorem processSets_spec {entry : Entry A} {accesses : List Access} {sets : List Nat} {old purges : List Purge}
    (computed : processSets cache wayBits entry accesses sets old = some purges) (length : old.length = accesses.length)
    {k : Nat} {o : Purge} (here : old[k]? = some o) : ∃ q, purges[k]? = some q ∧ o.rank ≤ q.rank ∧
      (∀ set ∈ sets, 0 < entry.size set → ∃ found,
        processBB cache wayBits set (entry.address set) (entry.start set) accesses = some found ∧
          ∀ r, found[k]? = some (some r) → r.rank ≤ q.rank) ∧
      (q = o ∨ ∃ set ∈ sets, ∃ found,
        processBB cache wayBits set (entry.address set) (entry.start set) accesses = some found ∧ found[k]? = some (some q)) := by
  induction sets generalizing old o with
  | nil =>
    obtain rfl := Option.some.inj computed
    exact ⟨o,here,Nat.le_refl _,fun set member => absurd member (List.not_mem_nil),.inl rfl⟩
  | cons set rest ih =>
    rw [processSets] at computed
    by_cases some_ : 0 < entry.size set
    · rw [if_pos some_] at computed
      obtain ⟨found,processed,computed⟩ := Option.bind_eq_some_iff.mp computed
      have bound : k < found.length := by
        rw [length_processBB processed,← length]
        exact (List.getElem?_eq_some_iff.mp here).1
      have applied : (List.zipWith apply old found)[k]? = some (apply o found[k]) := by
        rw [List.getElem?_zipWith,here,List.getElem?_eq_getElem bound]
      have lengths : (List.zipWith apply old found).length = accesses.length := by
        rw [List.length_zipWith,length,length_processBB processed,Nat.min_self]
      obtain ⟨q,last,less,all,attained⟩ := ih computed lengths applied
      obtain ⟨kept,more,either⟩ := apply_rank o found[k]
      refine ⟨q,last,Nat.le_trans kept less,fun set' member some' => ?_,?_⟩
      · rcases List.mem_cons.mp member with rfl | member
        · refine ⟨found,processed,fun r at_ => Nat.le_trans (more r ?_) less⟩
          rw [List.getElem?_eq_getElem bound] at at_
          exact Option.some.inj at_
        · exact all set' member some'
      · rcases attained with rfl | ⟨set',member,rest_⟩
        · refine either.imp id fun same => ⟨set,List.mem_cons_self ..,found,processed,?_⟩
          rw [List.getElem?_eq_getElem bound,← same]
        · exact .inr ⟨set',List.mem_cons_of_mem _ member,rest_⟩
    · rw [if_neg some_] at computed
      obtain ⟨q,last,less,all,attained⟩ := ih computed length here
      refine ⟨q,last,less,fun set' member some' => ?_,attained.imp_right fun ⟨set',member,rest_⟩ =>
        ⟨set',List.mem_cons_of_mem _ member,rest_⟩⟩
      rcases List.mem_cons.mp member with rfl | member
      · exact absurd some' some_
      · exact all set' member some'

section Right
variable {entry : Entry (2 ^ wayBits)} {names : ∀ set, Fin (entry.size set) ↪ B} {caches : Nat → Cached B (2 ^ wayBits)}
  {before after : List (Op B)} {op : Op B}

/-- An answer is right in an execution: without a purge the access evicts no dirty block,
and where a purge must be it does. -/
def Right (purges : List Purge) (k : Nat) (p : State size A × Cached B A) (op : Op B) : Prop :=
  (purges[k]? = some .NO_PURGE → ¬ EvictsDirty p.2 op.1.action op.2.block) ∧
    (purges[k]? = some .MUST_PURGE → EvictsDirty p.2 op.1.action op.2.block)

/-- In every execution of a block from caches that the states of its entry cover, the
answer for an access is right when the earlier accesses keep the states covering and the
access meets the condition in the states before it. -/
theorem purge_right (covered : ∀ set, Covers (names set) (entry.start set,caches set))
    (touch : ∀ op' ∈ before ++ op :: after, Touch (2 ^ cache.rowBits) names op')
    (updates : ∀ set, Meets (SetStep set (entry.address set)) (UpdateFits set (names set)) (entry.start set,caches set) before)
    (decides : ∀ set p, Run (SetStep set (entry.address set)) (entry.start set,caches set) before p →
      DecisionFits cache wayBits set (names set) (entry.address set) p op)
    {purges : List Purge} (computed : processWorkSpace cache wayBits entry ((before ++ op :: after).map Prod.fst) = some purges)
    {p : State (entry.size op.2.set) (2 ^ wayBits) × Cached B (2 ^ wayBits)}
    (reached : Run (SetStep op.2.set (entry.address op.2.set)) (entry.start op.2.set,caches op.2.set) before p) :
    Right purges before.length p op := by
  have earlier (op' : Op B) (member : op' ∈ before) := touch op' (List.mem_append_left _ member)
  have first : (List.replicate ((before ++ op :: after).map Prod.fst).length Purge.INV_PURGE)[before.length]? =
      some .INV_PURGE := by
    rw [List.getElem?_replicate,if_pos (by simp)]
  obtain ⟨q,here,_,all,attained⟩ := processSets_spec computed (List.length_replicate ..) first
  refine ⟨fun none => ?_,fun must => ?_⟩
  · obtain rfl := Option.some.inj (here.symm.trans none)
    have covers := covers_run (covered op.2.set) earlier (updates op.2.set) reached
    have fits := decides op.2.set p reached
    by_cases some_ : 0 < entry.size op.2.set
    · obtain ⟨found,processed,low⟩ := all op.2.set (List.mem_range.mpr (touch op (by simp)).1) some_
      obtain ⟨p',reached',purge,at_,decided⟩ :=
        @processBB_at _ _ B _ cache wayBits _ _ (entry.start op.2.set,caches op.2.set) before after op found processed
      obtain rfl := run_unique reached reached'
      exact no_purge_right covers fits rfl decided fun r same => low r (same ▸ at_)
    · -- a set without a known block has no dirty one
      rintro ⟨_,x,present,dirty,_⟩
      obtain ⟨⟨i,_⟩,_⟩ := fits.known rfl x present dirty
      exact some_ (Nat.zero_lt_of_lt i.isLt)
  · obtain rfl := Option.some.inj (here.symm.trans must)
    obtain ⟨set,member,found,processed,at_⟩ := attained.resolve_left (by decide)
    obtain ⟨_,_,purge,at',decided⟩ :=
      @processBB_at _ _ B _ cache wayBits _ _ (entry.start set,caches set) before after op found processed
    obtain rfl := Option.some.inj (at'.symm.trans at_)
    exact absurd decided (must_never_answered (List.mem_range.mp member))

end Right

end Whole

attribute [local instance] Cfg.neZero_two Cfg.neZero_three

private theorem four_lt : 4 < 32 := by decide
private theorem one_lt : 1 < 31 := by decide
private theorem no_sets : 0 < 31 := by decide
private theorem ways_two : 0 < 2 ^ 1 := by decide

/-- A set of two ways in which nothing is known of three blocks, and in which no block is. -/
def unknown : Entry (2 ^ 1) where
  size _ := 3
  address _ i := 16 * i
  start _ := ⟨⟨∅,∅⟩,ACS.empty ways_two,MayACS.empty 3⟩

def emptySet : Cached Nat (2 ^ 1) := ⟨⟨[],List.nodup_nil,Nat.zero_le _,ways_two⟩,fun _ => False⟩

def accesses (action : Action) (i : Fin 3) (category : Category) : Op Nat := (⟨action,.BLOCK 0 i,category⟩,⟨0,i⟩)

/-- Block 0 is loaded and block 1 stored to; the load of block 2 evicts block 0, which is clean, and the
load of block 0 then evicts block 1. -/
theorem purge_right_miss : ∃ p : State 3 (2 ^ 1) × Cached Nat (2 ^ 1),
    Right [.NO_PURGE,.NO_PURGE,.NO_PURGE,.MAY_PURGE] 2 p (accesses .LOAD 2 .ALWAYS_MISS) ∧
      0 ∈ p.2.lru.blocks ∧ 0 ∉ (p.2.lru.access 2).blocks ∧ p.2.dirty 1 := by
  let first : State 3 (2 ^ 1) := ⟨⟨∅,∅⟩,(ACS.empty ways_two).inject 0,(MayACS.empty 3).inject (2 ^ 1) 0⟩
  let second : State 3 (2 ^ 1) := ⟨⟨{1},{1}⟩,first.must.inject 1,first.may.inject (2 ^ 1) 1⟩
  let loaded := emptySet.after .LOAD 0
  let stored := loaded.after .STORE 1
  -- the states of the set 0, the only one with blocks
  have one (q) (step : SetStep 0 (unknown.address 0) (unknown.start 0,emptySet) (accesses .LOAD 0 .ALWAYS_MISS) q) :
      q = (first,loaded) := by
    obtain ⟨updated,happens⟩ := step
    exact Prod.ext (Option.some.inj (updated.symm.trans (show _ = some first from rfl))) happens
  have two (q) (step : SetStep 0 (unknown.address 0) (first,loaded) (accesses .STORE 1 .ALWAYS_MISS) q) : q = (second,stored) := by
    obtain ⟨updated,happens⟩ := step
    exact Prod.ext (Option.some.inj (updated.symm.trans (show _ = some second from rfl))) happens
  have reached : Run (SetStep 0 (unknown.address 0)) (unknown.start 0,emptySet)
      [accesses .LOAD 0 .ALWAYS_MISS,accesses .STORE 1 .ALWAYS_MISS] (second,stored) :=
    ⟨(first,loaded),⟨rfl,rfl⟩,(second,stored),⟨rfl,rfl⟩,rfl⟩
  refine ⟨(second,stored),?_,by decide,by decide,.inl rfl⟩
  refine @purge_right Nat _ ⟨4,0,four_lt,no_sets⟩ 1 unknown (fun _ => Fin.valEmbedding) (fun _ => emptySet)
    [accesses .LOAD 0 .ALWAYS_MISS,accesses .STORE 1 .ALWAYS_MISS] [accesses .LOAD 0 .ALWAYS_MISS] (accesses .LOAD 2 .ALWAYS_MISS)
    (fun _ => ⟨fun i present => absurd rfl present,fun i n here => by simp [emptySet] at here,fun i inside => nomatch inside⟩)
    ?_ ?_ ?_ _ rfl (second,stored) reached
  · intro op member
    have made : ∃ action i category, op = accesses action i category := by
      simp only [List.cons_append,List.nil_append,List.mem_cons,List.not_mem_nil,or_false] at member
      rcases member with rfl | rfl | rfl | rfl <;> exact ⟨_,_,_,rfl⟩
    obtain ⟨action,i,category,rfl⟩ := made
    exact ⟨Nat.one_pos,rfl,i.isLt,rfl⟩
  · intro set
    by_cases here : set = 0
    · subst here
      refine Runs.meets_cons.mpr ⟨⟨by decide,0,0,rfl,fun _ id _ aged => ?_⟩,fun q step => ?_⟩
      · obtain ⟨_,n,_,age,_⟩ := aged
        exact absurd age (by show (-1 : Int) ≠ n; omega)
      · obtain rfl := one q step
        refine Runs.meets_cons.mpr ⟨⟨by decide,0,1,rfl,fun _ id same aged => ?_⟩,fun _ _ _ _ inside => by simp at inside⟩
        obtain rfl : id = (1 : Fin 3) := Fin.ext same
        obtain ⟨_,n,_,age,_⟩ := aged
        exact absurd age (by show (-1 : Int) ≠ n; omega)
    · intro before op inside _ _
      have member : op ∈ [accesses .LOAD 0 .ALWAYS_MISS,accesses .STORE 1 .ALWAYS_MISS] := inside.subset (by simp)
      simp only [List.mem_cons,List.not_mem_nil,or_false] at member
      rcases member with rfl | rfl <;> exact ⟨by decide,0,_,rfl,fun same => absurd same.symm here⟩
  · intro set p run
    refine ⟨fun _ hit => Category.noConfusion hit,?_,?_,?_⟩
    all_goals
      rintro rfl
      obtain rfl := run_unique reached run
    · exact fun _ => by decide
    · rintro x - (rfl | ⟨_,_,none⟩)
      · exact ⟨⟨(1 : Fin 3),rfl⟩,rfl⟩
      · exact none.elim
    · rintro i ⟨dirty,_,last⟩
      obtain rfl : i = (1 : Fin 3) := Finset.mem_singleton.mp dirty
      exact absurd last (by decide)

def numbers (set : Nat) : Fin 2 ↪ Nat := ⟨fun i => 2 * i.val + set,fun i j same => Fin.ext (by simp only at same; omega)⟩

def firstDirty : Entry (2 ^ 0) where
  size _ := 2
  address set i := 16 * numbers set i
  start _ := ⟨⟨{0},∅⟩,ACS.empty (by decide),⟨fun i => if i = 0 then 0 else -1,fun i => by split <;> omega⟩⟩

def holdsFirst (set : Nat) : Cached Nat (2 ^ 0) := ⟨⟨[set],List.nodup_singleton _,Nat.le_refl 1,Nat.one_pos⟩,fun x => x = set⟩

def twoSets : Cache := ⟨4,1,four_lt,one_lt⟩

theorem first_of_numbers {set : Nat} {i : Fin 2} (same : numbers set i = set) : i = 0 := by
  have value : 2 * i.val + set = set := same
  exact Fin.ext (by show i.val = 0; omega)

theorem covers_first (set : Nat) : Covers (numbers set) (firstDirty.start set,holdsFirst set) where
  must i present := absurd rfl present
  may i n here := by
    cases n with
    | zero =>
      have same : set = numbers set i := by simpa [holdsFirst] using here
      obtain rfl := first_of_numbers same.symm
      exact ⟨(by decide : (0 : Int) ≠ -1),Int.le_refl 0⟩
    | succ n => simp [holdsFirst] at here
  mayDirty i present _ := by
    have same : numbers set i = set := by simpa [holdsFirst] using present
    obtain rfl := first_of_numbers same
    exact Finset.mem_singleton_self _

def loads (index : Nat) (category : Category) : Op Nat := (⟨.LOAD,.BLOCK 0 index,category⟩,⟨0,2 * index⟩)

theorem touch_loads {index : Nat} (bound : index < 2) (category : Category) : Touch (2 ^ twoSets.rowBits) numbers (loads index category) :=
  ⟨Nat.two_pow_pos _,rfl,bound,rfl⟩

/-- The age of the dirty block is not the number of blocks less one, and it is evicted. -/
theorem dirty_eviction_missed : ¬ ∀ (cache : Cache) (wayBits : Nat) (entry : Entry (2 ^ wayBits))
    (names : ∀ set, Fin (entry.size set) ↪ Nat) (caches : Nat → Cached Nat (2 ^ wayBits)) (before after : List (Op Nat)) (op : Op Nat)
    (purges : List Purge) (p : State (entry.size op.2.set) (2 ^ wayBits) × Cached Nat (2 ^ wayBits)),
    (∀ set, Covers (names set) (entry.start set,caches set)) →
    (∀ op' ∈ before ++ op :: after, Touch (2 ^ cache.rowBits) names op') →
    processWorkSpace cache wayBits entry ((before ++ op :: after).map Prod.fst) = some purges →
    Run (SetStep op.2.set (entry.address op.2.set)) (entry.start op.2.set,caches op.2.set) before p →
    (op.1.category = .ALWAYS_HIT → op.2.block ∈ p.2.lru.blocks) → (op.1.category = .ALWAYS_MISS → op.2.block ∉ p.2.lru.blocks) →
    Right purges before.length p op := by
  intro all
  have right := all twoSets 0 firstDirty numbers holdsFirst [] [] (loads 1 .NOT_CLASSIFIED) [.NO_PURGE]
    (firstDirty.start 0,holdsFirst 0) covers_first
    (fun op' member => by obtain rfl := List.mem_singleton.mp member; exact touch_loads (by decide) _) rfl rfl
    (fun hit => by cases hit) (fun miss => by cases miss)
  refine right.1 rfl ⟨by decide,0,List.mem_singleton_self _,rfl,?_⟩
  decide

end Otawa.Dcache.PurgeAnalysis
