import Otawa.CacheFirstLast
import Otawa.HaiFixPoints
import Otawa.InstCategories

/-!
The MUST analysis of one set of the instruction cache on a whole graph (`ACSBuilder`):
`MUSTProblem` given to the engine of abstract interpretation, under both policies. Where a
block has at most one l-block in the set, what is stored for a block is sound for the set
on every path to it, so that an l-block found there is fetched from the cache.
-/
namespace Otawa.Cache
open Otawa.Cfg Otawa.Hai
open Otawa.LruSet (Lru Within)

variable {size A : Nat}

namespace ACS

/-- The order of `lub`: ages only grow, up to -1. -/
instance : LE (ACS size A) := ⟨fun s t => ∀ i, t.age i = -1 ∨ s.age i ≠ -1 ∧ s.age i ≤ t.age i⟩

theorem eq_of_age {s t : ACS size A} (same : s.age = t.age) : s = t := by
  cases s
  cases t
  cases same
  rfl

instance : DecidableEq (ACS size A) := fun s t => decidable_of_iff (s.age = t.age) ⟨eq_of_age,congrArg age⟩

theorem below_refl (s : ACS size A) : s ≤ s := fun i => by omega

theorem below_trans (r s t : ACS size A) (first : r ≤ s) (second : s ≤ t) : r ≤ t := by
  intro i
  have := first i
  have := second i
  omega

theorem below_antisymm (s t : ACS size A) (below : s ≤ t) (above : t ≤ s) : s = t := by
  refine eq_of_age (funext fun i => ?_)
  have := below i
  have := above i
  omega

theorem below_lub_left (s t : ACS size A) : s ≤ s.lub t := by
  intro i
  simp only [lub]
  split <;> omega

theorem below_lub_right (s t : ACS size A) : t ≤ s.lub t := by
  intro i
  have := s.valid i
  have := t.valid i
  simp only [lub]
  split <;> omega

theorem lub_below (s t u : ACS size A) (first : s ≤ u) (second : t ≤ u) : s.lub t ≤ u := by
  intro i
  have := first i
  have := second i
  simp only [lub]
  split <;> omega

instance : SemilatticeSup (ACS size A) where
  le_refl := below_refl
  le_trans := below_trans
  le_antisymm := below_antisymm
  sup := lub
  le_sup_left := below_lub_left
  le_sup_right := below_lub_right
  sup_le := lub_below

/-- The constructor of `Domain`: every block is the newest one. -/
def newest [NeZero A] : ACS size A :=
  ⟨fun _ => 0,fun _ => .inr ⟨Int.le_refl 0,Int.natCast_pos.mpr (NeZero.pos A)⟩,NeZero.pos A⟩

theorem newest_below [NeZero A] (s : ACS size A) : newest ≤ s := by
  intro i
  have := s.valid i
  show s.age i = -1 ∨ (0 : Int) ≠ -1 ∧ 0 ≤ s.age i
  omega

instance [NeZero A] : OrderBot (ACS size A) where
  bot := newest
  bot_le := newest_below

theorem inject_mono {s t : ACS size A} (below : s ≤ t) (id : Fin size) : s.inject id ≤ t.inject id := by
  intro i
  by_cases same : i = id
  · subst same
    simp [inject]
  have here := below i
  have there := below id
  have known := s.valid i
  have known' := s.valid id
  have known'' := t.valid i
  simp only [inject,Function.update_of_ne same,aged,contains,bne_iff_ne,older]
  repeat' split
  all_goals omega

end ACS

theorem Sound.mono {B : Type*} {names : Naming size B} {s t : ACS size A} {c : Lru B A} (sound : Sound names s c)
    (below : s ≤ t) : Sound names t c := by
  intro i present
  have later := (below i).resolve_left present
  have known := s.valid i
  obtain ⟨b,named,within⟩ := sound i later.1
  exact ⟨b,named,within.mono (by omega)⟩

instance (cache : Geometry) : NeZero cache.wayCount :=
  ⟨by rw [Geometry.wayCount,Nat.shiftLeft_eq,Nat.one_mul]; exact (Nat.two_pow_pos _).ne'⟩

variable {n m : Nat} (g : CFG n m) (cache : Geometry) (line : Addr) (lblocks : Fin n → List (LBlock size))

/-- `MUSTProblem` on the l-blocks of the basic blocks; contexts do nothing. -/
def mustProblem : Problem n (ACS size cache.wayCount) where
  update s bb := update cache line (lblocks bb) s
  enterContext s _ := s
  leaveContext s _ := s

/-- `processLBlockSet` of `ACSBuilder` at the level `FML_NONE`: `CACHE_ACS_MUST` of the blocks
    for a line, when `solve` stops within some turns. -/
def processLBlockSet (dom : DominanceInfo n m) (info : LoopInfo n m) (unrolling : Bool)
    (must_entry : Option (ACS size cache.wayCount)) (fuel : Nat) : Option (Fin n → ACS size cache.wayCount) :=
  let entry := must_entry.getD (ACS.empty (NeZero.pos _))
  if unrolling then
    (solve g dom info firstUnrollingFixPoint (mustProblem cache line lblocks) entry fuel).map State.result
  else (solve g dom info defaultFixPoint (mustProblem cache line lblocks) entry fuel).map State.result

/-- The contents of the set at the start of a block, on a path from the entry. -/
inductive PathSet (start : Lru Addr cache.wayCount) : Fin n → Lru Addr cache.wayCount → Prop
  | entry : PathSet start g.entry start
  | step {e : Fin m} {c : Lru Addr cache.wayCount} : PathSet start (g.source e) c → g.kind e ≠ .call →
      PathSet start (g.target e) (c.accesses (fetched cache line (lblocks (g.source e))))

variable {g cache line lblocks}

theorem update_mono {s t : ACS size cache.wayCount} (below : s ≤ t) (lbs : List (LBlock size)) :
    update cache line lbs s ≤ update cache line lbs t := by
  unfold update
  split
  · exact below
  · exact ACS.inject_mono below _

theorem update_sound {names : Naming size Addr} {lbs : List (LBlock size)} (table : Table cache line names lbs)
    (few : (mapped cache line lbs).length ≤ 1) {s : ACS size cache.wayCount} {c : Lru Addr cache.wayCount}
    (sound : Sound names s c) : Sound names (update cache line lbs s) (c.accesses (fetched cache line lbs)) := by
  rw [update,lastLBlock_eq table,fetched]
  have named := table.named
  generalize mapped cache line lbs = found at few named
  rcases found with _ | ⟨lblock,_ | ⟨_,_⟩⟩
  · exact sound
  · exact inject_sound sound (named lblock (List.mem_singleton_self _))
  · exact absurd few (by simp)

section Graphs
variable {dom : DominanceInfo n m} {info : LoopInfo n m} (nest : Nested g dom info)
variable (reducible : FlowGraph.Reducible g.Flow g.entry)
variable {names : Naming size Addr} (tables : ∀ bb, Table cache line names (lblocks bb))
variable (few : ∀ bb, (mapped cache line (lblocks bb)).length ≤ 1)
variable {must_entry : Option (ACS size cache.wayCount)} {start : Lru Addr cache.wayCount}
variable (entry : ∀ s, must_entry = some s → Sound names s start)
include tables few entry

theorem PathSet.state {bb : Fin n} {c : Lru Addr cache.wayCount} (path : PathSet g cache line lblocks start bb c) :
    ∃ s, PathState g (mustProblem cache line lblocks) (must_entry.getD (ACS.empty (NeZero.pos _))) bb s ∧
      Sound names s c := by
  induction path with
  | entry =>
    refine ⟨_,.entry,?_⟩
    cases given : must_entry with
    | none => exact sound_empty names _ _
    | some s => exact entry s given
  | @step e c _ flow ih =>
    obtain ⟨s,path,sound⟩ := ih
    exact ⟨_,path.step flow,update_sound (tables _) (few _) sound⟩

include nest reducible in
theorem processed_sound {unrolling : Bool} {fuel : Nat} {must : Fin n → ACS size cache.wayCount}
    (run : processLBlockSet g cache line lblocks dom info unrolling must_entry fuel = some must) {bb : Fin n}
    {c : Lru Addr cache.wayCount} (path : PathSet g cache line lblocks start bb c) : Sound names (must bb) c := by
  obtain ⟨s,states,sound⟩ := path.state tables few entry
  refine sound.mono ?_
  have mono (bb : Fin n) (s t : ACS size cache.wayCount) (below : s ≤ t) :
    (mustProblem cache line lblocks).update s bb ≤ (mustProblem cache line lblocks).update t bb := update_mono below _
  cases unrolling with
  | true =>
    obtain ⟨st,solved,rfl⟩ := Option.map_eq_some_iff.mp run
    exact solve_covers nest reducible firstUnrollingFixPoint_lawful (fun s _ => le_refl s) (fun s _ => le_refl s) mono solved states
  | false =>
    obtain ⟨st,solved,rfl⟩ := Option.map_eq_some_iff.mp run
    exact solve_covers nest reducible defaultFixPoint_lawful (fun s _ => le_refl s) (fun s _ => le_refl s) mono solved states

end Graphs

/-- `LBLOCK_ISFIRST`. -/
def isFirst (cache : Geometry) (line : Addr) (lbs : List (LBlock size)) (lblock : LBlock size) : Bool :=
  ((lbs.foldl (FirstLast.step cache line) ⟨none,none⟩).min.map LBlock.address) == some lblock.address

/-- What `CAT2Builder` reads for an l-block at the level `FML_NONE`. -/
def catAcs (cache : Geometry) (line : Addr) (lbs : List (LBlock size)) (must : ACS size A) (may : Option Bool)
    (lblock : LBlock size) : Cat2.Acs :=
  ⟨isFirst cache line lbs lblock,must.contains lblock.cid,may,0,fun _ => false⟩

theorem contains_of_alwaysHit {p : Cat2.Program} {bb : p.Block} {acs : Cat2.Acs}
    (hit : (Cat2.classify .FML_NONE acs : Cat2.Classification p bb).category = .ALWAYS_HIT) : acs.must = true := by
  by_contra absent
  simp only [Cat2.classify,absent] at hit
  repeat' split at hit
  all_goals simp_all

section Programs
variable {p : Cat2.Program} (flow : ∀ e, (p.cfg p.entryCFG).kind e ≠ .call)
variable (reachable : ∀ bb, (p.cfg p.entryCFG).Reachable bb) (one : (p.cfg p.entryCFG).OneLeft)
variable (reducible : FlowGraph.Reducible (p.cfg p.entryCFG).Flow (p.cfg p.entryCFG).entry)
variable {cache : Geometry} {line : Addr} {lblocks : Fin (p.blocks p.entryCFG) → List (LBlock size)}
variable {names : Naming size Addr} (tables : ∀ bb, Table cache line names (lblocks bb))
variable (few : ∀ bb, (mapped cache line (lblocks bb)).length ≤ 1)
variable {must_entry : Option (ACS size cache.wayCount)} {start : Lru Addr cache.wayCount}
variable (entry : ∀ s, must_entry = some s → Sound names s start)
variable {unrolling : Bool} {fuel : Nat} {must : Fin (p.blocks p.entryCFG) → ACS size cache.wayCount}
variable (run : processLBlockSet (p.cfg p.entryCFG) cache line lblocks (p.dom p.entryCFG) (p.loops p.entryCFG) unrolling
  must_entry fuel = some must)
variable {bb : Fin (p.blocks p.entryCFG)} {c : Lru Addr cache.wayCount}
variable (path : PathSet (p.cfg p.entryCFG) cache line lblocks start bb c)
include flow reachable one reducible tables few entry run path

/-- What `ACSBuilder` stores for a block is sound on every path to it, under both policies. -/
theorem must_covers_paths : Sound names (must bb) c :=
  processed_sound (nested_of_processed (p.scanned _) reachable flow one (p.dominance _) (p.loopInfo _)) reducible tables few
    entry run path

/-- An l-block of the category `ALWAYS_HIT` is in the set when it is fetched, on every path. -/
theorem alwaysHit_fetched {before after : List (LBlock size)} {lblock : LBlock size}
    (here : lblocks bb = before ++ lblock :: after) (maps : cache.line lblock.address = line) {may : Option Bool}
    (hit : (Cat2.classify .FML_NONE (catAcs cache line (lblocks bb) (must bb) may lblock) :
      Cat2.Classification p ⟨p.entryCFG,bb⟩).category = .ALWAYS_HIT) :
    cache.block lblock.address ∈ (c.accesses (fetched cache line before)).blocks := by
  have sound := processed_sound (nested_of_processed (p.scanned _) reachable flow one (p.dominance _) (p.loopInfo _))
    reducible tables few entry run path
  have member : lblock ∈ mapped cache line (lblocks bb) := by
    rw [here]
    simp [mapped,maps]
  have contained := contains_of_alwaysHit hit
  obtain ⟨b,named,within⟩ := sound lblock.cid (by simpa [catAcs,ACS.contains] using contained)
  obtain rfl := Option.some.inj (((tables bb).named lblock member).symm.trans named)
  have nothing : mapped cache line before = [] := by
    have short := few bb
    rw [here,mapped,List.filter_append,List.length_append,List.filter_cons_of_pos (by simpa using maps),
      List.length_cons] at short
    exact List.eq_nil_of_length_eq_zero (by rw [mapped]; omega)
  rw [fetched,nothing]
  exact List.take_subset _ _ within

end Programs

attribute [local instance] Cfg.neZero_three

private theorem dominance_selfLoop : (processDominance Hai.selfLoop).isSome := by
  obtain ⟨dom,processed,-⟩ := processDominance_exact scanned_selfLoop.connected
  rw [processed]
  rfl

private theorem loops_selfLoop : (processLoopInfo Hai.selfLoop ((processDominance Hai.selfLoop).get dominance_selfLoop)).isSome := by
  obtain ⟨dom,processed,exact_⟩ := processDominance_exact scanned_selfLoop.connected
  obtain ⟨info,found,-⟩ := processLoopInfo_picked exact_ scanned_selfLoop
  rw [Option.get_of_eq_some dominance_selfLoop processed,found]
  rfl

def loopingProgram : Cat2.Program where
  cfgs := 1
  blocks _ := 3
  edges _ := 3
  cfg _ := Hai.selfLoop
  exit _ := Fin.last 2
  calledCFG _ _ := none
  entryCFG := Fin.last 0
  dom _ := (processDominance Hai.selfLoop).get dominance_selfLoop
  loops _ := (processLoopInfo Hai.selfLoop ((processDominance Hai.selfLoop).get dominance_selfLoop)).get loops_selfLoop
  scanned _ := scanned_selfLoop
  dominance _ := (Option.some_get _).symm
  loopInfo _ := (Option.some_get _).symm

/-- The loop and the block after it fetch from the same cache block. -/
def loopingBlocks : Fin 3 → List (LBlock 3) := ![[],[⟨0x1000,0⟩],[⟨0x1004,0⟩]]

def loopingMust (unrolling : Bool) : Option (Fin 3 → ACS 3 twoSets.wayCount) :=
  processLBlockSet Hai.selfLoop twoSets 0 loopingBlocks (loopingProgram.dom (Fin.last 0)) (loopingProgram.loops (Fin.last 0)) unrolling none 10

private theorem table_looping (bb : Fin 3) : Table twoSets 0 threeNames (loopingBlocks bb) := by
  match bb with
  | 0 | 1 | 2 => exact ⟨by decide,by decide⟩

def coldSet : Lru Addr twoSets.wayCount := ⟨[],List.nodup_nil,Nat.zero_le _,NeZero.pos _⟩

theorem must_covers_paths_looping : ∃ must, loopingMust true = some must ∧ (must 2).contains 0 = true ∧
    ∀ c, PathSet Hai.selfLoop twoSets 0 loopingBlocks coldSet 2 c → Sound threeNames (must 2) c := by
  have computed : (loopingMust true).map (fun must => (must 2).contains 0) = some true := by decide +kernel
  obtain ⟨must,run,hit⟩ := Option.map_eq_some_iff.mp computed
  exact ⟨must,run,hit,fun c path => must_covers_paths (p := loopingProgram) (by decide) reachable_selfLoop oneLeft_selfLoop
    reducible_selfLoop table_looping (by decide) (by simp) run path⟩

theorem alwaysHit_fetched_looping : ∃ must, loopingMust false = some must ∧
    ∀ c, PathSet Hai.selfLoop twoSets 0 loopingBlocks coldSet 2 c → (0x100 : Addr) ∈ c.blocks := by
  have computed : (loopingMust false).map (fun must => (must 2).contains 0) = some true := by decide +kernel
  obtain ⟨must,run,hit⟩ := Option.map_eq_some_iff.mp computed
  have category : (Cat2.classify .FML_NONE (catAcs twoSets 0 (loopingBlocks 2) (must 2) none ⟨0x1004,0⟩) :
      Cat2.Classification loopingProgram ⟨Fin.last 0,(2 : Fin 3)⟩).category = .ALWAYS_HIT := by
    simp [Cat2.classify,catAcs,hit]
    decide
  exact ⟨must,run,fun c path => alwaysHit_fetched (p := loopingProgram) (by decide) reachable_selfLoop oneLeft_selfLoop
    reducible_selfLoop table_looping (by decide) (by simp) run path
    (show loopingBlocks 2 = [] ++ ⟨0x1004,0⟩ :: [] from rfl) (by decide) category⟩

end Otawa.Cache
