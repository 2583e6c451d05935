import Otawa.CacheAges
import Otawa.Runs
import Mathlib.Logic.Embedding.Basic

/-!
MAY analysis of one cache set. A state gives lower bounds of the ages of the blocks
that may be present; it covers a concrete set when every block of the collection in
it has an age, not greater than its position. `run_covers_iff` says along which
sequences of accesses and joins it keeps covering.
-/
namespace Otawa.Cache
open Otawa.LruSet (Lru)
open Otawa.Runs (Run Always Meets always_iff_meets meets_cons)

variable {size A : Nat}

/-- `MAYProblem::Domain`: lower bounds of ages, -1 for a block that is not there. -/
@[ext] structure MayACS (size : Nat) where
  age : Fin size → Int
  valid : ∀ i, -1 ≤ age i

namespace MayACS

def empty (size : Nat) : MayACS size := ⟨fun _ => -1,fun _ => Int.le_refl _⟩

private theorem inject_valid (A : Nat) (s : MayACS size) (id i : Fin size) : -1 ≤ MAYProblem.inject A s.age id i := by
  have here := s.valid i
  by_cases same : i = id
  · subst same
    rw [MAYProblem.inject_self]
    omega
  by_cases absent : s.age id = -1
  · rw [MAYProblem.inject_absent A absent same]
    unfold older
    dsimp only
    split <;> split <;> omega
  · rw [MAYProblem.inject_present A absent same]
    split <;> omega

def inject (A : Nat) (s : MayACS size) (id : Fin size) : MayACS size := ⟨MAYProblem.inject A s.age id,inject_valid A s id⟩

def lub (s t : MayACS size) : MayACS size where
  age := MAYProblem.lub s.age t.age
  valid i := by
    have here := s.valid i
    have there := t.valid i
    unfold MAYProblem.lub
    split <;> omega

end MayACS

/-- `MAYProblem::update`: ranges and unknown accesses leave the state as it is. The
    index of a block is in the collection; `none` when it is not. -/
def mayUpdate (A set : Nat) (s : MayACS size) : BlockAccess → Option (MayACS size)
  | .RANGE _ _ => some s
  | .ANY => some s
  | .BLOCK set' index =>
    if set' = set then
      if bound : index < size then some (s.inject A ⟨index,bound⟩) else none
    else some s

section Positions
variable {B : Type*} [DecidableEq B] {c : Lru B A} {b x : B}

theorem access_front (c : Lru B A) (b : B) : (c.access b).blocks[0]? = some b := by
  have ways := c.ways
  show ((b :: c.blocks.erase b).take A)[0]? = some b
  rw [List.getElem?_take,if_pos ways]
  rfl

private theorem access_behind {n : Nat} :
    (c.access b).blocks[n + 1]? = some x ↔ n + 1 < A ∧ (c.blocks.erase b)[n]? = some x := by
  show ((b :: c.blocks.erase b).take A)[n + 1]? = some x ↔ _
  rw [List.getElem?_take]
  by_cases fits : n + 1 < A
  · rw [if_pos fits,List.getElem?_cons_succ]
    exact (and_iff_right fits).symm
  · rw [if_neg fits]
    exact iff_of_false (by simp) fun both => fits both.1

theorem access_stays {q n : Nat} (accessed : c.blocks[q]? = some b) (behind : q ≤ n)
    (here : c.blocks[n + 1]? = some x) : (c.access b).blocks[n + 1]? = some x := by
  have inside : n + 1 < c.blocks.length := (List.getElem?_eq_some_iff.mp here).1
  obtain ⟨bound,value⟩ := List.getElem?_eq_some_iff.mp accessed
  have place : c.blocks.idxOf b = q := by rw [← value]; exact c.nodup.idxOf_getElem q bound
  refine access_behind.mpr ⟨Nat.lt_of_lt_of_le inside c.bound,?_⟩
  rw [List.erase_eq_eraseIdx_of_idxOf place,List.getElem?_eraseIdx_of_ge behind]
  exact here

theorem access_moves {n : Nat} (here : (c.access b).blocks[n + 1]? = some x) :
    n + 1 < A ∧ (c.blocks[n]? = some x ∨ c.blocks[n + 1]? = some x ∧ ∃ q ≤ n, c.blocks[q]? = some b) := by
  obtain ⟨fits,erased⟩ := access_behind.mp here
  refine ⟨fits,?_⟩
  by_cases present : b ∈ c.blocks
  · obtain ⟨q,bound,value⟩ := List.getElem_of_mem present
    have place : c.blocks.idxOf b = q := by rw [← value]; exact c.nodup.idxOf_getElem q bound
    rw [List.erase_eq_eraseIdx_of_idxOf place] at erased
    by_cases before : n < q
    · rw [List.getElem?_eraseIdx_of_lt before] at erased
      exact .inl erased
    · rw [List.getElem?_eraseIdx_of_ge (Nat.not_lt.mp before)] at erased
      exact .inr ⟨erased,q,Nat.not_lt.mp before,List.getElem?_eq_some_iff.mpr ⟨bound,value⟩⟩
  · rw [List.erase_of_not_mem present] at erased
    exact .inl erased

end Positions

variable {B : Type*} {names : Fin size ↪ B} {s : MayACS size} {c : Lru B A} {id : Fin size}

/-- Every block of the collection that is present has an age, at most its position. -/
def MayCovers (names : Fin size ↪ B) (s : MayACS size) (c : Lru B A) : Prop :=
  ∀ (i : Fin size) (n : Nat), c.blocks[n]? = some (names i) → s.age i ≠ -1 ∧ s.age i ≤ n

theorem covers_lub_left (covers : MayCovers names s c) (t : MayACS size) : MayCovers names (s.lub t) c := by
  intro i n here
  obtain ⟨present,young⟩ := covers i n here
  have known := t.valid i
  simp only [MayACS.lub,MAYProblem.lub]
  split <;> omega

theorem covers_lub_right (covers : MayCovers names s c) (t : MayACS size) : MayCovers names (t.lub s) c := by
  intro i n here
  obtain ⟨present,young⟩ := covers i n here
  have known := t.valid i
  simp only [MayACS.lub,MAYProblem.lub]
  split <;> omega

/-- The accessed block and the one behind it stand at their ages, and the loop of
    `inject`, which meets them in this order, ages the second one too. -/
def AgedWith (names : Fin size ↪ B) (s : MayACS size) (c : Lru B A) (id : Fin size) : Prop :=
  ∃ (i : Fin size) (n : Nat), id < i ∧ s.age id = n ∧ s.age i = n + 1 ∧
    c.blocks[n]? = some (names id) ∧ c.blocks[n + 1]? = some (names i)

variable [DecidableEq B]

private theorem not_agedWith (covers : MayCovers names (s.inject A id) (c.access (names id))) :
    ¬ AgedWith names s c id := by
  rintro ⟨i,n,after,age,next,accessed,behind⟩
  have young := (covers i (n + 1) (access_stays accessed (Nat.le_refl n) behind)).2
  have reached : MAYProblem.reach s.age id i = s.age id + 1 := if_pos after
  have other : i ≠ id := by
    rintro rfl
    exact Nat.lt_irrefl _ after
  simp only [MayACS.inject] at young
  rw [MAYProblem.inject_present A (by omega) other,reached,if_pos (by omega)] at young
  omega

private theorem covers_inject (covers : MayCovers names s c) (clear : ¬ AgedWith names s c id) :
    MayCovers names (s.inject A id) (c.access (names id)) := by
  intro i n here
  simp only [MayACS.inject]
  by_cases same : i = id
  · subst same
    rw [MAYProblem.inject_self]
    omega
  cases n with
  | zero =>
    rw [access_front] at here
    exact absurd (names.injective (Option.some.inj here)).symm same
  | succ n =>
    obtain ⟨fits,moved⟩ := access_moves here
    by_cases absent : s.age id = -1
    · rw [MAYProblem.inject_absent A absent same]
      -- a block without an age is not present, so that all the others move
      have before : c.blocks[n]? = some (names i) := by
        rcases moved with before | ⟨-,q,-,accessed⟩
        · exact before
        · exact absurd absent (covers id q accessed).1
      obtain ⟨present,young⟩ := covers i n before
      have known := s.valid i
      simp only [older,if_pos present]
      rw [if_neg (by omega)]
      omega
    · rw [MAYProblem.inject_present A absent same]
      have known := s.valid i
      rcases moved with before | ⟨stayed,q,behind,accessed⟩
      · obtain ⟨present,young⟩ := covers i n before
        split <;> omega
      · obtain ⟨present,young⟩ := covers i (n + 1) stayed
        obtain ⟨-,front⟩ := covers id q accessed
        have known' := s.valid id
        split
        · rename_i aged
          refine ⟨by omega,?_⟩
          by_contra old
          have passed : id < i := by
            by_contra notAfter
            have reached : MAYProblem.reach s.age id i = s.age id := if_neg notAfter
            omega
          have reached : MAYProblem.reach s.age id i = s.age id + 1 := if_pos passed
          have place : q = n := by omega
          subst place
          exact clear ⟨i,q,passed,by omega,by omega,accessed,stayed⟩
        · exact ⟨present,young⟩

/-- The set is one that the access may touch. The range of sets goes through the
    last set of the cache when its first set is above its last one. -/
def Touches (set : Nat) : BlockAccess → Prop
  | .ANY => True
  | .BLOCK set' _ => set' = set
  | .RANGE first last => if first ≤ last then first ≤ set ∧ set ≤ last else first ≤ set ∨ set ≤ last

/-- What the cache does at an access. A range or an unknown access touches any
    block, of this set or of another one. -/
def Happens (names : Fin size ↪ B) (set : Nat) (access : BlockAccess) (c c' : Lru B A) : Prop :=
  match access with
  | .BLOCK set' index => if set' = set then ∃ i : Fin size, i.val = index ∧ c' = c.access (names i) else c' = c
  | access => c' = c ∨ Touches set access ∧ ∃ b, c' = c.access b

/-- The steps of the analysis, with the `inject` of the instruction cache. -/
inductive MayOp (size : Nat)
  | access (access : BlockAccess)
  | injectCat2 (id : Fin size)
  | lub (dom : MayACS size)

/-- A step of the analysis with what happens in the cache. -/
def MayStep (names : Fin size ↪ B) (set : Nat) (p : MayACS size × Lru B A) (op : MayOp size) (q : MayACS size × Lru B A) :
    Prop :=
  match op with
  | .access access => mayUpdate A set p.1 access = some q.1 ∧ Happens names set access p.2 q.2
  | .injectCat2 id => q.1.age = MAYProblem.injectCat2 A p.1.age id ∧ q.2 = p.2.access (names id)
  | .lub dom => (q.1 = p.1.lub dom ∨ q.1 = dom.lub p.1) ∧ q.2 = p.2

/-- The condition under which a step keeps covering. -/
def MayFits (names : Fin size ↪ B) (set : Nat) (p : MayACS size × Lru B A) : MayOp size → Prop
  | .access (.BLOCK set' index) => set' = set → ∀ id : Fin size, id.val = index → ¬ AgedWith names p.1 p.2 id
  | .access access => Touches set access → ∀ i, p.1.age i = 0
  | .injectCat2 id => ¬ AgedWith names p.1 p.2 id
  | .lub _ => True

private theorem unknown_exact {set : Nat} {access : BlockAccess} (covers : MayCovers names s c) :
    (∀ c', (c' = c ∨ Touches set access ∧ ∃ b, c' = c.access b) → MayCovers names s c') ↔
      (Touches set access → ∀ i, s.age i = 0) := by
  constructor
  · intro kept touched i
    have here := kept (c.access (names i)) (.inr ⟨touched,names i,rfl⟩) i 0 (access_front c (names i))
    have known := s.valid i
    omega
  · rintro zero c' (rfl | ⟨touched,b,rfl⟩)
    · exact covers
    · intro i n _
      have age := zero touched i
      omega

theorem mayStep_exact {set : Nat} (p : MayACS size × Lru B A) (op : MayOp size) (covers : MayCovers names p.1 p.2) :
    (∀ q, MayStep names set p op q → MayCovers names q.1 q.2) ↔ MayFits names set p op := by
  obtain ⟨s,c⟩ := p
  -- a step that leaves the state alone
  have unknown {access : BlockAccess} :
      (∀ q : MayACS size × Lru B A, (some s = some q.1 ∧ (q.2 = c ∨ Touches set access ∧ ∃ b, q.2 = c.access b)) →
        MayCovers names q.1 q.2) ↔ (Touches set access → ∀ i, s.age i = 0) := by
    rw [← unknown_exact covers]
    constructor
    · intro kept c' happens
      exact kept (s,c') ⟨rfl,happens⟩
    · rintro kept ⟨t,c'⟩ ⟨same,happens⟩
      cases same
      exact kept c' happens
  cases op with
  | lub dom =>
    refine iff_of_true ?_ trivial
    rintro ⟨t,c'⟩ ⟨joined,kept⟩
    dsimp only at joined kept ⊢
    rcases joined with same | same <;> rw [same,kept]
    · exact covers_lub_left covers dom
    · exact covers_lub_right covers dom
  | injectCat2 id =>
    constructor
    · exact fun kept => not_agedWith (kept (s.inject A id,c.access (names id)) ⟨(MAYProblem.injectCat2_eq A s.age id).symm,rfl⟩)
    · rintro clear ⟨t,c'⟩ ⟨injected,accessed⟩
      obtain rfl : t = s.inject A id := MayACS.ext (injected.trans (MAYProblem.injectCat2_eq A s.age id))
      rw [show c' = c.access (names id) from accessed]
      exact covers_inject covers clear
  | access access =>
    cases access with
    | ANY => exact unknown
    | RANGE first last => exact unknown
    | BLOCK set' index =>
      by_cases other : set' = set
      · subst other
        constructor
        · intro kept _ id named
          subst named
          refine not_agedWith (kept (s.inject A id,c.access (names id)) ⟨?_,?_⟩)
          · simp [mayUpdate]
          · rw [Happens,if_pos rfl]
            exact ⟨id,rfl,rfl⟩
        · rintro clear ⟨t,c'⟩ ⟨updated,happens⟩
          rw [Happens,if_pos rfl] at happens
          obtain ⟨id,rfl,rfl⟩ := happens
          simp only [mayUpdate,id.isLt,↓reduceDIte,if_true,Option.some.injEq] at updated
          rw [← updated]
          exact covers_inject covers (clear rfl id rfl)
      · refine iff_of_true ?_ fun same => absurd same other
        rintro ⟨t,c'⟩ ⟨updated,happens⟩
        rw [Happens,if_neg other] at happens
        simp only [mayUpdate,if_neg other,Option.some.injEq] at updated
        rw [happens,← updated]
        exact covers

/-- A state keeps covering the cache in exactly the runs where no range or unknown
    access may touch the set while a block has another age than 0, and no block is
    accessed while the loop of `inject` ages the block behind it as well. -/
theorem run_covers_iff {set : Nat} (covers : MayCovers names s c) (ops : List (MayOp size)) :
    Always (MayStep names set) (fun p => MayCovers names p.1 p.2) (s,c) ops ↔
      Meets (MayStep names set) (MayFits names set) (s,c) ops :=
  always_iff_meets mayStep_exact covers ops

theorem twoNumbers_injective : Function.Injective (Fin.val : Fin 2 → Nat) := fun _ _ => Fin.ext
def twoNumbers : Fin 2 ↪ Nat := ⟨Fin.val,twoNumbers_injective⟩
theorem fourWays_nodup : ([] : List Nat).Nodup := List.nodup_nil
theorem fourWays_bound : ([] : List Nat).length ≤ 4 := Nat.zero_le 4
theorem fourWays_ways : 0 < 4 := Nat.zero_lt_succ 3
def fourWays : Lru Nat 4 := ⟨[],fourWays_nodup,fourWays_bound,fourWays_ways⟩

omit [DecidableEq B] in
theorem covers_empty (names : Fin size ↪ B) {c : Lru B A} (nothing : c.blocks = []) :
    MayCovers names (MayACS.empty size) c := by
  intro i n here
  rw [nothing] at here
  simp at here

theorem mayStep_block (id : Fin size) {set : Nat} {p q : MayACS size × Lru B A}
    (step : MayStep names set p (.access (.BLOCK set id)) q) : q = (p.1.inject A id,p.2.access (names id)) := by
  obtain ⟨updated,happens⟩ := step
  rw [Happens,if_pos rfl] at happens
  obtain ⟨i,same,accessed⟩ := happens
  obtain rfl : i = id := Fin.ext same
  simp only [mayUpdate,i.isLt,↓reduceDIte,if_true,Option.some.injEq] at updated
  exact Prod.ext updated.symm accessed

/-- Block 1, and block 0 that ages it; then a join with the state of the other order, in
    which the lower bound is 0 for both, and block 1 again. -/
def joining : List (MayOp 2) :=
  [.access (.BLOCK 0 1),.access (.BLOCK 0 0),
    .lub (((MayACS.empty 2).inject 4 ⟨0,Nat.two_pos⟩).inject 4 ⟨1,Nat.one_lt_two⟩),.injectCat2 ⟨1,Nat.one_lt_two⟩]

theorem run_covers_iff_joining :
    Always (MayStep twoNumbers 0) (fun p => MayCovers twoNumbers p.1 p.2) (MayACS.empty 2,fourWays) joining := by
  refine (run_covers_iff (covers_empty twoNumbers rfl) joining).mpr ?_
  have young (s : MayACS 2) (c : Lru Nat 4) (id : Fin 2) (ages : ∀ i, s.age i ≠ s.age id + 1 ∨ s.age id = -1) :
      ¬ AgedWith twoNumbers s c id := by
    rintro ⟨i,n,-,age,next,-⟩
    have apart := ages i
    omega
  refine meets_cons.mpr ⟨fun _ id _ => young _ _ id fun i => .inr rfl,fun p first => ?_⟩
  obtain rfl := mayStep_block (1 : Fin 2) first
  refine meets_cons.mpr ⟨fun _ id same => ?_,fun q second => ?_⟩
  · obtain rfl : id = 0 := Fin.ext same
    exact young _ _ 0 (by decide)
  obtain rfl := mayStep_block (0 : Fin 2) second
  refine meets_cons.mpr ⟨trivial,?_⟩
  rintro ⟨t,c⟩ ⟨joined,-⟩
  have ages : t.age 0 = 0 ∧ t.age 1 = 0 := by rcases joined with rfl | rfl <;> decide
  refine meets_cons.mpr ⟨young t c 1 fun i => ?_,fun _ _ before op inside => by simp at inside⟩
  match i with
  | 0 | 1 => exact .inl (by omega)

/-- An unknown access brings block 0 into the empty set, and the state still says
    that it is not there; after block 1 and block 0, a second access to block 0
    leaves block 1 where it is, and the state says it is older. -/
theorem unknown_and_same_lost :
    MayCovers twoNumbers (MayACS.empty 2) fourWays ∧
      ¬ Always (MayStep twoNumbers 0) (fun p => MayCovers twoNumbers p.1 p.2) (MayACS.empty 2,fourWays) [.access .ANY] ∧
      ¬ Always (MayStep twoNumbers 0) (fun p => MayCovers twoNumbers p.1 p.2) (MayACS.empty 2,fourWays)
        [.access (.BLOCK 0 1),.access (.BLOCK 0 0),.access (.BLOCK 0 0)] := by
  refine ⟨covers_empty twoNumbers rfl,?_,?_⟩
  · intro always
    have step : MayStep twoNumbers 0 (MayACS.empty 2,fourWays) (.access .ANY) (MayACS.empty 2,fourWays.access 0) :=
      ⟨rfl,.inr ⟨trivial,0,rfl⟩⟩
    have covers := always _ (List.prefix_refl _) _ ⟨_,step,rfl⟩
    exact absurd rfl (covers 0 0 rfl).1
  · intro always
    have step (s : MayACS 2) (c : Lru Nat 4) (i : Fin 2) :
        MayStep twoNumbers 0 (s,c) (.access (.BLOCK 0 i)) (s.inject 4 i,c.access i) := by
      refine ⟨?_,?_⟩
      · simp only [mayUpdate,i.isLt,↓reduceDIte,if_true]
      · exact ⟨i,rfl,rfl⟩
    have covers := always _ (List.prefix_refl _) _
      ⟨_,step (MayACS.empty 2) fourWays 1,_,step _ _ 0,_,step _ _ 0,rfl⟩
    exact absurd (covers 1 1 rfl).2 (by decide)

end Otawa.Cache
