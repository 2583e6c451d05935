import Otawa.FastState
import Mathlib.Order.BoundedOrder.Lattice
import Mathlib.Data.Fintype.Order

/-!
The load from a progression of addresses of `dfa::FastState`, over a domain that is a
lattice. The walk sees the nodes only, so that its result is above the single loads
when each address of the progression has a node.
-/
namespace Otawa.FastState
open Otawa.SortedAssoc (Sorted)

variable {V : Type}

def lattice (V : Type) [SemilatticeSup V] [BoundedOrder V] : Domain V := ⟨⊥,⊤,(· ⊔ ·)⟩

/-- The loop of the multiple `load`. -/
def loadNodes (dom : Domain V) (b off : Address) : Address → V → List (Address × V) → V
  | _, r, [] => r
  | a, r, cur :: rest =>
    if cur.1 < b then
      if cur.1 = a then loadNodes dom b off (a + off) (dom.join r cur.2) rest
      else loadNodes dom b off (advance off a cur.1) r rest
    else r

/-- `load` from a up to b by steps of off, with its assertions. -/
def loadMany (dom : Domain V) (multiMax : Address) (s : State V) (a b off : Address) : Option V :=
  if ¬ (a < b ∧ 0 < off) then none
  else if multiMax < (b - a) / off then some dom.top
  else some (loadNodes dom b off a dom.bot s.mem)

section Lattice
variable [SemilatticeSup V] [BoundedOrder V] {multiMax a b off : Address} {s : State V}

def Above (multiMax : Address) (s : State V) (a b off : Address) : Prop :=
  ∃ r, loadMany (lattice V) multiMax s a b off = some r ∧
    ∀ p, OnProgression a off p → p < b → s.load (lattice V) p ≤ r

/-- Too many addresses, or a node at each one, or the state `bot`. -/
def Spans (multiMax : Address) (s : State V) (a b off : Address) : Prop :=
  s.isBot = true ∨ multiMax < (b - a) / off ∨ ∀ p, OnProgression a off p → p < b → ∃ v, (p,v) ∈ s.mem

theorem le_loadNodes (a : Address) (r : V) (mem : List (Address × V)) : r ≤ loadNodes (lattice V) b off a r mem := by
  induction mem generalizing a r with
  | nil => exact le_refl r
  | cons cur rest ih =>
    rw [loadNodes]
    split
    · split
      · exact le_sup_left.trans (ih _ _)
      · exact ih _ _
    · exact le_refl r

theorem loadNodes_above (positive : 0 < off) {mem : List (Address × V)} (sorted : Sorted mem)
    (nodes : ∀ p, OnProgression a off p → p < b → ∃ v, (p,v) ∈ mem) (r : V) {p : Address} {v : V}
    (on : OnProgression a off p) (below : p < b) (member : (p,v) ∈ mem) : v ≤ loadNodes (lattice V) b off a r mem := by
  induction mem generalizing a r with
  | nil => cases member
  | cons cur rest ih =>
    obtain ⟨above,tail⟩ := SortedAssoc.sorted_cons.mp sorted
    obtain ⟨k,place⟩ := on
    have step : 0 < off.toNat := BitVec.lt_def.mp positive
    have first : cur.1 ≤ p := by
      rcases List.mem_cons.mp member with rfl | member
      · exact le_refl _
      · exact (above _ member).le
    have start : a ≤ p := BitVec.le_def.mpr (by omega)
    rw [loadNodes,if_pos (lt_of_le_of_lt first below)]
    rcases lt_trichotomy cur.1 a with less | same | greater
    · -- a node before the cursor
      have still : advance off a cur.1 = a := by rw [advance,if_neg less.asymm]
      have later {q : Address} (on : OnProgression a off q) : q ≠ cur.1 := by
        rintro rfl
        obtain ⟨j,at_⟩ := on
        have := BitVec.lt_def.mp less
        omega
      have inside {q : Address} {u : V} (on : OnProgression a off q) (member : (q,u) ∈ cur :: rest) : (q,u) ∈ rest :=
        (List.mem_cons.mp member).resolve_left fun same => later on (congrArg Prod.fst same)
      rw [if_neg less.ne,still]
      refine ih tail (fun q on below => ?_) r ⟨k,place⟩ (inside ⟨k,place⟩ member)
      obtain ⟨u,node⟩ := nodes q on below
      exact ⟨u,inside on node⟩
    · rw [if_pos same]
      rcases k with _ | k
      · -- the node at the cursor
        have here : p = cur.1 := by rw [same]; exact BitVec.eq_of_toNat_eq (by omega)
        have value : v = cur.2 := by
          rcases List.mem_cons.mp member with equal | member
          · exact congrArg Prod.snd equal
          · exact absurd (above _ member) (by rw [here]; exact lt_irrefl _)
        rw [value]
        exact le_sup_right.trans (le_loadNodes _ _ _)
      · rw [Nat.succ_mul] at place
        have next : (a + off).toNat = a.toNat + off.toNat := by
          have := p.isLt
          rw [BitVec.toNat_add,Nat.mod_eq_of_lt (by omega)]
        have inside {q : Address} {u : V} (on : OnProgression (a + off) off q) (member : (q,u) ∈ cur :: rest) : (q,u) ∈ rest := by
          refine (List.mem_cons.mp member).resolve_left fun equal => ?_
          obtain ⟨j,at_⟩ := on
          have := congrArg (fun x : Address × V => x.1.toNat) equal
          simp only [same] at this
          omega
        have on : OnProgression (a + off) off p := ⟨k,by omega⟩
        refine ih tail (fun q on below => ?_) _ on (inside on member)
        obtain ⟨j,at_⟩ := id on
        obtain ⟨u,node⟩ := nodes q ⟨j + 1,by rw [Nat.succ_mul]; omega⟩ below
        exact ⟨u,inside on node⟩
    · -- the cursor would have no node
      obtain ⟨u,node⟩ := nodes a ⟨0,by omega⟩ (lt_of_le_of_lt start below)
      rcases List.mem_cons.mp node with equal | member
      · exact absurd (congrArg Prod.fst equal) greater.ne
      · exact absurd (above _ member) greater.asymm

theorem loadNodes_bot (a : Address) {mem : List (Address × V)} (empty : ∀ x ∈ mem, x.2 = ⊥) :
    loadNodes (lattice V) b off a ⊥ mem = ⊥ := by
  induction mem generalizing a with
  | nil => rfl
  | cons cur rest ih =>
    have value : cur.2 = ⊥ := empty cur List.mem_cons_self
    have none : (lattice V).join ⊥ cur.2 = ⊥ := by rw [value]; exact sup_idem ⊥
    have others := fun x member => empty x (List.mem_cons_of_mem _ member)
    rw [loadNodes,none]
    split
    · split
      · exact ih _ others
      · exact ih _ others
    · rfl

theorem above_of_spans (sorted : Sorted s.mem) (order : a < b) (positive : 0 < off) (spans : Spans multiMax s a b off) :
    Above multiMax s a b off := by
  have checked : ¬ ¬ (a < b ∧ 0 < off) := not_not.mpr ⟨order,positive⟩
  rw [Above,loadMany,if_neg checked]
  by_cases many : multiMax < (b - a) / off
  · rw [if_pos many]
    exact ⟨⊤,rfl,fun p _ _ => le_top⟩
  · rw [if_neg many]
    refine ⟨_,rfl,fun p on below => ?_⟩
    rw [State.load]
    split
    · exact bot_le
    next live =>
      have nodes := (spans.resolve_left live).resolve_left many
      obtain ⟨v,member⟩ := nodes p on below
      rw [loadFrom_of_mem sorted member]
      exact loadNodes_above positive sorted nodes _ on below member

theorem above_iff_of_not_spans (missing : ¬ Spans multiMax s a b off) :
    Above multiMax s a b off ↔ loadMany (lattice V) multiMax s a b off = some ⊤ := by
  simp only [Spans,not_or,not_forall,not_exists] at missing
  obtain ⟨live,many,p,on,below,absent⟩ := missing
  constructor
  · rintro ⟨r,loaded,above⟩
    have top := above p on below
    rw [State.load,if_neg live,loadFrom_of_not_mem absent] at top
    rw [loaded,top_le_iff.mp top]
  · intro loaded
    exact ⟨⊤,loaded,fun p _ _ => le_top⟩

/-- Whatever the values at the nodes, the result is above the loads exactly when it joins
    too many addresses or each one has a node. -/
theorem loadMany_above_iff [Nontrivial V] (sorted : Sorted s.mem) (order : a < b) (positive : 0 < off) :
    (∀ s' : State V, s'.isBot = s.isBot → s'.mem.map Prod.fst = s.mem.map Prod.fst → Above multiMax s' a b off) ↔
      Spans multiMax s a b off := by
  constructor
  · intro always
    by_contra missing
    have same : (s.mem.map fun x => (x.1,(⊥ : V))).map Prod.fst = s.mem.map Prod.fst := by simp [Function.comp_def]
    have above := always ⟨s.isBot,s.regs,s.mem.map fun x => (x.1,⊥)⟩ rfl same
    have missing' : ¬ Spans multiMax ⟨s.isBot,s.regs,s.mem.map fun x => (x.1,(⊥ : V))⟩ a b off := by
      refine mt (Or.imp id (Or.imp id fun nodes p on below => ?_)) missing
      obtain ⟨v,member⟩ := nodes p on below
      obtain ⟨x,inside,equal⟩ := List.mem_map.mp member
      obtain rfl : x.1 = p := congrArg Prod.fst equal
      exact ⟨x.2,inside⟩
    have loaded := (above_iff_of_not_spans missing').mp above
    have many : ¬ multiMax < (b - a) / off := fun many => missing (Or.inr (Or.inl many))
    rw [loadMany,if_neg (not_not.mpr ⟨order,positive⟩),if_neg many] at loaded
    have none : loadNodes (lattice V) b off a ⊥ (s.mem.map fun x => (x.1,(⊥ : V))) = ⊥ := by
      refine loadNodes_bot a fun x member => ?_
      obtain ⟨y,-,rfl⟩ := List.mem_map.mp member
      rfl
    exact bot_ne_top (none.symm.trans (Option.some.inj loaded))
  · intro spans s' live keys
    have keys_mem {p : Address} : (∃ v, (p,v) ∈ s.mem) ↔ ∃ v, (p,v) ∈ s'.mem := by
      have member : p ∈ s.mem.map Prod.fst ↔ p ∈ s'.mem.map Prod.fst := by rw [keys]
      simpa using member
    have sorted' : Sorted s'.mem := by
      have ordered : (s'.mem.map Prod.fst).Pairwise (· < ·) := keys ▸ List.pairwise_map.mpr sorted
      exact List.pairwise_map.mp ordered
    refine above_of_spans sorted' order positive ?_
    refine spans.imp (fun bot => live.trans bot) (Or.imp id fun nodes p on below => ?_)
    exact keys_mem.mp (nodes p on below)

end Lattice

def threeNodes : State Bool := ⟨false,[],[(0,false),(4,true),(8,false)]⟩

theorem loadMany_above_iff_threeNodes :
    (∀ s' : State Bool, s'.isBot = threeNodes.isBot → s'.mem.map Prod.fst = threeNodes.mem.map Prod.fst →
      Above 8 s' 0 12 4) ↔ Spans 8 threeNodes 0 12 4 :=
  loadMany_above_iff (by unfold Sorted; decide) (by decide) (by decide)

/-- No node in the area: bottom instead of top. -/
theorem loadMany_misses : ¬ ∀ (V : Type) [SemilatticeSup V] [BoundedOrder V] (multiMax : Address) (s : State V) (a b off : Address),
    Sorted s.mem → a < b → 0 < off → Above multiMax s a b off := by
  intro always
  obtain ⟨r,loaded,above⟩ := always Bool 8 ⟨false,[],[]⟩ 0 8 4 List.Pairwise.nil (by decide) (by decide)
  obtain rfl := Option.some.inj loaded
  exact absurd (above 4 ⟨1,rfl⟩ (by decide)) (by decide)

end Otawa.FastState
