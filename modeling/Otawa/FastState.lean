import Otawa.SortedAssoc
import Mathlib.Data.Set.Basic
import Mathlib.Data.BitVec

/-!
Abstract states with a sparse memory (`dfa::FastState`), over any domain of values. An
address without a node is unconstrained. The store to a progression of addresses
advances a cursor along the list of nodes; `storeMany_covers_iff` says when its result
covers the machines after any one of the stores.
-/
namespace Otawa.FastState
open Otawa.SortedAssoc (Sorted find)

/-- `address_t`; the sizes are as wide. -/
abbrev Address := BitVec 32

structure Domain (V : Type) where
  bot : V
  top : V
  join : V → V → V

/-- `state_t`. The registers are in blocks of eight. `bot` is an object of its own. -/
structure State (V : Type) where
  isBot : Bool
  regs : List (List V)
  mem : List (Address × V)

variable {V : Type} (dom : Domain V)

namespace State

def get (s : State V) (r : Nat) : Option V := s.regs[r >>> 3]?.bind fun block => block[r &&& 7]?

/-- The search of `load`. -/
def loadFrom (a : Address) : List (Address × V) → V
  | [] => dom.top
  | cur :: rest => if cur.1 = a then cur.2 else loadFrom a rest

def load (s : State V) (a : Address) : V := if s.isBot then dom.bot else loadFrom dom a s.mem

end State

/-! ### The store to a progression -/

/-- `a += (cur->a - a + off - 1) / off * off`, when the node is above the cursor. -/
def advance (off a cur : Address) : Address := if a < cur then a + (cur - a + off - 1) / off * off else a

/-- `value_t v = dom->join(cur->v, v)`: the `v` on the right is the variable just
    declared, without a value yet. -/
def joined (cur : V) : Option V := none.map fun v => dom.join cur v

/-- The loop that forgets the nodes of the area: a node at the cursor is dropped, the
    others are copied, also one that the cursor is rounded up to. -/
def forget (b off : Address) : Address → List (Address × V) → List (Address × V)
  | _, [] => []
  | a, cur :: rest =>
    if cur.1 < b then
      if cur.1 ≠ a then cur :: forget b off (advance off a cur.1) rest else forget b off a rest
    else cur :: rest

def joinAll [DecidableEq V] (b off : Address) : Address → List (Address × V) → Option (List (Address × V))
  | _, [] => some []
  | a, cur :: rest =>
    if cur.1 < b then
      if cur.1 = a then
        (joined dom cur.2).bind fun v =>
          (joinAll b off (a + off) rest).map fun rest => if v ≠ dom.top then (cur.1,v) :: rest else rest
      else if a < cur.1 then joinAll b off (advance off a cur.1) rest
      else (joinAll b off a rest).map (cur :: ·)
    else some (cur :: rest)

/-- The test for the first loop; `multi_max` is compared as an unsigned word. -/
def Forgets (multiMax a b off : Address) (v : V) : Prop := multiMax < (b - a) / off ∨ v = dom.top

instance [DecidableEq V] (multiMax a b off : Address) (v : V) : Decidable (Forgets dom multiMax a b off v) :=
  inferInstanceAs (Decidable (_ ∨ _))

/-- `store` from a up to b by steps of off, with its assertions. -/
def storeMany [DecidableEq V] (multiMax : Address) (s : State V) (a b off : Address) (v : V) : Option (State V) :=
  if ¬ (a < b ∧ 0 < off) then none
  else if s.isBot then some s
  else if Forgets dom multiMax a b off v then some ⟨false,s.regs,forget b off a s.mem⟩
  else (joinAll dom b off a s.mem).map fun mem => ⟨false,s.regs,mem⟩

structure Machine (W : Type) where
  reg : Nat → W
  mem : Address → W

/-- `m` after a store. -/
def Machine.write {W : Type} (m : Machine W) (a : Address) (w : W) : Machine W :=
  ⟨m.reg,fun p => if p = a then w else m.mem p⟩

theorem Machine.write_mem {W : Type} (m : Machine W) (a p : Address) (w : W) :
    (m.write a w).mem p = if p = a then w else m.mem p := rfl

/-- The words that a value covers. -/
structure Meaning (W : Type) where
  words : V → Set W
  top : ∀ w, w ∈ words dom.top
  join : ∀ v u, words v ∪ words u ⊆ words (dom.join v u)

variable {dom} {W : Type} (meaning : Meaning dom W)

structure Covers (s : State V) (m : Machine W) : Prop where
  regs : ∀ r v, s.get r = some v → m.reg r ∈ meaning.words v
  mem : ∀ a, m.mem a ∈ meaning.words (s.load dom a)

variable {mem : List (Address × V)}

theorem loadFrom_eq (sorted : Sorted mem) (a : Address) :
    State.loadFrom dom a mem = (find mem a).getD dom.top := by
  induction mem with
  | nil => rfl
  | cons cur rest ih =>
    obtain ⟨above,tail⟩ := SortedAssoc.sorted_cons.mp sorted
    rw [State.loadFrom,find,ih tail]
    by_cases here : cur.1 = a
    · rw [if_pos here,if_neg (by rw [here]; exact lt_irrefl a),if_pos here]; rfl
    · rw [if_neg here,if_neg here]
      split
      · rfl
      · rename_i less
        have greater : a < cur.1 := lt_of_le_of_ne (not_lt.mp less) (Ne.symm here)
        rw [SortedAssoc.find_eq_none_of_above fun c member => greater.trans (above c member)]

theorem loadFrom_of_mem (sorted : Sorted mem) {a : Address} {v : V} (member : (a,v) ∈ mem) :
    State.loadFrom dom a mem = v := by
  rw [loadFrom_eq sorted,(SortedAssoc.find_eq_some_iff sorted).mpr member]; rfl

theorem loadFrom_of_not_mem {a : Address} (absent : ∀ v, (a,v) ∉ mem) :
    State.loadFrom dom a mem = dom.top := by
  induction mem with
  | nil => rfl
  | cons cur rest ih =>
    have other : cur.1 ≠ a := by
      rintro rfl
      exact absent cur.2 List.mem_cons_self
    rw [State.loadFrom,if_neg other]
    exact ih fun v member => absent v (List.mem_cons_of_mem _ member)

theorem Covers.sublist {s : State V} {m : Machine W} (covers : Covers meaning s m) (live : s.isBot = false)
    (sorted : Sorted s.mem) (sub : mem.Sublist s.mem) :
    Covers meaning ⟨false,s.regs,mem⟩ m where
  regs := covers.regs
  mem a := by
    have before := covers.mem a
    rw [State.load,live,if_neg Bool.false_ne_true] at before
    rw [State.load,if_neg Bool.false_ne_true]
    by_cases kept : ∃ v, (a,v) ∈ mem
    · obtain ⟨v,member⟩ := kept
      rw [loadFrom_of_mem (sorted.sublist sub) member]
      rwa [loadFrom_of_mem sorted (sub.subset member)] at before
    · rw [loadFrom_of_not_mem (not_exists.mp kept)]
      exact meaning.top _

theorem Covers.write {s : State V} {m : Machine W} (covers : Covers meaning s m) (live : s.isBot = false)
    (sorted : Sorted s.mem) {a : Address} {w : W} :
    Covers meaning s (m.write a w) ↔ ∀ v, (a,v) ∈ s.mem → w ∈ meaning.words v := by
  have load p : s.load dom p = State.loadFrom dom p s.mem := by rw [State.load,live,if_neg Bool.false_ne_true]
  constructor
  · intro after v member
    have here := after.mem a
    rw [load,loadFrom_of_mem sorted member,Machine.write_mem,if_pos rfl] at here
    exact here
  · intro allowed
    refine ⟨covers.regs,fun p => ?_⟩
    rw [Machine.write_mem]
    split
    · rename_i same
      subst same
      rw [load]
      by_cases node : ∃ v, (p,v) ∈ s.mem
      · obtain ⟨v,member⟩ := node
        rw [loadFrom_of_mem sorted member]
        exact allowed v member
      · rw [loadFrom_of_not_mem (not_exists.mp node)]
        exact meaning.top _
    · exact covers.mem p

/-! ### The cursor -/

/-- The nodes below b, each with the cursor that reaches it. -/
def walk (b off : Address) : Address → List (Address × V) → List ((Address × V) × Address)
  | _, [] => []
  | a, cur :: rest => if cur.1 < b then (cur,a) :: walk b off (advance off a cur.1) rest else []

theorem walk_below {b off a : Address} {p : (Address × V) × Address}
    (member : p ∈ walk b off a mem) : p.1.1 < b := by
  induction mem generalizing a with
  | nil => cases member
  | cons cur rest ih =>
    rw [walk] at member
    split at member
    · rename_i below
      rcases List.mem_cons.mp member with rfl | member
      · exact below
      · exact ih member
    · cases member

def beyond (b : Address) (mem : List (Address × V)) : List (Address × V) := mem.dropWhile fun cur => cur.1 < b

theorem walk_append (b off a : Address) (mem : List (Address × V)) :
    (walk b off a mem).map Prod.fst ++ beyond b mem = mem := by
  induction mem generalizing a with
  | nil => rfl
  | cons cur rest ih =>
    rw [walk,beyond,List.dropWhile_cons]
    split
    · rename_i below
      rw [if_pos (decide_eq_true below),List.map_cons,List.cons_append]
      exact congrArg _ (ih _)
    · rename_i above
      rw [if_neg (by simpa using above)]
      rfl

/-- The nodes that the cursor meets with some relation, and those from b on. -/
def kept (b off a : Address) (mem : List (Address × V)) (keep : Address → Address → Bool) : List (Address × V) :=
  ((walk b off a mem).filter fun p => keep p.1.1 p.2).map Prod.fst ++ beyond b mem

theorem kept_sublist (b off a : Address) (mem : List (Address × V)) (keep : Address → Address → Bool) :
    (kept b off a mem keep).Sublist mem := by
  have parts := (List.filter_sublist (p := fun p => keep p.1.1 p.2) (l := walk b off a mem)).map Prod.fst
  have whole := parts.append (List.Sublist.refl (beyond b mem))
  rwa [walk_append] at whole

theorem le_of_mem_beyond {b : Address} (sorted : Sorted mem) {x : Address × V}
    (member : x ∈ beyond b mem) : b ≤ x.1 := by
  induction mem with
  | nil => cases member
  | cons cur rest ih =>
    obtain ⟨above,tail⟩ := SortedAssoc.sorted_cons.mp sorted
    rw [beyond,List.dropWhile_cons] at member
    split at member
    · exact ih tail member
    · rename_i from_
      have first : b ≤ cur.1 := by simpa using from_
      rcases List.mem_cons.mp member with rfl | member
      · exact first
      · exact first.trans (above x member).le

theorem mem_kept {b off a : Address} {keep : Address → Address → Bool} (sorted : Sorted mem)
    {x : Address × V} (below : x.1 < b) :
    x ∈ kept b off a mem keep ↔ ∃ c, (x,c) ∈ walk b off a mem ∧ keep x.1 c = true := by
  rw [kept,List.mem_append,or_iff_left fun member => absurd below (not_lt.mpr (le_of_mem_beyond sorted member))]
  simp

theorem forget_eq (b off a : Address) (mem : List (Address × V)) :
    forget b off a mem = kept b off a mem fun cur a => cur ≠ a := by
  induction mem generalizing a with
  | nil => rfl
  | cons cur rest ih =>
    rw [forget,kept,walk,beyond,List.dropWhile_cons]
    split
    · rename_i below
      rw [if_pos (decide_eq_true below)]
      split
      · rename_i other
        rw [List.filter_cons_of_pos (by simpa using other),List.map_cons,List.cons_append,ih]
        rfl
      · rename_i same
        have still : advance off a cur.1 = a := by
          rw [advance,if_neg (by rw [not_not.mp same]; exact lt_irrefl a)]
        rw [List.filter_cons_of_neg (by simpa using same),still,ih]
        rfl
    · rename_i above
      rw [if_neg (by simpa using above)]
      rfl

theorem joinAll_eq [DecidableEq V] (b off a : Address) (mem : List (Address × V)) :
    joinAll dom b off a mem =
      if ∃ p ∈ walk b off a mem, p.1.1 = p.2 then none else some (kept b off a mem fun cur a => cur < a) := by
  induction mem generalizing a with
  | nil => simp [joinAll,walk,kept,beyond]
  | cons cur rest ih =>
    rw [joinAll,kept,walk,beyond,List.dropWhile_cons]
    by_cases below : cur.1 < b
    · rw [if_pos below,if_pos below,if_pos (decide_eq_true below)]
      simp only [List.exists_mem_cons_iff]
      rcases lt_trichotomy cur.1 a with less | same | greater
      · have still : advance off a cur.1 = a := by rw [advance,if_neg less.asymm]
        rw [if_neg less.ne,if_neg less.asymm,ih,still,List.filter_cons_of_pos (by simpa using less)]
        simp only [less.ne,false_or]
        split <;> rfl
      · rw [if_pos same,if_pos (Or.inl same)]; rfl
      · rw [if_neg greater.ne',if_pos greater,ih,List.filter_cons_of_neg (by simpa using greater.le)]
        simp only [greater.ne',false_or]
        rfl
    · rw [if_neg below,if_neg below]
      simp [below]

def OnProgression (a off x : Address) : Prop := ∃ k : Nat, x.toNat = a.toNat + k * off.toNat

/-- The cursor is on the progression, not above the nodes of it that are left, or there
    are none. -/
def Ahead (a off c : Address) (mem : List (Address × V)) : Prop :=
  OnProgression a off c ∧ (∀ x ∈ mem, OnProgression a off x.1 → c ≤ x.1) ∨ ∀ x ∈ mem, ¬ OnProgression a off x.1

/-- The cursor steps over a node by a multiple of the offset, to the first address of its
    progression that is not below the node, which may be past the last address. It stays
    where it is when the sum wraps. -/
private theorem advance_spec {off c x : Address} (positive : 0 < off) (less : c < x) :
    advance off c x = c ∨ ∃ q : Nat, x.toNat ≤ c.toNat + q * off.toNat ∧ c.toNat + q * off.toNat < x.toNat + off.toNat ∧
      (c.toNat + q * off.toNat < 2^32 → (advance off c x).toNat = c.toNat + q * off.toNat) := by
  have below := x.isLt
  have belowC := c.isLt
  have belowOff := off.isLt
  rw [BitVec.lt_def] at less positive
  have zero : (0 : Address).toNat = 0 := rfl
  rw [zero] at positive
  have distance : (x - c).toNat = x.toNat - c.toNat := by rw [BitVec.toNat_sub]; omega
  have sum : (x - c + off - 1).toNat = (x.toNat - c.toNat + off.toNat - 1) % 2^32 := by
    have unit : (1 : Address).toNat = 1 := rfl
    rw [BitVec.toNat_sub,BitVec.toNat_add,distance,unit]
    omega
  have steps : ((x - c + off - 1) / off * off).toNat =
      (x.toNat - c.toNat + off.toNat - 1) % 2^32 / off.toNat * off.toNat := by
    have inside := Nat.div_mul_le_self ((x.toNat - c.toNat + off.toNat - 1) % 2^32) off.toNat
    rw [BitVec.toNat_mul,BitVec.toNat_udiv,sum,Nat.mod_eq_of_lt (by omega)]
  have result : (advance off c x).toNat =
      (c.toNat + (x.toNat - c.toNat + off.toNat - 1) % 2^32 / off.toNat * off.toNat) % 2^32 := by
    rw [advance,if_pos (BitVec.lt_def.mpr less),BitVec.toNat_add,steps]
  by_cases wraps : x.toNat - c.toNat + off.toNat - 1 < 2^32
  · rw [Nat.mod_eq_of_lt wraps] at result
    have parts := Nat.div_add_mod (x.toNat - c.toNat + off.toNat - 1) off.toNat
    have rest := Nat.mod_lt (x.toNat - c.toNat + off.toNat - 1) positive
    rw [Nat.mul_comm] at parts
    refine Or.inr ⟨(x.toNat - c.toNat + off.toNat - 1) / off.toNat,by omega,by omega,fun inside => ?_⟩
    rw [result,Nat.mod_eq_of_lt inside]
  · have small : (x.toNat - c.toNat + off.toNat - 1) % 2^32 < off.toNat := by omega
    rw [Nat.div_eq_of_lt small,Nat.zero_mul,Nat.add_zero,Nat.mod_eq_of_lt belowC] at result
    exact Or.inl (BitVec.eq_of_toNat_eq result)

theorem Ahead.step {a off c : Address} {cur : Address × V} {rest : List (Address × V)} (positive : 0 < off)
    (sorted : Sorted (cur :: rest)) (ahead : Ahead a off c (cur :: rest)) : Ahead a off (advance off c cur.1) rest := by
  obtain ⟨above,-⟩ := SortedAssoc.sorted_cons.mp sorted
  rcases ahead with ⟨⟨j,place⟩,least⟩ | none
  · have still : Ahead a off c rest :=
      Or.inl ⟨⟨j,place⟩,fun x member => least x (List.mem_cons_of_mem _ member)⟩
    by_cases less : c < cur.1
    · rcases advance_spec positive less with same | ⟨q,up,down,arrives⟩
      · rwa [same]
      · -- a node of the progression below the next cursor would be below the node just passed
        have next {x : Address × V} (member : x ∈ rest) {k : Nat} (on : x.1.toNat = a.toNat + k * off.toNat) :
            c.toNat + q * off.toNat ≤ x.1.toNat := by
          have greater := BitVec.lt_def.mp (above x member)
          by_contra short
          have fewer : k < j + q := by
            by_contra more
            have := Nat.mul_le_mul_right off.toNat (Nat.le_of_not_lt more)
            rw [Nat.add_mul] at this
            omega
          have := Nat.mul_le_mul_right off.toNat (Nat.succ_le_of_lt fewer)
          rw [Nat.succ_mul,Nat.add_mul] at this
          omega
        by_cases inside : c.toNat + q * off.toNat < 2^32
        · refine Or.inl ⟨⟨j + q,by rw [arrives inside,place,Nat.add_mul,Nat.add_assoc]⟩,fun x member ⟨k,on⟩ => ?_⟩
          rw [BitVec.le_def,arrives inside]
          exact next member on
        · refine Or.inr fun x member ⟨k,on⟩ => ?_
          have := next member on
          have := x.1.isLt
          omega
    · rwa [advance,if_neg less]
  · exact Or.inr fun x member => none x (List.mem_cons_of_mem _ member)

theorem walk_ahead {a b off c : Address} (positive : 0 < off) (sorted : Sorted mem)
    (ahead : Ahead a off c mem) : ∀ p ∈ walk b off c mem, OnProgression a off p.1.1 → p.2 ≤ p.1.1 := by
  induction mem generalizing c with
  | nil => exact fun _ member => absurd member List.not_mem_nil
  | cons cur rest ih =>
    intro p member on
    rw [walk] at member
    split at member
    · rcases List.mem_cons.mp member with rfl | member
      · rcases ahead with ⟨_,least⟩ | none
        · exact least cur List.mem_cons_self on
        · exact absurd on (none cur List.mem_cons_self)
      · exact ih (SortedAssoc.sorted_cons.mp sorted).2 (ahead.step positive sorted) p member on
    · cases member

/-- Whichever address of the progression is written, the result covers the machine, and
    its nodes are in order. -/
def Right (multiMax : Address) (s : State V) (a b off : Address) (v : V) [DecidableEq V] : Prop :=
  ∃ s', storeMany dom multiMax s a b off v = some s' ∧ Sorted s'.mem ∧
    ∀ p, OnProgression a off p → p < b → ∀ m, Covers meaning s m → ∀ w ∈ meaning.words v,
      Covers meaning s' (m.write p w)

private theorem right_of_kept [DecidableEq V] {multiMax : Address} {s : State V} {a b off : Address} {v : V}
    (live : s.isBot = false) (sorted : Sorted s.mem) (sub : mem.Sublist s.mem)
    (stored : storeMany dom multiMax s a b off v = some ⟨false,s.regs,mem⟩) :
    Right meaning multiMax s a b off v ↔ ((∃ m, Covers meaning s m) →
      ∀ x ∈ mem, OnProgression a off x.1 → x.1 < b → meaning.words v ⊆ meaning.words x.2) := by
  have ordered := sorted.sublist sub
  constructor
  · rintro ⟨s',stored',_,right⟩ ⟨m,covers⟩ x member on below w word
    obtain rfl := Option.some.inj (stored.symm.trans stored')
    exact ((covers.sublist meaning live sorted sub).write meaning rfl ordered).mp (right x.1 on below m covers w word) x.2 member
  · intro allowed
    refine ⟨_,stored,ordered,fun p on below m covers w word => ?_⟩
    refine ((covers.sublist meaning live sorted sub).write meaning rfl ordered).mpr fun u member => ?_
    exact allowed ⟨m,covers⟩ (p,u) member on below word

/-- The first loop: a node of the progression that the cursor does not meet allows the
    words stored, if there is any machine. The second one: the cursor meets no node. -/
def Clear (multiMax : Address) (s : State V) (a b off : Address) (v : V) : Prop :=
  (Forgets dom multiMax a b off v → (∃ m, Covers meaning s m) → ∀ p ∈ walk b off a s.mem,
    OnProgression a off p.1.1 → p.1.1 ≠ p.2 → meaning.words v ⊆ meaning.words p.1.2) ∧
  (¬ Forgets dom multiMax a b off v → ∀ p ∈ walk b off a s.mem, p.1.1 ≠ p.2)

/-- The store to a progression is right exactly when its way along the nodes is clear. -/
theorem storeMany_covers_iff [DecidableEq V] (multiMax : Address) (s : State V) (a b off : Address) (v : V)
    (live : s.isBot = false) (sorted : Sorted s.mem) (order : a < b) (positive : 0 < off) :
    Right meaning multiMax s a b off v ↔ Clear meaning multiMax s a b off v := by
  have checked : ¬ ¬ (a < b ∧ 0 < off) := not_not.mpr ⟨order,positive⟩
  have alive : ¬ s.isBot = true := by rw [live]; decide
  by_cases forgets : Forgets dom multiMax a b off v
  · have stored : storeMany dom multiMax s a b off v = some ⟨false,s.regs,kept b off a s.mem fun cur c => cur ≠ c⟩ := by
      rw [storeMany,if_neg checked,if_neg alive,if_pos forgets,forget_eq]
    rw [right_of_kept meaning live sorted (kept_sublist ..) stored,Clear]
    constructor
    · intro allowed
      refine ⟨fun _ machine p member on apart => ?_,fun other => absurd forgets other⟩
      have below := walk_below member
      exact allowed machine p.1 ((mem_kept sorted below).mpr ⟨p.2,member,by simpa using apart⟩) on below
    · rintro ⟨allowed,-⟩ machine x member on below
      obtain ⟨c,reached,apart⟩ := (mem_kept sorted below).mp member
      exact allowed forgets machine (x,c) reached on (by simpa using apart)
  · rw [Clear]
    by_cases meets : ∃ p ∈ walk b off a s.mem, p.1.1 = p.2
    · obtain ⟨p,member,same⟩ := id meets
      refine iff_of_false ?_ fun clear => clear.2 forgets p member same
      rintro ⟨s',stored,-⟩
      rw [storeMany,if_neg checked,if_neg alive,if_neg forgets,joinAll_eq,if_pos meets] at stored
      cases stored
    · have stored : storeMany dom multiMax s a b off v = some ⟨false,s.regs,kept b off a s.mem fun cur c => cur < c⟩ := by
        rw [storeMany,if_neg checked,if_neg alive,if_neg forgets,joinAll_eq,if_neg meets]; rfl
      rw [right_of_kept meaning live sorted (kept_sublist ..) stored]
      refine iff_of_true (fun _ x member on below => ?_)
        ⟨fun other => absurd other forgets,fun _ p member same => meets ⟨p,member,same⟩⟩
      obtain ⟨c,reached,passed⟩ := (mem_kept sorted below).mp member
      have ahead : Ahead a off a s.mem := Or.inl ⟨⟨0,by omega⟩,fun x _ ⟨k,on⟩ => by rw [BitVec.le_def]; omega⟩
      exact absurd (of_decide_eq_true passed) (not_lt.mpr (walk_ahead positive sorted ahead (x,c) reached on))

/-- Nothing, one word, or any word. -/
inductive Const | bot | word (w : Nat) | top
  deriving DecidableEq

def Const.join : Const → Const → Const
  | bot, v => v
  | v, bot => v
  | v, u => if v = u then v else top

def consts : Domain Const := ⟨.bot,.top,Const.join⟩

def Const.words : Const → Set Nat
  | bot => ∅
  | word w => {w}
  | top => Set.univ

def constWords : Meaning consts Nat where
  words := Const.words
  top _ := trivial
  join v u w member := by
    show w ∈ Const.words (Const.join v u)
    by_cases same : v = u
    · subst same
      have self : Const.join v v = v := by cases v <;> simp [Const.join]
      rw [self]
      exact member.elim id id
    · cases v with
      | bot => exact member.resolve_left id
      | word _ | top =>
        cases u with
        | bot => exact member.resolve_right id
        | word _ | top =>
          rw [Const.join,if_neg same]
          · exact trivial
          all_goals rintro ⟨⟩

/-- The node at 8 is not on the way of the stores at 0, 4 and 12, but on that at 8. -/
def oneNode : State Const := ⟨false,[],[(8,.word 1)]⟩

theorem storeMany_covers_iff_oneNode : Right constWords 8 oneNode 0 16 4 (.word 2) ↔ Clear constWords 8 oneNode 0 16 4 (.word 2) :=
  storeMany_covers_iff constWords 8 oneNode 0 16 4 (.word 2) rfl (List.pairwise_singleton _ _) (by decide) (by decide)

/-- The cursor is rounded up from 0 to the node at 8, and the node is copied with its old
    word, though any word may have been stored there. -/
theorem node_survives : ¬ ∀ (V W : Type) [DecidableEq V] (dom : Domain V) (meaning : Meaning dom W) (multiMax : Address)
    (s : State V) (a b off : Address) (v : V), s.isBot = false → Sorted s.mem → a < b → 0 < off →
    Right meaning multiMax s a b off v := by
  intro right
  obtain ⟨s',stored,_,covered⟩ := right Const Nat consts constWords 8 oneNode 0 16 4 .top rfl
    (List.pairwise_singleton _ _) (by decide) (by decide)
  have result : storeMany consts 8 oneNode 0 16 4 .top = some oneNode := by rfl
  obtain rfl := Option.some.inj (result.symm.trans stored)
  have load p : oneNode.load consts p = if 8 = p then .word 1 else .top := rfl
  have machine : Covers constWords oneNode ⟨fun _ => 0,fun _ => 1⟩ := by
    refine ⟨fun r v known => ?_,fun p => ?_⟩
    · cases known
    · rw [load]
      split
      · exact rfl
      · exact trivial
  have after := (covered 8 ⟨2,rfl⟩ (by decide) _ machine 2 trivial).mem 8
  rw [load,if_pos rfl,Machine.write_mem,if_pos rfl] at after
  exact absurd after (by show ¬ 2 = 1; decide)

end Otawa.FastState
