import Otawa.SortedAssoc
import Mathlib.Data.BitVec
import Mathlib.Data.Prod.Lex

/-!
The values of the stack analysis: an absolute word, an offset from the initial
stack pointer, nothing or anything. Each operation lists the pairs it knows and
gives up on the others; the sum keeps the kind of its left operand.
-/
namespace Otawa.Stack

abbrev Word := BitVec 32

/-- `kind_t`; `reg` is only used for addresses. -/
inductive Kind | none | reg | sp | cst | all
deriving DecidableEq

def Kind.index : Kind → Nat
  | .none => 0
  | .reg => 1
  | .sp => 2
  | .cst => 3
  | .all => 4

theorem Kind.index_injective : Function.Injective Kind.index := by
  intro a b same
  cases a <;> cases b <;> simp_all [Kind.index]

structure Value where
  kind : Kind
  value : Word
deriving DecidableEq

namespace Value

def none : Value := ⟨.none,0⟩
def all : Value := ⟨.all,0⟩

def key (v : Value) : Nat ×ₗ Word := toLex (v.kind.index,v.value)

theorem key_injective : Function.Injective key := by
  intro ⟨a,x⟩ ⟨b,y⟩ same
  obtain ⟨kinds,words⟩ := Prod.mk.injEq .. ▸ toLex.injective same
  exact mk.injEq .. ▸ ⟨Kind.index_injective kinds,words⟩

instance : LinearOrder Value := LinearOrder.lift' key key_injective

def add (v w : Value) : Value :=
  if v.kind = .cst ∧ w.kind = .cst ∨ v.kind = .sp ∧ w.kind = .cst ∨ v.kind = .cst ∧ w.kind = .sp then
    ⟨v.kind,v.value + w.value⟩
  else if v.kind = .none ∧ w.kind = .none then ⟨.none,0⟩ else ⟨.all,0⟩

def sub (v w : Value) : Value :=
  if v.kind = .cst ∧ w.kind = .cst ∨ v.kind = .sp ∧ w.kind = .cst then ⟨v.kind,v.value - w.value⟩
  else if v.kind = .none ∧ w.kind = .none then ⟨.none,0⟩ else ⟨.all,0⟩

/-- `shl`; the C++ shift is undefined from 32 bits on. -/
def shl (v w : Value) : Value :=
  if v.kind = .cst ∧ w.kind = .cst then ⟨v.kind,v.value <<< w.value.toNat⟩
  else if v.kind = .none ∧ w.kind = .none then ⟨.none,0⟩ else ⟨.all,0⟩

/-- `shr`, with the same limit. -/
def shr (v w : Value) : Value :=
  if v.kind = .cst ∧ w.kind = .cst then ⟨v.kind,v.value >>> w.value.toNat⟩
  else if v.kind = .none ∧ w.kind = .none then ⟨.none,0⟩ else ⟨.all,0⟩

def join (v w : Value) : Value :=
  if v.kind = w.kind ∧ v.value = w.value then v
  else if v.kind ≠ .all ∧ w.kind ≠ .all ∧ (v.kind = .none ∨ w.kind = .none) then ⟨.none,0⟩
  else ⟨.all,0⟩

/-- The words a value stands for when the stack starts at `base`. -/
def Has (base : Word) (v : Value) (x : Word) : Prop :=
  match v.kind with
  | .none | .reg => False
  | .sp => x = base + v.value
  | .cst => x = v.value
  | .all => True

section Words
variable {base x y k : Word} {v w : Value}

@[simp] theorem has_none : Has base ⟨.none,k⟩ x ↔ False := .rfl
@[simp] theorem has_reg : Has base ⟨.reg,k⟩ x ↔ False := .rfl
@[simp] theorem has_sp : Has base ⟨.sp,k⟩ x ↔ x = base + k := .rfl
@[simp] theorem has_cst : Has base ⟨.cst,k⟩ x ↔ x = k := .rfl
@[simp] theorem has_all : Has base ⟨.all,k⟩ x ↔ True := .rfl

theorem Has.unique (hasX : Has base v x) (hasY : Has base v y) (known : v.kind ≠ .all) : x = y := by
  obtain ⟨kind,k⟩ := v
  cases kind <;> simp_all

/-- A sum is right when the left operand is no absolute word met by an offset. -/
theorem has_add (hasX : Has base v x) (hasY : Has base w y)
    (order : ¬(v.kind = .cst ∧ w.kind = .sp ∧ base ≠ 0)) : Has base (v.add w) (x + y) := by
  obtain ⟨kind,k⟩ := v
  obtain ⟨kind',k'⟩ := w
  cases kind <;> cases kind' <;> simp_all [add,BitVec.add_assoc]

theorem has_sub (hasX : Has base v x) (hasY : Has base w y) : Has base (v.sub w) (x - y) := by
  obtain ⟨kind,k⟩ := v
  obtain ⟨kind',k'⟩ := w
  cases kind <;> cases kind' <;> simp_all [sub,BitVec.sub_eq_add_neg,BitVec.add_assoc]

theorem has_shl (hasX : Has base v x) (hasY : Has base w y) : Has base (v.shl w) (x <<< y.toNat) := by
  obtain ⟨kind,k⟩ := v
  obtain ⟨kind',k'⟩ := w
  cases kind <;> cases kind' <;> simp_all [shl]

theorem has_shr (hasX : Has base v x) (hasY : Has base w y) : Has base (v.shr w) (x >>> y.toNat) := by
  obtain ⟨kind,k⟩ := v
  obtain ⟨kind',k'⟩ := w
  cases kind <;> cases kind' <;> simp_all [shr]

theorem join_comm : v.join w = w.join v := by
  unfold join
  by_cases same : v.kind = w.kind ∧ v.value = w.value
  · obtain rfl : v = w := by cases v; cases w; simp_all
    rfl
  · have other : ¬(w.kind = v.kind ∧ w.value = v.value) := fun back => same ⟨back.1.symm,back.2.symm⟩
    rw [if_neg same,if_neg other]
    exact if_congr (by tauto) rfl rfl

theorem join_of_ne (other : v ≠ w) (presentV : v.kind ≠ .none) (presentW : w.kind ≠ .none) : v.join w = ⟨.all,0⟩ := by
  have different : ¬(v.kind = w.kind ∧ v.value = w.value) := fun same => other (by cases v; cases w; simp_all)
  rw [join,if_neg different,if_neg (by simp [presentV,presentW])]

theorem join_of_none (other : v ≠ w) (knownV : v.kind ≠ .all) (emptyW : w.kind = .none) : v.join w = ⟨.none,0⟩ := by
  have different : ¬(v.kind = w.kind ∧ v.value = w.value) := fun same => other (by cases v; cases w; simp_all)
  rw [join,if_neg different,if_pos (by simp [knownV,emptyW])]

@[simp] theorem join_self : v.join v = v := by simp [join]

theorem has_join (hasX : Has base v x) (present : w.kind = .none → v.kind = .all) : Has base (v.join w) x := by
  obtain ⟨kind,k⟩ := v
  obtain ⟨kind',k'⟩ := w
  by_cases same : k = k' <;> cases kind <;> cases kind' <;> simp_all [join]

end Words

/-- Each result holds the words computed from words of both operands. -/
def Sound (base : Word) (v w : Value) : Prop :=
  ∀ x y, Has base v x → Has base w y →
    Has base (v.add w) (x + y) ∧ Has base (v.sub w) (x - y) ∧
    (y.toNat < 32 → Has base (v.shl w) (x <<< y.toNat) ∧ Has base (v.shr w) (x >>> y.toNat)) ∧
    Has base (v.join w) x ∧ Has base (v.join w) y

/-- An absolute word plus an offset stays absolute: that is wrong at every base but 0.
    Read for one operand alone, the join also loses a word met by nothing. -/
theorem operations_sound_iff (base : Word) (v w : Value) (plainV : v.kind ≠ .reg) (plainW : w.kind ≠ .reg) :
    (Sound base v w ↔ ¬(v.kind = .cst ∧ w.kind = .sp ∧ base ≠ 0)) ∧
    ((∀ x, Has base v x ∨ Has base w x → Has base (v.join w) x) ↔
      (v.kind = .none → w.kind = .none ∨ w.kind = .all) ∧ (w.kind = .none → v.kind = .none ∨ v.kind = .all)) := by
  refine ⟨⟨fun sound wrong => ?_,fun order x y hasX hasY => ?_⟩,fun keeps => ?_,fun present x has => ?_⟩
  · obtain ⟨kind,k⟩ := v
    obtain ⟨kind',k'⟩ := w
    obtain ⟨rfl,rfl,moved⟩ := wrong
    have sum := (sound k (base + k') rfl rfl).1
    simp only [add,or_true,and_self,if_true,has_cst] at sum
    refine moved ?_
    rw [BitVec.add_comm base,← BitVec.add_assoc] at sum
    simpa using sum
  · refine ⟨has_add hasX hasY order,has_sub hasX hasY,fun _ => ⟨has_shl hasX hasY,has_shr hasX hasY⟩,?_,?_⟩
    · exact has_join hasX fun empty => by simp [Has,empty] at hasY
    · exact join_comm ▸ has_join hasY fun empty => by simp [Has,empty] at hasX
  · obtain ⟨kind,k⟩ := v
    obtain ⟨kind',k'⟩ := w
    have left := keeps k
    have right := keeps (base + k')
    have right' := keeps k'
    have left' := keeps (base + k)
    cases kind <;> cases kind' <;> simp_all [join]
  · rcases has with hasV | hasW
    · refine has_join hasV fun empty => (present.2 empty).resolve_left fun gone => ?_
      simp [Has,gone] at hasV
    · refine join_comm ▸ has_join hasW fun empty => (present.1 empty).resolve_left fun gone => ?_
      simp [Has,gone] at hasW

/-- Two absolute words: every operation is right at any base. -/
theorem operations_sound_iff_words :
    (Sound 16 ⟨.cst,3⟩ ⟨.cst,4⟩ ↔
      ¬((⟨.cst,3⟩ : Value).kind = .cst ∧ (⟨.cst,4⟩ : Value).kind = .sp ∧ (16 : Word) ≠ 0)) ∧
    Has 16 ((⟨.cst,3⟩ : Value).join ⟨.cst,4⟩) 4 :=
  ⟨(operations_sound_iff 16 ⟨.cst,3⟩ ⟨.cst,4⟩ (by decide) (by decide)).1,
    (operations_sound_iff 16 ⟨.cst,3⟩ ⟨.cst,4⟩ (by decide) (by decide)).2.mpr (by decide) 4 (.inr rfl)⟩

/-- The sum of the word 0 and of the stack pointer at 1 is 1, not 0. -/
theorem add_loses_base :
    ¬∀ (base : Word) (v w : Value), v.kind ≠ .reg → w.kind ≠ .reg → Sound base v w := by
  intro sound
  have sum := (sound 1 ⟨.cst,0⟩ ⟨.sp,0⟩ (by decide) (by decide) 0 1 rfl rfl).1
  exact absurd sum (by simp [add])

end Value
end Otawa.Stack
