import Mathlib.Algebra.Order.Group.Nat
import Mathlib.Data.List.Pairwise
import Mathlib.Logic.Function.Basic

/-!
Blocks of memory: which ones lie in another one, which ones do not overlap. A memory reads
and writes words; its bytes are the memory of a machine, but it may as well have typed cells.
-/
namespace Otawa.Blocks

/-- The addresses from a base on, as many as the size. -/
structure Block where
  base : Nat
  size : Nat

namespace Block

def Has (b : Block) (x : Nat) : Prop := b.base ≤ x ∧ x < b.base + b.size

/-- No address is in both. -/
def Apart (b c : Block) : Prop := ∀ x, b.Has x → ¬c.Has x

/-- The first block lies in the second one. -/
def Within (b c : Block) : Prop := c.base ≤ b.base ∧ b.base + b.size ≤ c.base + c.size

variable {b c d : Block} {x : Nat}

theorem Apart.symm (apart : b.Apart c) : c.Apart b := fun x inC inB => apart x inB inC

theorem Within.has (within : b.Within c) (has : b.Has x) : c.Has x :=
  ⟨within.1.trans has.1,has.2.trans_le within.2⟩

theorem Apart.within (apart : c.Apart d) (within : b.Within c) : b.Apart d :=
  fun x inB => apart x (within.has inB)

theorem apart_of_le (before : b.base + b.size ≤ c.base) : b.Apart c :=
  fun _ inB inC => absurd (inB.2.trans_le before) (not_lt.mpr inC.1)

theorem apart_iff (someB : 0 < b.size) (someC : 0 < c.size) :
    b.Apart c ↔ b.base + b.size ≤ c.base ∨ c.base + c.size ≤ b.base := by
  constructor
  · intro apart
    by_contra overlap
    have := apart (max b.base c.base) ⟨by omega,by omega⟩
    exact this ⟨by omega,by omega⟩
  · rintro (before | after)
    · exact apart_of_le before
    · exact (apart_of_le after).symm

end Block

def width : Nat := 8

/-- A memory in which words are read and written, where a word does not reach one that is apart from it. -/
class Memory (M : Type*) where
  load : M → Nat → Nat
  store : M → Nat → Nat → M
  load_store : ∀ (m : M) (a v : Nat), v < 256 ^ width → load (store m a v) a = v
  load_store_of_apart : ∀ (m : M) (a v b : Nat), (Block.mk a width).Apart ⟨b,width⟩ → load (store m a v) b = load m b

abbrev Bytes := Nat → UInt8

namespace Bytes

/-- The word of so many bytes at an address, the lowest one first. -/
def load (m : Bytes) : Nat → Nat → Nat
  | 0, _ => 0
  | n + 1, a => (m a).toNat + 256 * load m n (a + 1)

def store (m : Bytes) : Nat → Nat → Nat → Bytes
  | 0, _, _ => m
  | n + 1, a, v => Function.update (store m n (a + 1) (v / 256)) a (UInt8.ofNat v)

variable {m m' : Bytes} {n a v x : Nat}

theorem load_congr (same : ∀ x, (Block.mk a n).Has x → m x = m' x) : load m n a = load m' n a := by
  induction n generalizing a with
  | zero => rfl
  | succ n ih =>
    rw [load,load,same a ⟨Nat.le_refl _,by simp⟩,ih]
    intro x has
    exact same x ⟨Nat.le_of_succ_le has.1,has.2.trans_eq (by simp only; omega)⟩

theorem store_of_not_has (away : ¬(Block.mk a n).Has x) : store m n a v x = m x := by
  induction n generalizing a v with
  | zero => rfl
  | succ n ih =>
    have other : x ≠ a := by
      rintro rfl
      exact away ⟨Nat.le_refl _,by simp⟩
    rw [store,Function.update_of_ne other,ih]
    intro has
    exact away ⟨Nat.le_of_succ_le has.1,has.2.trans_eq (by simp only; omega)⟩

theorem load_store (small : v < 256 ^ n) : load (store m n a v) n a = v := by
  induction n generalizing a v with
  | zero =>
    obtain rfl : v = 0 := Nat.lt_one_iff.mp small
    rfl
  | succ n ih =>
    have rest : load (store m (n + 1) a v) n (a + 1) = load (store m n (a + 1) (v / 256)) n (a + 1) := by
      apply load_congr
      intro x has
      exact Function.update_of_ne (Nat.ne_of_gt has.1) ..
    have less : v / 256 < 256 ^ n := Nat.div_lt_of_lt_mul (by rwa [Nat.pow_succ'] at small)
    have first : (store m (n + 1) a v a).toNat = v % 256 := by
      rw [store,Function.update_self]
      exact UInt8.toNat_ofNat
    rw [load,rest,ih less,first]
    exact Nat.mod_add_div v 256

instance : Memory Bytes where
  load m a := load m width a
  store m a v := store m width a v
  load_store _ _ _ small := load_store small
  load_store_of_apart _ _ _ _ apart := load_congr fun x has => store_of_not_has (apart.symm x has)

end Bytes

end Otawa.Blocks
