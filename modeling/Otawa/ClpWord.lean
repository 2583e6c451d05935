import Otawa.ClpValue

namespace Otawa.Clp
open Otawa.Progression (progression)

abbrev wrap (z : Int) : Word := BitVec.ofInt 32 z

theorem wrap_toInt (x : Word) : wrap x.toInt = x := BitVec.ofInt_toInt

theorem toInt_wrap {z : Int} (low : -2 ^ 31 ≤ z) (high : z < 2 ^ 31) : (wrap z).toInt = z := by
  rw [BitVec.toInt_ofInt,Int.bmod_def]
  split <;> omega

theorem toNat_wrap (z : Int) : ((wrap z).toNat : Int) = z % 2 ^ 32 := by
  rw [BitVec.toNat_ofInt]
  omega

variable {y z : Int}

theorem wrap_eq_iff : wrap y = wrap z ↔ (2 ^ 32 : Int) ∣ y - z := by
  rw [← BitVec.toNat_inj]
  have one := toNat_wrap y
  have two := toNat_wrap z
  omega

theorem eq_of_wrap (same : wrap y = wrap z) (near : (y - z).natAbs < 2 ^ 32) : y = z := by
  have := wrap_eq_iff.mp same
  omega

theorem wrap_add (y z : Int) : wrap (y + z) = wrap y + wrap z := BitVec.ofInt_add y z
theorem wrap_mul (y z : Int) : wrap (y * z) = wrap y * wrap z := BitVec.ofInt_mul y z
theorem wrap_neg (z : Int) : wrap (-z) = -wrap z := BitVec.ofInt_neg
theorem wrap_sub (y z : Int) : wrap (y - z) = wrap y - wrap z := by
  rw [sub_eq_add_neg,wrap_add,wrap_neg,sub_eq_add_neg]
theorem wrap_natCast (n : Nat) : wrap (n : Int) = BitVec.ofNat 32 n := BitVec.ofInt_natCast 32 n

theorem wrap_walk (p g : Int) (i : Nat) : wrap p + i • wrap g = wrap (p + i * g) := by
  rw [wrap_add,wrap_mul,nsmul_eq_mul,wrap_natCast,BitVec.natCast_eq_ofNat]

theorem wrap_rank (b d : Word) (i : Nat) : b + i • d = wrap (b.toInt + i * d.toInt) := by
  rw [← wrap_walk,wrap_toInt,wrap_toInt]

theorem rank_between {b d : Int} (low high : Int) {i n : Nat} (rank : i ≤ n) (first : low ≤ b ∧ b ≤ high)
    (last : low ≤ b + n * d ∧ b + n * d ≤ high) : low ≤ b + i * d ∧ b + i * d ≤ high := by
  have count : (i : Int) ≤ n := by exact_mod_cast rank
  rcases le_total 0 d with up | down
  · have one : (i : Int) * d ≤ n * d := Int.mul_le_mul_of_nonneg_right count up
    have zero : 0 ≤ (i : Int) * d := Int.mul_nonneg (Int.natCast_nonneg i) up
    omega
  · have one : (n : Int) * d ≤ i * d := Int.mul_le_mul_of_nonpos_right count down
    have zero : (i : Int) * d ≤ 0 := Int.mul_nonpos_of_nonneg_of_nonpos (Int.natCast_nonneg i) down
    omega

theorem sshiftRight_wrap (x : Word) (s : Nat) : x.sshiftRight s = wrap (x.toInt / 2 ^ s) := by
  rw [← wrap_toInt (x.sshiftRight s),BitVec.toInt_sshiftRight,Int.shiftRight_eq_div_pow]
  push_cast
  rfl

theorem ushiftRight_wrap (x : Word) (s : Nat) : x >>> s = wrap ((x.toNat / 2 ^ s : Nat) : Int) := by
  apply BitVec.eq_of_toNat_eq
  have below : x.toNat / 2 ^ s ≤ x.toNat := Nat.div_le_self _ _
  have bound := x.isLt
  rw [BitVec.toNat_ushiftRight,Nat.shiftRight_eq_div_pow,wrap_natCast,BitVec.toNat_ofNat,Nat.mod_eq_of_lt (by omega)]

theorem slt_wrap (left : -2 ^ 31 ≤ y ∧ y < 2 ^ 31) (right : -2 ^ 31 ≤ z ∧ z < 2 ^ 31) :
    (wrap y).slt (wrap z) = true ↔ y < z := by
  rw [BitVec.slt_iff_toInt_lt,toInt_wrap left.1 left.2,toInt_wrap right.1 right.2]

theorem sle_wrap (left : -2 ^ 31 ≤ y ∧ y < 2 ^ 31) (right : -2 ^ 31 ≤ z ∧ z < 2 ^ 31) :
    (wrap y).sle (wrap z) = true ↔ y ≤ z := by
  rw [BitVec.sle_iff_toInt_le,toInt_wrap left.1 left.2,toInt_wrap right.1 right.2]

theorem le_wrap : wrap y ≤ wrap z ↔ y % 2 ^ 32 ≤ z % 2 ^ 32 := by
  rw [BitVec.le_def,← toNat_wrap,← toNat_wrap]
  omega

/-- The signed quotient of words, up to a turn. -/
theorem sdiv_wrap (left : -2 ^ 31 ≤ y ∧ y < 2 ^ 31) (right : -2 ^ 31 ≤ z ∧ z < 2 ^ 31) :
    (wrap y).sdiv (wrap z) = wrap (y.tdiv z) := by
  rw [← wrap_toInt ((wrap y).sdiv (wrap z)),BitVec.toInt_sdiv,toInt_wrap left.1 left.2,toInt_wrap right.1 right.2]
  apply wrap_eq_iff.mpr
  rw [Int.bmod_def]
  split <;> omega

theorem srem_wrap (left : -2 ^ 31 ≤ y ∧ y < 2 ^ 31) (right : -2 ^ 31 ≤ z ∧ z < 2 ^ 31) :
    (wrap y).srem (wrap z) = 0 ↔ y.tmod z = 0 := by
  rw [← BitVec.toInt_inj,BitVec.toInt_srem,toInt_wrap left.1 left.2,toInt_wrap right.1 right.2]
  rfl

/-- The machine traps instead where the quotient is out of range. -/
theorem divTraps_iff (right : -2 ^ 31 ≤ z ∧ z < 2 ^ 31) (some : z ≠ 0) :
    Value.DivTraps (wrap y) (wrap z) ↔ z = -1 ∧ y % 2 ^ 32 = 2 ^ 31 := by
  have zero : wrap z = 0 ↔ z = 0 := by
    rw [show (0 : Word) = wrap 0 from rfl,wrap_eq_iff]
    omega
  have back : wrap z = -1 ↔ z = -1 := by
    rw [show (-1 : Word) = wrap (-1) from rfl,wrap_eq_iff]
    omega
  have least : wrap y = BitVec.intMin 32 ↔ y % 2 ^ 32 = 2 ^ 31 := by
    rw [show BitVec.intMin 32 = wrap (2 ^ 31) from rfl,wrap_eq_iff]
    omega
  rw [Value.DivTraps,zero,back,least,or_iff_right some,and_comm]

theorem udiv_wrap (y z : Int) : (((wrap y / wrap z).toNat : Nat) : Int) = y % 2 ^ 32 / (z % 2 ^ 32) := by
  rw [BitVec.toNat_udiv,Int.natCast_ediv,toNat_wrap,toNat_wrap]

theorem mem_unit {b y : Word} {n : Nat} : y ∈ progression b 1 n ↔ (y - b).toNat ≤ n := by
  constructor
  · rintro ⟨i,bound,rfl⟩
    have distance : b + i • (1 : Word) - b = BitVec.ofNat 32 i := by
      rw [add_sub_cancel_left,nsmul_eq_mul,mul_one,BitVec.natCast_eq_ofNat]
    rw [distance,BitVec.toNat_ofNat]
    exact (Nat.mod_le _ _).trans bound
  · intro bound
    refine ⟨(y - b).toNat,bound,?_⟩
    rw [nsmul_eq_mul,mul_one,BitVec.natCast_eq_ofNat,BitVec.ofNat_toNat,BitVec.setWidth_eq,add_sub_cancel]

end Otawa.Clp
