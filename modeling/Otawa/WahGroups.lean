import Otawa.WahVector

namespace Otawa.Wah

/-! ### Words -/

theorem isFill_eq (w : Word) : isFill w = decide (2^31 ≤ w.toNat) := by
  have single : FILL = BitVec.twoPow 32 31 := by decide
  have below := w.isLt
  rw [isFill,single,BitVec.and_twoPow,BitVec.getLsbD,Nat.testBit_eq_decide_div_mod_eq]
  by_cases high : 2^31 ≤ w.toNat
  · rw [if_pos (by rw [decide_eq_true_eq]; omega),decide_eq_true high]; rfl
  · rw [if_neg (by rw [decide_eq_true_eq]; omega),decide_eq_false high]; rfl

theorem isOnes_eq (w : Word) : isOnes w = decide (w.toNat / 2^30 % 2 = 1) := by
  have single : ONES = BitVec.twoPow 32 30 := by decide
  rw [isOnes,single,BitVec.and_twoPow,BitVec.getLsbD,Nat.testBit_eq_decide_div_mod_eq]
  by_cases high : w.toNat / 2^30 % 2 = 1
  · rw [if_pos (by rwa [decide_eq_true_eq]),decide_eq_true high]; rfl
  · rw [if_neg (by rwa [decide_eq_true_eq]),decide_eq_false high]; rfl

theorem isFill_eq_getLsbD (w : Word) : isFill w = w.getLsbD 31 := by
  have below := w.isLt
  rw [isFill_eq,BitVec.getLsbD,Nat.testBit_eq_decide_div_mod_eq]
  congr 1
  apply propext
  omega

theorem isOnes_eq_getLsbD (w : Word) : isOnes w = w.getLsbD 30 := by
  rw [isOnes_eq,BitVec.getLsbD,Nat.testBit_eq_decide_div_mod_eq]

theorem fillCount_toNat (w : Word) : (fillCount w).toNat = w.toNat % 2^30 := by
  have low : ~~~(FILL ||| ONES) = BitVec.ofNat 32 (2^30 - 1) := by decide
  rw [fillCount,low,BitVec.toNat_and]
  exact Nat.and_two_pow_sub_one_eq_mod _ 30

theorem fill_toNat {size : Nat} (small : size < 2^30) (init : Bool) :
    (fill size init).toNat = 2^31 + (if init then 2^30 else 0) + size := by
  have number : (BitVec.ofInt 32 (size : Int)).toNat = size := by
    rw [BitVec.ofInt_natCast,BitVec.toNat_ofNat]; omega
  rw [fill,BitVec.toNat_or,number]
  cases init with
  | false =>
    have kind : (FILL ||| (if false then ONES else 0)).toNat = 2^30 * 2 := by decide
    rw [kind,← Nat.two_pow_add_eq_or_of_lt small]
    simp
  | true =>
    have kind : (FILL ||| (if true then ONES else 0)).toNat = 2^30 * 3 := by decide
    rw [kind,← Nat.two_pow_add_eq_or_of_lt small]
    simp

section Fill
variable {size : Nat} (small : size < 2^30) (init : Bool)
include small

theorem isFill_fill : isFill (fill size init) = true := by
  rw [isFill_eq,fill_toNat small,decide_eq_true_eq]
  omega

theorem isOnes_fill : isOnes (fill size init) = init := by
  rw [isOnes_eq,fill_toNat small]
  cases init <;> simp <;> omega

theorem count_fill : count (fill size init) = size := by
  rw [count,if_pos (isFill_fill small init),fillCount_toNat,fill_toNat small]
  cases init <;> simp <;> omega

end Fill

def allOf (value : Bool) : Word := if value then ALL_ONES else ALL_ZEROES

theorem value_fill {w : Word} (filled : isFill w = true) : value w = allOf (isOnes w) := by
  simp [value,filled,allOf]

theorem value_lite {w : Word} (lite : isFill w = false) : value w = w := by simp [value,lite]
theorem count_lite {w : Word} (lite : isFill w = false) : count w = 1 := by simp [count,lite]

theorem count_lt (w : Word) : count w < 2^30 := by
  unfold count
  split
  · rw [fillCount_toNat]; omega
  · omega

theorem isFill_value (w : Word) : isFill (value w) = false := by
  unfold value
  split
  · split <;> decide
  · simp_all

theorem kind_eq {w last : Word} (same : w &&& (FILL ||| ONES) = last &&& (FILL ||| ONES)) :
    isFill w = isFill last ∧ isOnes w = isOnes last := by
  have high : (FILL ||| ONES) &&& FILL = FILL := by decide
  have next : (FILL ||| ONES) &&& ONES = ONES := by decide
  constructor
  · unfold isFill
    rw [← high,← BitVec.and_assoc,← BitVec.and_assoc,same]
  · unfold isOnes
    rw [← next,← BitVec.and_assoc,← BitVec.and_assoc,same]

theorem add_toNat {last : Word} (filled : isFill last = true) (step : Word)
    (small : count last + step.toNat < 2^30) :
    isFill (last + step) = true ∧ isOnes (last + step) = isOnes last ∧
      count (last + step) = count last + step.toNat := by
  have below := last.isLt
  have number : count last = last.toNat % 2^30 := by rw [count,if_pos filled,fillCount_toNat]
  rw [isFill_eq,decide_eq_true_eq] at filled
  have sum : (last + step).toNat = last.toNat + step.toNat := by
    rw [BitVec.toNat_add,Nat.mod_eq_of_lt (by omega)]
  have grown : isFill (last + step) = true := by
    rw [isFill_eq,sum,decide_eq_true_eq]; omega
  refine ⟨grown,?_,?_⟩
  · rw [isOnes_eq,isOnes_eq,sum]
    congr 1
    apply propext
    omega
  · rw [count,if_pos grown,fillCount_toNat,sum,number]; omega

def expand (w : Word) : List Word := List.replicate (count w) (value w)
def groups (ws : List Word) : List Word := ws.flatMap expand

@[simp] theorem groups_nil : groups [] = [] := rfl
@[simp] theorem groups_cons (w : Word) (ws : List Word) : groups (w :: ws) = expand w ++ groups ws := rfl
@[simp] theorem groups_append (ws vs : List Word) : groups (ws ++ vs) = groups ws ++ groups vs := by
  simp [groups]
@[simp] theorem length_expand (w : Word) : (expand w).length = count w := by simp [expand]

theorem expand_lite {w : Word} (lite : isFill w = false) : expand w = [w] := by
  simp [expand,count_lite lite,value_lite lite]

theorem expand_fill {size : Nat} (small : size < 2^30) (init : Bool) :
    expand (fill size init) = List.replicate size (allOf init) := by
  rw [expand,count_fill small,value_fill (isFill_fill small init),isOnes_fill small]

structure Canonical (w : Word) : Prop where
  nonempty : 0 < count w
  mixed : isFill w = false → w ≠ 0 ∧ w ≠ ALL_ONES

theorem canonical_fill {size : Nat} (positive : 0 < size) (small : size < 2^30) (init : Bool) :
    Canonical (fill size init) where
  nonempty := by rw [count_fill small]; exact positive
  mixed lite := by rw [isFill_fill small] at lite; cases lite

structure Codes (b : Builder) (gs : List Word) : Prop where
  coded : groups b.reverse = gs
  canonical : ∀ w ∈ b, Canonical w

theorem codes_nil : Codes [] [] := ⟨rfl,by simp⟩

variable {b : Builder} {gs : List Word} {w : Word}

theorem Codes.pushRaw (codes : Codes b gs) (canonical : Canonical w) :
    Codes (pushRaw b w) (gs ++ expand w) where
  coded := by simp [Wah.pushRaw,codes.coded]
  canonical v member := by
    rcases List.mem_cons.mp member with rfl | member
    · exact canonical
    · exact codes.canonical v member

theorem Codes.grow {last : Word} (codes : Codes (last :: b) gs) (filled : isFill last = true) (step : Word)
    (small : gs.length + step.toNat < 2^30) :
    Codes ((last + step) :: b) (gs ++ List.replicate step.toNat (allOf (isOnes last))) := by
  have total : gs = groups b.reverse ++ expand last := by simp [← codes.coded]
  have length : gs.length = (groups b.reverse).length + count last := by simp [total]
  obtain ⟨grown,kind,counted⟩ := add_toNat filled step (by omega)
  refine ⟨?_,?_⟩
  · rw [List.reverse_cons,groups_append,groups_cons,groups_nil,List.append_nil,total,List.append_assoc]
    congr 1
    rw [expand,expand,counted,value_fill grown,kind,value_fill filled,List.replicate_add]
  · intro v member
    rcases List.mem_cons.mp member with rfl | member
    · have positive := (codes.canonical last (by simp)).nonempty
      exact ⟨by omega,fun lite => by rw [grown] at lite; cases lite⟩
    · exact codes.canonical v (List.mem_cons_of_mem _ member)

theorem Codes.pushFill (codes : Codes b gs) (filled : isFill w = true) (canonical : Canonical w)
    (small : gs.length + count w < 2^30) : Codes (pushFill b w) (gs ++ expand w) := by
  cases b with
  | nil => exact codes.pushRaw canonical
  | cons last before =>
    rw [Wah.pushFill]
    split
    · rename_i same
      obtain ⟨lastFilled,kind⟩ := kind_eq same
      have number : count w = (fillCount w).toNat := by simp [count,filled]
      have grown := codes.grow (lastFilled ▸ filled) (fillCount w) (by omega)
      rwa [← kind,← value_fill filled,← number] at grown
    · exact codes.pushRaw canonical

private theorem Codes.pushOne (codes : Codes b gs) (all : Bool) (small : gs.length + 1 < 2^30) :
    Codes (Wah.pushFill b (fill 1 all)) (gs ++ [allOf all]) := by
  have one : 1 < 2^30 := by omega
  have pushed := codes.pushFill (isFill_fill one all) (canonical_fill (by omega) one all)
    (by rw [count_fill one]; exact small)
  rwa [expand_fill one] at pushed

theorem Codes.pushLite (codes : Codes b gs) (lite : isFill w = false) (small : gs.length + 1 < 2^30) :
    Codes (pushLite b w) (gs ++ [w]) := by
  unfold Wah.pushLite
  split
  · rename_i zero
    subst zero
    exact codes.pushOne false small
  · split
    · rename_i full
      subst full
      exact codes.pushOne true small
    · rename_i nonzero partly
      rw [← expand_lite lite]
      exact codes.pushRaw ⟨by rw [count_lite lite]; omega,fun _ => ⟨nonzero,partly⟩⟩

theorem Codes.push (codes : Codes b gs) (canonical : Canonical w) (small : gs.length + count w < 2^30) :
    Codes (push b w) (gs ++ expand w) := by
  unfold Wah.push
  split
  · rename_i filled
    exact codes.pushFill filled canonical small
  · rename_i lite
    rw [Bool.not_eq_true] at lite
    rw [count_lite lite] at small
    rw [expand_lite lite]
    exact codes.pushLite lite small

theorem Codes.copy (codes : Codes b gs) {ws : List Word} (canonical : ∀ w ∈ ws, Canonical w) :
    Codes (ws.reverse ++ b) (gs ++ groups ws) where
  coded := by simp [codes.coded]
  canonical w member := by
    rcases List.mem_append.mp member with member | member
    · exact canonical w (List.mem_reverse.mp member)
    · exact codes.canonical w member

/-! ### The last group -/

theorem Codes.last {last : Word} (codes : Codes (last :: b) gs) : gs.getLast? = some (value last) := by
  have nonempty := (codes.canonical last (by simp)).nonempty
  rw [← codes.coded,List.reverse_cons,groups_append,groups_cons,groups_nil,List.append_nil,expand,
    List.getLast?_append,List.getLast?_replicate,if_neg (by omega),Option.some_or]

theorem Codes.tail {last : Word} (codes : Codes (last :: b) gs) (lite : isFill last = false) :
    ∃ before, gs = before ++ [last] ∧ Codes b before := by
  refine ⟨groups b.reverse,?_,rfl,fun w member => codes.canonical w (List.mem_cons_of_mem _ member)⟩
  rw [← codes.coded,List.reverse_cons,groups_append,groups_cons,groups_nil,List.append_nil,expand_lite lite]

def Mixed (g : Word) : Prop := g ≠ ALL_ZEROES ∧ g ≠ ALL_ONES

theorem allOf_not_mixed (all : Bool) : ¬ Mixed (allOf all) := by
  cases all <;> simp [Mixed,allOf]

theorem joinLast_test (all : Bool) (previous : Word) :
    (if all then isOnes previous else isZeroes previous) = (isOnes previous == all) := by
  cases all <;> simp [isZeroes]

/-- `joinLast` tests the word before as a fill; it may be a mixed group. -/
def Misread (gs : List Word) (all : Bool) : Prop :=
  ∃ g, gs.getLast? = some g ∧ Mixed g ∧ g.getLsbD 30 = all

theorem Codes.joinLast (codes : Codes b gs) {all : Bool} (small : gs.length + 1 < 2^30)
    (clear : ¬ Misread gs all) : Codes (joinLast all b) (gs ++ [allOf all]) := by
  have one : 1 < 2^30 := by omega
  have alone : Codes (fill 1 all :: b) (gs ++ [allOf all]) := by
    have pushed := codes.pushRaw (canonical_fill (by omega) one all)
    rwa [expand_fill one] at pushed
  cases b with
  | nil => exact alone
  | cons previous older =>
    simp only [Wah.joinLast,joinLast_test]
    split
    · rename_i kind
      rw [beq_iff_eq] at kind
      cases filled : isFill previous with
      | true =>
        have grown := codes.grow filled 1 (by simpa using small)
        rwa [kind] at grown
      | false =>
        have known := codes.canonical previous (by simp)
        refine absurd ⟨previous,?_,known.mixed filled,?_⟩ clear
        · rw [codes.last,value_lite filled]
        · rw [← isOnes_eq_getLsbD,kind]
    · exact alone

theorem joinLast_misread (codes : Codes b gs) {all : Bool} (misread : Misread gs all) :
    (groups (joinLast all b).reverse).length = gs.length := by
  obtain ⟨g,last,mixed,top⟩ := misread
  cases b with
  | nil => rw [← codes.coded] at last; cases last
  | cons previous older =>
    obtain rfl : value previous = g := Option.some.inj (codes.last.symm.trans last)
    have lite : isFill previous = false := by
      by_contra filled
      rw [Bool.not_eq_false] at filled
      exact allOf_not_mixed _ (value_fill filled ▸ mixed)
    rw [value_lite lite] at mixed top
    rw [← isOnes_eq_getLsbD] at top
    have grown : isFill (previous + 1) = false := by
      have partly : previous.toNat ≠ ALL_ONES.toNat := fun same => mixed.2 (BitVec.eq_of_toNat_eq same)
      have full : ALL_ONES.toNat = 2^31 - 1 := rfl
      have unit : (1 : Word).toNat = 1 := rfl
      rw [isFill_eq,decide_eq_false_iff_not] at lite
      rw [isFill_eq,decide_eq_false_iff_not,BitVec.toNat_add]
      omega
    simp only [joinLast,joinLast_test]
    rw [if_pos (beq_iff_eq.mpr top),← codes.coded,List.reverse_cons,List.reverse_cons,groups_append,groups_append,
      groups_cons,groups_cons,groups_nil,expand_lite grown,expand_lite lite]
    simp

/-- The bits of a group that a partial group has. -/
def kept (r : Nat) : Word := BitVec.ofNat 32 (2^r - 1)

theorem mask_eq {r : Nat} (partly : r < 31) : mask r = some (kept r) := by
  have inside : (0 : Int) ≤ r ∧ (r : Int) < 32 := by omega
  rw [mask,shift,if_pos inside,Option.map_some]
  congr 1
  apply BitVec.eq_of_toNat_eq
  have small : 2^r < 2^32 := Nat.pow_lt_pow_right (by omega) (by omega)
  have positive : 0 < 2^r := Nat.pow_pos (by omega)
  have one : (1#32 <<< (r : Int).toNat).toNat = 2^r := by
    rw [Int.toNat_natCast,← BitVec.twoPow_eq,BitVec.toNat_twoPow,Nat.mod_eq_of_lt small]
  rw [kept,BitVec.toNat_sub,one,BitVec.toNat_ofNat]
  have unit : (1 : Word).toNat = 1 := rfl
  omega

theorem getLsbD_kept {r : Nat} (partly : r < 32) (i : Nat) : (kept r).getLsbD i = decide (i < r) := by
  rw [kept,BitVec.getLsbD_ofNat,Nat.testBit_two_pow_sub_one]
  by_cases inside : i < r <;> simp [inside]
  omega

@[simp] theorem getLsbD_ALL_ONES (i : Nat) : ALL_ONES.getLsbD i = decide (i < 31) := by
  have whole : ALL_ONES = kept 31 := by decide
  rw [whole,getLsbD_kept (by omega)]

@[simp] theorem getLsbD_ALL_ZEROES (i : Nat) : ALL_ZEROES.getLsbD i = false := by simp [ALL_ZEROES]

theorem getLsbD_allOf (all : Bool) {i : Nat} (inside : i < 31) : (allOf all).getLsbD i = all := by
  cases all <;> simp [allOf,inside]

/-- The last group as `fix` leaves it. -/
def closed (r : Nat) (g : Word) : Word :=
  if g &&& kept r = ALL_ZEROES then ALL_ZEROES else if g &&& kept r = kept r then ALL_ONES else g &&& kept r

section Closed
variable {r : Nat} (partly : r < 31)
include partly

theorem getLsbD_and_kept (g : Word) (i : Nat) : (g &&& kept r).getLsbD i = (g.getLsbD i && decide (i < r)) := by
  rw [BitVec.getLsbD_and,getLsbD_kept (by omega)]

theorem getLsbD_closed (g : Word) {i : Nat} (inside : i < r) : (closed r g).getLsbD i = g.getLsbD i := by
  have same : (g &&& kept r).getLsbD i = g.getLsbD i := by simp [getLsbD_and_kept partly,inside]
  unfold closed
  split
  · rename_i zero
    rw [← same,zero]
  · split
    · rename_i full
      rw [← same,full,getLsbD_kept (by omega),getLsbD_ALL_ONES]
      simp [inside]
      omega
    · exact same

/-- A closed group is a run exactly when the bits that the vector has are all equal. -/
theorem closed_eq_allOf (positive : 0 < r) (g : Word) (all : Bool) :
    closed r g = allOf all ↔ ∀ i < r, g.getLsbD i = all := by
  refine ⟨fun run i inside => ?_,fun equal => ?_⟩
  · rw [← getLsbD_closed partly g inside,run,getLsbD_allOf all (by omega)]
  · cases all with
    | false =>
      have zero : g &&& kept r = ALL_ZEROES := by
        apply BitVec.eq_of_getLsbD_eq
        intro i _
        rw [getLsbD_and_kept partly,getLsbD_ALL_ZEROES]
        by_cases inside : i < r
        · simp [equal i inside]
        · simp [inside]
      rw [closed,if_pos zero]; rfl
    | true =>
      have full : g &&& kept r = kept r := by
        apply BitVec.eq_of_getLsbD_eq
        intro i _
        rw [getLsbD_and_kept partly,getLsbD_kept (by omega)]
        by_cases inside : i < r
        · simp [equal i inside]
        · simp [inside]
      have nonzero : kept r ≠ ALL_ZEROES := by
        intro zero
        have first := getLsbD_kept (r := r) (by omega) 0
        rw [zero,getLsbD_ALL_ZEROES] at first
        simp [positive] at first
      rw [closed,full,if_neg nonzero,if_pos rfl]; rfl

theorem closed_mixed {g : Word} (mixed : Mixed (closed r g)) {i : Nat} (outside : r ≤ i) :
    (closed r g).getLsbD i = false := by
  unfold closed at mixed ⊢
  split at mixed
  · exact absurd rfl mixed.1
  · split at mixed
    · exact absurd rfl mixed.2
    · rename_i nonzero partial_
      rw [if_neg nonzero,if_neg partial_,getLsbD_and_kept partly]
      simp [Nat.not_lt.mpr outside]

end Closed

theorem fix_whole (b : Builder) : fix b 0 = some b.reverse := by simp [fix]

section Fix
variable {r : Nat} (positive : 0 < r) (partly : r < 31) {g : Word}
include positive partly

theorem fix_fill {last : Word} (filled : isFill last = true) : fix (last :: b) r = some (last :: b).reverse := by
  rw [fix,if_neg (by omega)]
  simp [filled]

theorem fix_lite {last : Word} (lite : isFill last = false) :
    fix (last :: b) r = some (if closed r last = ALL_ZEROES then joinLast false b
      else if closed r last = ALL_ONES then joinLast true b else closed r last :: b).reverse := by
  have different : ALL_ONES ≠ ALL_ZEROES := by decide
  rw [fix,if_neg (by omega)]
  simp only [lite,mask_eq partly,Option.bind_eq_bind,Option.bind_some]
  by_cases zero : last &&& kept r = ALL_ZEROES
  · rw [closed,if_pos zero,if_pos rfl]
    simp [zero,ALL_ZEROES]
  · rw [closed,if_neg zero]
    by_cases full : last &&& kept r = kept r
    · have nonzero : kept r ≠ 0#32 := full ▸ zero
      simp [full,different,nonzero]
    · have shorter : last &&& kept r ≠ ALL_ONES := by
        intro same
        have top := getLsbD_and_kept partly last 30
        rw [same,getLsbD_ALL_ONES] at top
        simp at top
        omega
      have nonzero : last &&& kept r ≠ 0#32 := zero
      simp [full,zero,shorter,nonzero]

/-- `fix` closes the last group when the word before it is not misread. -/
theorem fix_closes (codes : Codes b (gs ++ [g])) (small : gs.length + 1 < 2^30)
    (clear : ∀ all, g ≠ allOf all → closed r g = allOf all → ¬ Misread gs all) :
    ∃ ws, fix b r = some ws ∧ Codes ws.reverse (gs ++ [closed r g]) := by
  cases b with
  | nil => exact absurd codes.coded (by simp)
  | cons last before =>
    have same : value last = g := by simpa using codes.last.symm
    cases filled : isFill last with
    | true =>
      refine ⟨_,fix_fill positive partly filled,?_⟩
      have run : closed r g = g := by
        rw [← same,value_fill filled,closed_eq_allOf partly positive]
        exact fun i inside => getLsbD_allOf _ (by omega)
      rwa [run,List.reverse_reverse]
    | false =>
      refine ⟨_,fix_lite positive partly filled,?_⟩
      rw [value_lite filled] at same
      subst same
      obtain ⟨_,split,codesBefore⟩ := codes.tail filled
      obtain ⟨rfl,-⟩ := List.append_inj' split rfl
      have mixed := (codes.canonical last (by simp)).mixed filled
      rw [List.reverse_reverse]
      by_cases zero : closed r last = ALL_ZEROES
      · rw [if_pos zero,zero]
        exact codesBefore.joinLast small (clear false mixed.1 zero)
      · rw [if_neg zero]
        by_cases full : closed r last = ALL_ONES
        · rw [if_pos full,full]
          exact codesBefore.joinLast small (clear true mixed.2 full)
        · rw [if_neg full]
          have lite : isFill (closed r last) = false := by
            rw [isFill_eq_getLsbD]
            exact closed_mixed partly ⟨zero,full⟩ (by omega)
          have pushed := codesBefore.pushRaw (w := closed r last)
            ⟨by rw [count_lite lite]; omega,fun _ => ⟨zero,full⟩⟩
          rwa [expand_lite lite] at pushed

theorem fix_swallows (codes : Codes b (gs ++ [g])) {all : Bool} (unlike : g ≠ allOf all)
    (run : closed r g = allOf all) (misread : Misread gs all) :
    ∃ ws, fix b r = some ws ∧ (groups ws).length = gs.length := by
  cases b with
  | nil => exact absurd codes.coded (by simp)
  | cons last before =>
    have same : value last = g := by simpa using codes.last.symm
    have lite : isFill last = false := by
      by_contra filled
      rw [Bool.not_eq_false] at filled
      apply unlike
      rw [← run,← same,value_fill filled,Eq.comm,closed_eq_allOf partly positive]
      exact fun i inside => getLsbD_allOf _ (by omega)
    rw [value_lite lite] at same
    subst same
    obtain ⟨_,split,codesBefore⟩ := codes.tail lite
    obtain ⟨rfl,-⟩ := List.append_inj' split rfl
    refine ⟨_,fix_lite positive partly lite,?_⟩
    rw [← joinLast_misread codesBefore misread,run]
    cases all <;> rfl

end Fix

end Otawa.Wah
