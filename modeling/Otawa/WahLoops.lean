import Otawa.WahTight

namespace Otawa.Wah

variable {b : Builder} {gs : List Word} {w : Word}

/-! ### Positions -/

theorem times_eq (v : Nat) : times v = 31 * v := by
  rw [times,Nat.shiftLeft_eq]; omega

/-- What the multiplication adds to the quotient, in 2^32-th: the factor is not quite the inverse of 31. -/
def excess (v : Nat) : Nat := 926 * (v / 31) + 138547362 * (v % 31)

/-- The product stays on 64 bits, so only the excess can make the quotient wrong. -/
theorem div_add_excess {v : Nat} (admitted : v < 2^31) : div v = v / 31 + excess v / 2^32 := by
  have parts : v = 31 * (v / 31) + v % 31 := by omega
  have product : (2^32 / 31 + 30) * v = 2^32 * (v / 31) + excess v := by
    rw [excess]
    omega
  have fits : (2^32 / 31 + 30) * v < 2^64 := by omega
  rw [div,Nat.shiftRight_eq_div_pow,Nat.mod_eq_of_lt fits,product,Nat.mul_add_div (by decide)]

/-- `div` is the division by 31 for all bits of the vectors below this size only. -/
theorem div_eq {v : Nat} (small : v < 4638219) : div v = v / 31 := by
  have rounding : excess v < 2^32 := by
    rw [excess]
    omega
  rw [div_add_excess (by omega),Nat.div_eq_of_lt rounding,Nat.add_zero]

theorem mod_eq {v : Nat} (small : v < 4638219) : mod v = (v % 31 : Nat) := by
  rw [mod,div_eq small,times_eq]
  omega

/-- The positions of a bit are right exactly when the excess does not reach a unit. Above 2^26
    `times` may wrap in an int, and the difference in `mod` wraps back. -/
theorem position_iff {v : Nat} (admitted : v < 2^31) :
    (div v = v / 31 ∧ 0 ≤ mod v ∧ mod v < 31 ∧ (v : Int) = 31 * (div v : Int) + mod v) ↔ excess v < 2^32 := by
  have value := div_add_excess admitted
  constructor
  · rintro ⟨exact,-⟩
    have zero : excess v / 2^32 = 0 := by omega
    exact (Nat.div_eq_zero_iff_lt (by decide)).mp zero
  · intro rounding
    rw [Nat.div_eq_of_lt rounding,Nat.add_zero] at value
    rw [mod,times_eq,value]
    omega

theorem position_thousand :
    div 1000 = 1000 / 31 ∧ 0 ≤ mod 1000 ∧ mod 1000 < 31 ∧ (1000 : Int) = 31 * (div 1000 : Int) + mod 1000 :=
  (position_iff (by decide)).mpr (by decide)

/-- The first number that `div` gets wrong, with its last bit at position -1. -/
theorem position_wrong : ¬∀ v < 2^31,
    div v = v / 31 ∧ 0 ≤ mod v ∧ mod v < 31 ∧ (v : Int) = 31 * (div v : Int) + mod v := by
  intro all
  have quotient := (all 4638219 (by decide)).1
  exact absurd quotient (by decide)

def one (index : Nat) : Word := 1#32 <<< (index % 31)

theorem shift_mod {index : Nat} (small : index < 4638219) : shift (mod index) = some (one index) := by
  have inside : (0 : Int) ≤ (index % 31 : Nat) ∧ ((index % 31 : Nat) : Int) < 32 := by omega
  rw [mod_eq small,shift,if_pos inside]; rfl

theorem getLsbD_one (index i : Nat) : (one index).getLsbD i = decide (i = index % 31) := by
  rw [one,← BitVec.twoPow_eq,BitVec.getLsbD_twoPow]
  by_cases same : i = index % 31
  · simp [same]; omega
  · simp [same,Ne.symm same]

theorem and_one_ne_zero (g : Word) (index : Nat) : (g &&& one index != 0) = g.getLsbD (index % 31) := by
  rw [one,← BitVec.twoPow_eq,BitVec.and_twoPow]
  have inside : index % 31 < 32 := by omega
  cases bit : g.getLsbD (index % 31) with
  | false => simp
  | true =>
    have nonzero : BitVec.twoPow 32 (index % 31) ≠ 0#32 := by
      intro zero
      have same := congrArg (fun w => w.getLsbD (index % 31)) zero
      simp [inside] at same
    simpa using nonzero

/-! ### Loops -/

theorem bitFrom_eq {index : Nat} (small : index < 4638219) {ws : List Word} {done : Nat}
    (from_ : 31 * done ≤ index) :
    WAHVector.bitFrom index (31 * done) ws =
      ((groups ws)[index / 31 - done]?).map fun g => g.getLsbD (index % 31) := by
  induction ws generalizing done with
  | nil => simp [WAHVector.bitFrom]
  | cons w rest ih =>
    have top : 31 * done + times (count w) = 31 * (done + count w) := by rw [times_eq]; omega
    simp only [WAHVector.bitFrom,Iter.step,top]
    rw [groups_cons]
    split
    · rename_i here
      rw [List.getElem?_append_left (by rw [length_expand]; omega),expand,List.getElem?_replicate,
        if_pos (by omega),shift_mod small,Option.map_some,Option.map_some,and_one_ne_zero]
    · rename_i beyond
      rw [ih (by omega),List.getElem?_append_right (by rw [length_expand]; omega),length_expand,Nat.sub_sub]

theorem size_eq (v : WAHVector) : v.size =
    if v.rem ≠ 0 then 31 * ((groups v.words).length : Int) - (31 - v.rem) else 31 * (groups v.words).length := by
  have total : (v.words.map count).sum = (groups v.words).length := by
    induction v.words with
    | nil => rfl
    | cons w rest ih => simp [ih]
  rw [WAHVector.size,total,times_eq]
  push_cast
  rfl

theorem Codes.pushTail (codes : Codes b gs) {it : Iter} (canonical : ∀ w ∈ it.cur.tail, Canonical w)
    (room : gs.length + (groups it.cur.tail).length < 2^30) :
    Codes (it.pushTail b) (gs ++ groups it.cur.tail) := by
  unfold Iter.pushTail
  cases rest : it.cur.tail with
  | nil => simpa using codes
  | cons w rest' =>
    rw [rest] at canonical room
    simp only [groups_cons,List.length_append,length_expand] at room
    rw [groups_cons,← List.append_assoc]
    exact (codes.push (canonical w (by simp)) (by omega)).copy fun w member => canonical w (by simp [member])

theorem modify_middle {α : Type} (before : List α) (g : α) (after : List α) (f : α → α) :
    (before ++ g :: after).modify before.length f = before ++ f g :: after := by
  induction before with
  | nil => rfl
  | cons _ rest ih => simp [ih]

private theorem run_parts (v : Word) {n k : Nat} (inside : k < n) :
    List.replicate n v = List.replicate k v ++ [v] ++ List.replicate (n - k - 1) v := by
  rw [← List.replicate_one,← List.replicate_add,← List.replicate_add]
  congr 1
  omega

private theorem modify_run (gs rest : List Word) (v : Word) {n k : Nat} (inside : k < n) (f : Word → Word) :
    (gs ++ (List.replicate n v ++ rest)).modify (gs.length + k) f =
      gs ++ List.replicate k v ++ [f v] ++ List.replicate (n - k - 1) v ++ rest := by
  have middle := modify_middle (gs ++ List.replicate k v) v (List.replicate (n - k - 1) v ++ rest) f
  rw [List.length_append,List.length_replicate] at middle
  rw [run_parts v inside]
  simpa using middle

theorem isFill_one (index : Nat) : isFill (one index) = false := by
  rw [isFill_eq_getLsbD,getLsbD_one]
  simp
  omega

private theorem value_ne_zero {w : Word} (filled : isFill w = true) : (value w != 0) = isOnes w := by
  rw [value_fill filled]
  cases isOnes w <;> decide

/-- `before` and `after` of a split run are pushed when they are not empty. -/
private theorem Codes.pushRun (codes : Codes b gs) {n : Nat} (small : n < 2^30) (all : Bool) (some : Prop)
    [Decidable some] (nonempty : some ↔ n ≠ 0) :
    Codes (if some then Wah.pushRaw b (fill n all) else b) (gs ++ List.replicate n (allOf all)) := by
  by_cases empty : n = 0
  · rw [if_neg (by simp [nonempty,empty])]
    subst empty; simpa using codes
  · rw [if_pos (nonempty.mpr empty)]
    have pushed := codes.pushRaw (canonical_fill (by omega) small all)
    rwa [expand_fill small] at pushed

private theorem Tight.pushRun (tight : Tight (w :: b)) (filled : isFill w = true) {n : Nat} (small : n < 2^30)
    (some : Prop) [Decidable some] : Tight (if some then Wah.pushRaw b (fill n (isOnes w)) else b) := by
  split
  · exact tight.replace ((isFill_fill small _).trans filled.symm) (isOnes_fill small _)
  · exact (tight_cons.mp tight).2

private theorem Tight.pushRaw_lite (tight : Tight (w :: b)) (lite : isFill w = false) (v : Word)
    (some : Prop) [Decidable some] : Tight (if some then Wah.pushRaw (w :: b) v else w :: b) := by
  split
  · refine tight.pushRaw fun last head => ?_
    obtain rfl : w = last := Option.some.inj head
    exact not_alike_lite lite
  · exact tight

section Change
variable {put : Word → Word → Word} {done : Bool}
  (lite : ∀ g m, isFill g = false → isFill m = false → isFill (put g m) = false)
  (stay : ∀ index, put (allOf done) (one index) = allOf done)
  (mix : ∀ index, Mixed (put (allOf (!done)) (one index)))
include lite stay mix

theorem changeFrom_codes {index : Nat} (small : index < 4638219) {ws : List Word}
    (canonical : ∀ w ∈ ws, Canonical w) (codes : Codes b gs) (from_ : 31 * gs.length ≤ index)
    (inside : index < 31 * (gs.length + (groups ws).length)) (room : gs.length + (groups ws).length < 2^30) :
    ∃ b', WAHVector.changeFrom put done index b (31 * gs.length) ws = some b' ∧
      Codes b' ((gs ++ groups ws).modify (index / 31) fun g => put g (one index)) ∧
      (Tight (ws.reverse ++ b) → Tight b') := by
  induction ws generalizing b gs with
  | nil => simp at inside; omega
  | cons w rest ih =>
    rw [List.reverse_cons,List.append_assoc,List.singleton_append]
    have known := canonical w (by simp)
    have others : ∀ w ∈ rest, Canonical w := fun v member => canonical v (by simp [member])
    have top : 31 * gs.length + times (count w) = 31 * (gs.length + count w) := by rw [times_eq]; omega
    rw [groups_cons,List.length_append,length_expand] at inside room
    simp only [WAHVector.changeFrom,Iter.step,top]
    split
    · rename_i beyond
      have skipped := codes.pushRaw known
      have length : (gs ++ expand w).length = gs.length + count w := by simp
      have result := ih others skipped (by omega) (by omega) (by omega)
      rwa [length,List.append_assoc] at result
    · rename_i here
      obtain ⟨k,place⟩ : ∃ k, index / 31 = gs.length + k := ⟨index / 31 - gs.length,by omega⟩
      have within : k < count w := by omega
      have tail {b' gs'} (start : Codes b' gs') (length : gs'.length = gs.length + count w) :
          Codes (Iter.pushTail ⟨isFill w,value w,count w,31 * gs.length,31 * (gs.length + count w),w :: rest⟩ b')
            (gs' ++ groups rest) :=
        start.pushTail others (by rw [length]; exact Nat.add_assoc .. ▸ room)
      have tightTail {b' gs'} (start : Codes b' gs') (length : gs'.length = gs.length + count w) (tight : Tight b')
          (whole : Tight (rest.reverse ++ w :: b)) :
          Tight (Iter.pushTail ⟨isFill w,value w,count w,31 * gs.length,31 * (gs.length + count w),w :: rest⟩ b') :=
        tight.pushTail start others (tight_reverse.mp whole.left_of_append) (by rw [length]; exact Nat.add_assoc .. ▸ room)
      rw [place,groups_cons,expand,modify_run _ _ _ within,shift_mod small]
      cases filled : isFill w with
      | false =>
        have single := count_lite filled
        refine ⟨_,rfl,?_⟩
        have pushed := codes.pushLite (lite (value w) _ (isFill_value w) (isFill_one index)) (by omega)
        have result := tail pushed (by simp [single])
        have first : k = 0 := by omega
        subst first
        refine ⟨by simpa [value_lite filled,single,filled] using result,fun whole => ?_⟩
        have before := (tight_cons.mp whole.right_of_append).2
        have changed := before.pushLite codes (lite (value w) _ (isFill_value w) (isFill_one index)) (by omega)
        have packed := tightTail pushed (by simp [single]) changed whole
        rwa [filled] at packed
      | true =>
        rw [value_ne_zero filled]
        by_cases kind : isOnes w = done
        · refine ⟨_,by rw [if_pos kind]; rfl,?_⟩
          have same : put (value w) (one index) = value w := by rw [value_fill filled,kind,stay]
          have result := tail (codes.pushRaw known) (by simp)
          rw [same]
          rw [expand,run_parts _ within,← List.append_assoc,← List.append_assoc,filled] at result
          refine ⟨result,fun whole => ?_⟩
          have packed := tightTail (codes.pushRaw known) (by simp) whole.right_of_append whole
          rwa [filled] at packed
        · have less := count_lt w
          have before : div (index - 31 * gs.length) = k := by rw [div_eq (by omega)]; omega
          have after : (count w : Int) - k - 1 = (count w - k - 1 : Nat) := by omega
          refine ⟨_,by rw [if_neg kind,before,after]; rfl,?_⟩
          have first := codes.pushRun (n := k) (by omega) (isOnes w) (k ≠ 0) Iff.rfl
          have second := first.pushLite (lite (value w) _ (isFill_value w) (isFill_one index)) (by simp; omega)
          have third := second.pushRun (n := count w - k - 1) (by omega) (isOnes w)
            (((count w - k - 1 : Nat) : Int) ≠ 0) (by omega)
          rw [← value_fill filled] at third
          have result := tail third (by simp; omega)
          have packed := tightTail third (by simp; omega)
          rw [filled] at result packed
          refine ⟨result,fun whole => packed ?_ whole⟩
          have mixed : Mixed (put (value w) (one index)) := by
            rw [value_fill filled,Bool.eq_not_of_ne kind]
            exact mix index
          have changed := lite _ _ (isFill_value w) (isFill_one index)
          rw [pushLite_mixed _ mixed]
          have before := Tight.pushRun (n := k) whole.right_of_append filled (by omega) (k ≠ 0)
          have middle := tight_cons.mpr ⟨fun _ _ => not_alike_lite changed,before⟩
          exact Tight.pushRaw_lite middle changed _ _

end Change

structure Walks (it : Iter) (gs : List Word) : Prop where
  ended : it.cur = [] → gs = []
  here : it.cur ≠ [] → 0 < it.cnt ∧ gs = List.replicate it.cnt it.val ++ groups it.cur.tail
  short : it.cnt < 2^30
  lite : isFill it.val = false
  run : it.isFill = true → ∃ all, it.val = allOf all
  canonical : ∀ w ∈ it.cur.tail, Canonical w

theorem walks_step {ws : List Word} (canonical : ∀ w ∈ ws, Canonical w) (ii : Nat) :
    Walks (Iter.step ii ws) (groups ws) := by
  cases ws with
  | nil =>
    refine ⟨fun _ => rfl,fun more => absurd rfl more,?_,?_,fun filled => (nomatch filled),fun w member => (nomatch member)⟩
    · show 0 < 2^30; decide
    · show isFill 0 = false; decide
  | cons w rest =>
    refine ⟨fun done => (nomatch done),fun _ => ⟨(canonical w (by simp)).nonempty,rfl⟩,count_lt w,isFill_value w,?_,?_⟩
    · exact fun filled => ⟨isOnes w,value_fill filled⟩
    · exact fun v member => canonical v (List.mem_cons_of_mem _ member)

theorem Walks.consume {it : Iter} (walks : Walks it gs) (more : it.cur ≠ []) {c : Nat} (enough : c ≤ it.cnt) :
    ∃ after, it.consume c = some after ∧ Walks after (gs.drop c) := by
  obtain ⟨positive,total⟩ := walks.here more
  refine ⟨_,by rw [Iter.consume,if_pos enough],?_⟩
  by_cases last : it.cnt - c = 0
  · have all : c = it.cnt := by omega
    have rest : gs.drop c = groups it.cur.tail := by
      rw [total,all,List.drop_left' List.length_replicate]
    simp only [last,if_true]
    rw [rest]
    exact walks_step walks.canonical _
  · have rest : gs.drop c = List.replicate (it.cnt - c) it.val ++ groups it.cur.tail := by
      rw [total,List.drop_append_of_le_length (by simpa using enough),List.drop_replicate]
    simp only [if_neg last]
    exact ⟨fun done => absurd done more,fun _ => ⟨Nat.pos_of_ne_zero last,rest⟩,Nat.lt_of_le_of_lt (Nat.sub_le ..) walks.short,
      walks.lite,walks.run,walks.canonical⟩

theorem Walks.take {it : Iter} (walks : Walks it gs) (more : it.cur ≠ []) {c : Nat} (enough : c ≤ it.cnt) :
    gs.take c = List.replicate c it.val := by
  rw [(walks.here more).2,List.take_append_of_le_length (by simpa using enough),List.take_replicate,
    Nat.min_eq_left enough]

theorem zipWith_split {α : Type} {op : Word → Word → α} {g1 g2 : List Word} {v1 v2 : Word} {c : Nat}
    (take1 : g1.take c = List.replicate c v1) (take2 : g2.take c = List.replicate c v2) :
    List.zipWith op g1 g2 = List.replicate c (op v1 v2) ++ List.zipWith op (g1.drop c) (g2.drop c) := by
  rw [← List.take_append_drop c (List.zipWith op g1 g2),List.take_zipWith,List.drop_zipWith,take1,take2]
  simp

theorem combine_packed {op : Word → Word → Word}
    (lite : ∀ g h, isFill g = false → isFill h = false → isFill (op g h) = false)
    (run : ∀ a c, ∃ e, op (allOf a) (allOf c) = allOf e)
    {i1 i2 : Iter} {g1 g2 : List Word} (walks1 : Walks i1 g1) (walks2 : Walks i2 g2)
    (same : g1.length = g2.length) (packed : Packed b gs) (room : gs.length + g1.length < 2^30) :
    ∃ b', WAHVector.combine op i1 i2 b = some b' ∧ Packed b' (gs ++ List.zipWith op g1 g2) := by
  induction left : g1.length using Nat.strongRecOn generalizing i1 i2 g1 g2 b gs with
  | _ n ih =>
    subst left
    rw [WAHVector.combine]
    by_cases done : i1.cur = []
    · rw [walks1.ended done]
      simpa [Iter.ended,done] using packed
    · obtain ⟨positive1,total1⟩ := walks1.here done
      have more : i2.cur ≠ [] := by
        intro done2
        have none := congrArg List.length total1
        rw [same,walks2.ended done2] at none
        simp at none
        omega
      obtain ⟨positive2,total2⟩ := walks2.here more
      have advance {c : Nat} (positive : 0 < c) (enough1 : c ≤ i1.cnt) (enough2 : c ≤ i2.cnt) {b' : Builder}
          (pushed : Packed b' (gs ++ List.replicate c (op i1.val i2.val))) :
          ∃ j1 j2, i1.consume c = some j1 ∧ i2.consume c = some j2 ∧
            ∃ b'', WAHVector.combine op j1 j2 b' = some b'' ∧ Packed b'' (gs ++ List.zipWith op g1 g2) := by
        obtain ⟨j1,consumed1,after1⟩ := walks1.consume done enough1
        obtain ⟨j2,consumed2,after2⟩ := walks2.consume more enough2
        have inside : c ≤ g1.length := by rw [total1]; simp; omega
        refine ⟨j1,j2,consumed1,consumed2,?_⟩
        rw [zipWith_split (walks1.take done enough1) (walks2.take more enough2),← List.append_assoc]
        exact ih (g1.drop c).length (by simp; omega) after1 after2 (by simp [same]) pushed
          (by simp; omega) rfl
      rw [dif_neg (by simp [Iter.ended,done]),dif_neg (by simp [Iter.ended,more])]
      have long : i1.cnt ≤ g1.length := by rw [total1]; simp
      split
      · rename_i filled
        rw [Bool.and_eq_true] at filled
        obtain ⟨all1,value1⟩ := walks1.run filled.1
        obtain ⟨all2,value2⟩ := walks2.run filled.2
        obtain ⟨all,value⟩ := run all1 all2
        have short := walks1.short
        have fills : Packed (pushFill b (fill (min i1.cnt i2.cnt : Nat) (op i1.val i2.val != 0)))
            (gs ++ List.replicate (min i1.cnt i2.cnt) (op i1.val i2.val)) := by
          have kind : (op i1.val i2.val != 0) = all := by
            rw [value1,value2,value]
            cases all <;> decide
          have positive : 0 < min i1.cnt i2.cnt := by omega
          have small : min i1.cnt i2.cnt < 2^30 := by omega
          have pushed := packed.pushFill (isFill_fill small all) (canonical_fill positive small all)
            (by rw [count_fill small]; omega)
          rw [expand_fill small] at pushed
          rwa [kind,value1,value2,value]
        obtain ⟨j1,j2,consumed1,consumed2,result⟩ := advance (by omega) (Nat.min_le_left ..) (Nat.min_le_right ..) fills
        dsimp only
        split
        · rename_i _ _ first second
          obtain rfl := Option.some.inj (consumed1.symm.trans first)
          obtain rfl := Option.some.inj (consumed2.symm.trans second)
          exact result
        · rename_i failed
          exact absurd consumed2 (failed _ _ consumed1)
      · obtain ⟨j1,j2,consumed1,consumed2,result⟩ := advance (by omega) positive1 positive2
          (packed.pushLite (lite _ _ walks1.lite walks2.lite) (by omega))
        split
        · rename_i _ _ first second
          obtain rfl := Option.some.inj (consumed1.symm.trans first)
          obtain rfl := Option.some.inj (consumed2.symm.trans second)
          exact result
        · rename_i failed
          exact absurd consumed2 (failed _ _ consumed1)

theorem notFrom_packed {ws : List Word} (canonical : ∀ w ∈ ws, Canonical w) (packed : Packed b gs) (ii : Nat)
    (room : gs.length + (groups ws).length < 2^30) :
    Packed (WAHVector.notFrom b ii ws) (gs ++ (groups ws).map fun g => ~~~g &&& ALL_ONES) := by
  induction ws generalizing b gs ii with
  | nil => simpa [WAHVector.notFrom] using packed
  | cons w rest ih =>
    have known := canonical w (by simp)
    have others : ∀ w ∈ rest, Canonical w := fun v member => canonical v (by simp [member])
    rw [groups_cons,List.length_append,length_expand] at room
    rw [groups_cons,List.map_append,← List.append_assoc]
    show Packed (WAHVector.notFrom (if isFill w = true then pushFill b (fill (count w) (value w == 0))
      else pushLite b (~~~value w &&& ALL_ONES)) (ii + times (count w)) rest) _
    refine ih others ?_ _ (by simp; omega)
    by_cases filled : isFill w = true
    · have small := count_lt w
      have pushed := packed.pushFill (isFill_fill small (!isOnes w)) (canonical_fill known.nonempty small _)
        (by rw [count_fill small]; omega)
      have inverse : ~~~value w &&& ALL_ONES = allOf (!isOnes w) := by
        rw [value_fill filled]
        cases isOnes w <;> decide
      have kind : (value w == 0) = !isOnes w := by
        rw [value_fill filled]
        cases isOnes w <;> decide
      rw [expand_fill small] at pushed
      rwa [expand,List.map_replicate,inverse,if_pos filled,kind]
    · have inverse : isFill (~~~w &&& ALL_ONES) = false := by
        rw [isFill_eq_getLsbD,BitVec.getLsbD_and,getLsbD_ALL_ONES]
        simp
      rw [if_neg filled]
      rw [Bool.not_eq_true] at filled
      rw [expand_lite filled,value_lite filled]
      exact packed.pushLite inverse (by rw [count_lite filled] at room; omega)

end Otawa.Wah
