import Otawa.WahBits
import Otawa.BitCount

/-!
The tests of a run-length coded bit vector: equality, emptiness, inclusion, the number
of bits set, and the two operations that fill it. The vectors of clean operations are
the shortest codes of their arrays, so that equal bits are equal words; this is lost by the
two operations that fill, and `Reached` takes them into the runs.
-/
namespace Otawa.Wah

/-! ### The operations -/

namespace WAHVector

/-- The loop of `equals`. -/
def equalsFrom : List Word → List Word → Bool
  | w :: words, w' :: words' => if w ≠ w' then false else equalsFrom words words'
  | _, _ => true

def equals (v vec : WAHVector) : Bool :=
  if v.words.length ≠ vec.words.length then false else equalsFrom v.words vec.words

def isEmpty (v : WAHVector) : Option Bool :=
  match v.words with
  | [] => none
  | first :: others =>
    if !isZeroes first then some false
    else if others.length + 1 = 1 then some true
    else some (others.length + 1 == 2 && others.head? == some 0)

def isFull (v : WAHVector) : Option Bool :=
  match v.words with
  | [] => none
  | first :: others =>
    if !isOnes first then some false
    else if others.length + 1 = 1 then some true
    else if others.length + 1 = 2 then (mask v.rem).map fun last => others.head? == some last
    else some false

/-- The loop of `includes`, with the assertion that both end together. -/
def includesFrom (i j : Iter) : Option Bool :=
  if _ : i.ended then if j.ended then some true else none
  else if _ : j.ended then none
  else if i.isFill && j.isFill then
    if i.val = 0 ∧ j.val ≠ 0 then some false
    else
      let m := min i.cnt j.cnt
      match _ : i.consume m, _ : j.consume m with
      | some i', some j' => includesFrom i' j'
      | _, _ => none
  else if ~~~i.val &&& j.val ≠ 0 then some false
  else match _ : i.consume 1, _ : j.consume 1 with
    | some i', some j' => includesFrom i' j'
    | _, _ => none
termination_by (i.cur.length + j.cur.length,i.cnt + j.cnt)
decreasing_by
  all_goals
    have less1 := Iter.consume_less (Bool.eq_false_iff.mpr ‹_›) ‹i.consume _ = some _›
    have less2 := Iter.consume_less (Bool.eq_false_iff.mpr ‹_›) ‹j.consume _ = some _›
    simp only [Prod.lex_def]
    omega

def includes (v vec : WAHVector) : Option Bool := includesFrom (Iter.start v.words) (Iter.start vec.words)

/-- The loop of `countOnes`; the iterator is at its last word when no other follows. -/
def countOnesFrom (rem : Int) (r : Int) (ii : Nat) : List Word → Option Int
  | [] => some r
  | w :: rest =>
    let it := Iter.step ii (w :: rest)
    let last := rem ≠ 0 ∧ rest = []
    if it.isFill then
      if it.val ≠ 0 then countOnesFrom rem (if last then r + times it.cnt - (31 - rem) else r + times it.cnt) it.ii rest
      else countOnesFrom rem r it.ii rest
    else (if last then (mask rem).map fun kept => it.val &&& kept else some it.val).bind fun val =>
      countOnesFrom rem (r + ones32 val) it.ii rest

def countOnes (v : WAHVector) : Option Int := countOnesFrom v.rem 0 0 v.words

/-- `set(void)` and `clear(void)`: the first word becomes a fill. `_size` is the number
    of words. -/
def fillAll (value : Bool) (v : WAHVector) : Option WAHVector :=
  match v.words with
  | [] => none
  | _ :: others => some ⟨fill (div (others.length + 1) + if v.rem ≠ 0 then 1 else 0) value :: others,v.rem⟩

def setAll : WAHVector → Option WAHVector := fillAll true
def clearAll : WAHVector → Option WAHVector := fillAll false

end WAHVector

variable {n : Nat}

/-- The words stand for the array and no two runs of the same kind are side by side. -/
structure Shortest (v : WAHVector) (bits : Fin n → Bool) : Prop extends Represents v bits where
  tight : Tight v.words

theorem Represents.read {v : WAHVector} {bits : Fin n → Bool} (represents : Represents v bits) {k j : Nat} {g : Word}
    (known : (groups v.words)[k]? = some g) (low : j < 31) :
    g.getLsbD j = if within : 31 * k + j < n then bits ⟨31 * k + j,within⟩ else full bits := by
  split
  · rename_i within
    have place : (31 * k + j) / 31 = k := by omega
    have offset : (31 * k + j) % 31 = j := by omega
    have read := represents.spells.bits ⟨31 * k + j,within⟩ g (by rw [place]; exact known)
    simpa only [offset] using read
  · have inside : k < (groups v.words).length := (List.getElem?_eq_some_iff.mp known).1
    rw [represents.groupsLength] at inside
    obtain rfl : k = n / 31 := by omega
    exact represents.padded g known j (by omega) low (by omega)

theorem Represents.groups_eq {v v' : WAHVector} {bits : Fin n → Bool} (represents : Represents v bits)
    (represents' : Represents v' bits) : groups v.words = groups v'.words := by
  refine List.ext_getElem (represents.groupsLength.trans represents'.groupsLength.symm) fun k inside inside' => ?_
  have lite := represents.spells.lite _ (List.getElem_mem inside)
  have lite' := represents'.spells.lite _ (List.getElem_mem inside')
  apply BitVec.eq_of_getLsbD_eq
  intro j _
  by_cases high : j = 31
  · subst high
    rw [isFill_eq_getLsbD] at lite lite'
    rw [lite,lite']
  · have low : j < 31 := by omega
    rw [represents.read (List.getElem?_eq_getElem inside) low,represents'.read (List.getElem?_eq_getElem inside') low]

theorem Shortest.words_eq {v v' : WAHVector} {bits : Fin n → Bool} (shortest : Shortest v bits)
    (shortest' : Shortest v' bits) : v.words = v'.words :=
  tight_unique shortest.canonical shortest'.canonical shortest.tight shortest'.tight
    (shortest.toRepresents.groups_eq shortest'.toRepresents)

theorem WAHVector.equalsFrom_eq {words words' : List Word} (same : words.length = words'.length) :
    equalsFrom words words' = true ↔ words = words' := by
  induction words generalizing words' with
  | nil =>
    cases words' with
    | nil => simp [equalsFrom]
    | cons _ _ => cases same
  | cons w words ih =>
    cases words' with
    | nil => cases same
    | cons w' words' =>
      rw [equalsFrom,List.cons.injEq]
      by_cases equal : w = w'
      · simp [equal,ih (Nat.succ.inj same)]
      · simp [equal]

theorem WAHVector.equals_iff {v vec : WAHVector} : v.equals vec = true ↔ v.words = vec.words := by
  unfold equals
  split
  · rename_i differ
    exact iff_of_false Bool.false_ne_true fun same => differ (congrArg List.length same)
  · rename_i same
    exact equalsFrom_eq (not_not.mp same)

theorem Shortest.equals_iff {v vec : WAHVector} {bits bits' : Fin n → Bool} (small : n < 4638219)
    (shortest : Shortest v bits) (shortest' : Shortest vec bits') : v.equals vec = true ↔ bits = bits' := by
  rw [WAHVector.equals_iff]
  constructor
  · intro same
    funext i
    have read := shortest.toRepresents.bit small i
    rw [WAHVector.bit,same] at read
    exact Option.some.inj (read.symm.trans (shortest'.toRepresents.bit small i))
  · rintro rfl
    exact shortest.words_eq shortest'

theorem shortest_make (positive : 0 < n) (small : n < 4638219) (init : Bool) :
    Shortest (WAHVector.make n init) fun _ : Fin n => init :=
  ⟨represents_make positive small init,tight_single _⟩

/-! ### Emptiness -/

section Queries
variable {v vec : WAHVector} {bits bits' : Fin n → Bool}

/-- A bit is set and a bit is clear. -/
def Mixes (bits : Fin n → Bool) : Prop := (∃ i, bits i = true) ∧ ∃ i, bits i = false

/-- The words of an array: a run, a group that is the whole array, or more words. -/
inductive Shape (bits : Fin n → Bool) : List Word → Prop
  | run (all : Bool) (same : ∀ i, bits i = all) : Shape bits [fill ((n + 30) / 31 : Nat) all]
  | group (w : Word) (short : n ≤ 31) (mixes : Mixes bits) (lite : isFill w = false)
      (top : isOnes w = true ↔ ∃ i : Fin n, i.val = 30 ∧ bits i = true) : Shape bits [w]
  | many (first second : Word) (others : List Word) (long : 31 < n) (mixes : Mixes bits) :
      Shape bits (first :: second :: others)

theorem Shortest.shape (positive : 0 < n) (small : n < 4638219) (shortest : Shortest v bits) : Shape bits v.words := by
  by_cases constant : ∃ all, ∀ i, bits i = all
  · obtain ⟨all,same⟩ := constant
    obtain rfl : bits = fun _ => all := funext same
    rw [shortest.words_eq (shortest_make positive small all),make_words small]
    exact Shape.run all same
  · have mixes : Mixes bits := by
      constructor
      · by_contra none
        exact constant ⟨false,fun i => Bool.eq_false_iff.mpr fun bit => none ⟨i,bit⟩⟩
      · by_contra none
        exact constant ⟨true,fun i => by_contra fun bit => none ⟨i,Bool.eq_false_iff.mpr bit⟩⟩
    have length := shortest.toRepresents.groupsLength
    have read := shortest.spells.bits
    have padded := shortest.padded
    have canonical := shortest.canonical
    cases words : v.words with
    | nil =>
      rw [words] at length
      simp at length
      omega
    | cons w others =>
      rw [words] at length read padded canonical
      cases others with
      | nil =>
        rw [groups_cons,groups_nil,List.append_nil] at length read padded
        cases filled : isFill w with
        | true =>
          refine absurd ⟨isOnes w,fun i => ?_⟩ constant
          have inside : i.val / 31 < (expand w).length := by omega
          have member := List.eq_of_mem_replicate (List.getElem_mem inside)
          rw [← read i _ (List.getElem?_eq_getElem inside),member,value_fill filled,getLsbD_allOf _ (by omega)]
        | false =>
          rw [expand_lite filled] at length read padded
          have short : n ≤ 31 := by simp at length; omega
          refine Shape.group w short mixes filled ?_
          rw [isOnes_eq_getLsbD]
          by_cases whole : n = 31
          · subst whole
            rw [show w.getLsbD 30 = bits ⟨30,by decide⟩ from read ⟨30,by decide⟩ w rfl]
            refine ⟨fun bit => ⟨_,rfl,bit⟩,?_⟩
            rintro ⟨i,place,bit⟩
            have same : i = ⟨30,by decide⟩ := Fin.ext place
            rwa [same] at bit
          · obtain ⟨i,clear⟩ := mixes.2
            have partly : full bits = false := by
              refine Bool.eq_false_iff.mpr fun whole => ?_
              rw [full_eq_true.mp whole i (by omega)] at clear
              cases clear
            rw [padded w (by rw [Nat.div_eq_of_lt (by omega)]; rfl) 30 (by omega) (by omega) (by omega),partly]
            exact iff_of_false Bool.false_ne_true fun ⟨i,place,_⟩ => by omega
      | cons second others =>
        refine Shape.many w second others ?_ mixes
        have first := (canonical w (by simp)).nonempty
        have next := (canonical second (by simp)).nonempty
        simp at length
        omega

theorem Shortest.second {first second : Word} (shortest : Shortest v bits)
    (words : v.words = [first,second]) : second ≠ 0 ∧ second ≠ kept (n % 31) := by
  have known := shortest.canonical second (by simp [words])
  cases filled : isFill second with
  | true =>
    rw [isFill_eq_getLsbD] at filled
    constructor
    · rintro rfl
      simp at filled
    · rintro rfl
      rw [getLsbD_kept (by omega)] at filled
      simp at filled
      omega
  | false =>
    refine ⟨(known.mixed filled).1,fun same => ?_⟩
    have nonzero := (known.mixed filled).1
    have length := shortest.toRepresents.groupsLength
    rw [words,groups_cons,groups_cons,groups_nil,List.append_nil,expand_lite filled,List.length_append,length_expand,
      List.length_singleton] at length
    have partly : n % 31 ≠ 0 := by
      intro whole
      rw [same,whole] at nonzero
      exact nonzero rfl
    have last : (groups v.words)[n / 31]? = some second := by
      have index : n / 31 = (expand first).length := by rw [length_expand]; omega
      rw [words,groups_cons,groups_cons,groups_nil,List.append_nil,expand_lite filled,index]
      simp
    have pad := shortest.padded second last (n % 31) (Nat.le_refl _) (by omega) partly
    rw [same,getLsbD_kept (by omega),decide_eq_false (Nat.lt_irrefl _)] at pad
    refine Bool.false_ne_true (pad.trans (full_eq_true.mpr fun i inside => ?_))
    have below := i.isLt
    have index : i.val / 31 = n / 31 := by omega
    rw [← shortest.spells.bits i second (by rw [index]; exact last),same,getLsbD_kept (by omega),decide_eq_true]
    omega

/-- `isEmpty` reads only the last bit of an array of one group. -/
theorem Shortest.isEmpty_iff (positive : 0 < n) (small : n < 4638219) (shortest : Shortest v bits) :
    v.isEmpty = some (decide (∀ i, bits i = false)) ↔
      ¬ (n ≤ 31 ∧ Mixes bits ∧ ¬ ∃ i : Fin n, i.val = 30 ∧ bits i = true) := by
  have shape := shortest.shape positive small
  have second (first second : Word) (words : v.words = [first,second]) := shortest.second words
  unfold WAHVector.isEmpty
  generalize v.words = words at shape second
  cases shape with
  | run all same =>
    have kind : isOnes (fill ((n + 30) / 31 : Nat) all) = all := isOnes_fill (by omega) all
    have some : Nonempty (Fin n) := ⟨⟨0,positive⟩⟩
    have answer : decide (∀ i, bits i = false) = !all := by cases all <;> simp [same]
    generalize fill _ all = w at kind
    refine iff_of_true ?_ ?_
    · rw [answer]
      cases all <;> simp [isZeroes,kind]
    · rintro ⟨_,⟨⟨i,set⟩,⟨j,clear⟩⟩,_⟩
      rw [same] at set clear
      rw [set] at clear
      cases clear
  | group w short mixes lite top =>
    obtain ⟨i,set⟩ := mixes.1
    have some : decide (∀ i, bits i = false) = false := decide_eq_false fun none => by simp [none i] at set
    rw [some,← top]
    cases bit : isOnes w <;> simp [isZeroes,bit,short,mixes]
  | many first next others long mixes =>
    obtain ⟨i,set⟩ := mixes.1
    have some : decide (∀ i, bits i = false) = false := decide_eq_false fun none => by simp [none i] at set
    rw [some]
    refine iff_of_true ?_ fun both => absurd both.1 (by omega)
    cases bit : isOnes first with
    | true => simp [isZeroes,bit]
    | false =>
      cases others with
      | nil =>
        have nonzero : next ≠ 0#32 := (second first next rfl).1
        simp [isZeroes,bit,nonzero]
      | cons => simp [isZeroes,bit]

theorem Shortest.isFull_iff (positive : 0 < n) (small : n < 4638219) (shortest : Shortest v bits) :
    v.isFull = some (decide (∀ i, bits i = true)) ↔
      ¬ (n ≤ 31 ∧ Mixes bits ∧ ∃ i : Fin n, i.val = 30 ∧ bits i = true) := by
  have shape := shortest.shape positive small
  have second (first second : Word) (words : v.words = [first,second]) := shortest.second words
  unfold WAHVector.isFull
  rw [shortest.rem,mask_eq (by omega)]
  generalize v.words = words at shape second
  cases shape with
  | run all same =>
    have kind : isOnes (fill ((n + 30) / 31 : Nat) all) = all := isOnes_fill (by omega) all
    have some : Nonempty (Fin n) := ⟨⟨0,positive⟩⟩
    have answer : decide (∀ i, bits i = true) = all := by cases all <;> simp [same]
    generalize fill _ all = w at kind
    refine iff_of_true ?_ ?_
    · rw [answer]
      cases all <;> simp [kind]
    · rintro ⟨_,⟨⟨i,set⟩,⟨j,clear⟩⟩,_⟩
      rw [same] at set clear
      rw [set] at clear
      cases clear
  | group w short mixes lite top =>
    obtain ⟨i,clear⟩ := mixes.2
    have some : decide (∀ i, bits i = true) = false := decide_eq_false fun all => by simp [all i] at clear
    rw [some,← top]
    cases bit : isOnes w <;> simp [bit,short,mixes]
  | many first next others long mixes =>
    obtain ⟨i,clear⟩ := mixes.2
    have some : decide (∀ i, bits i = true) = false := decide_eq_false fun all => by simp [all i] at clear
    rw [some]
    refine iff_of_true ?_ fun both => absurd both.1 (by omega)
    cases bit : isOnes first with
    | false => simp [bit]
    | true =>
      cases others with
      | nil => simp [bit,(second first next rfl).2]
      | cons => simp [bit]

/-- No bit of the second group is missing in the first one. -/
def covers (g h : Word) : Bool := ~~~g &&& h == 0#32

theorem covers_iff {g h : Word} : covers g h = true ↔ ∀ j < 32, h.getLsbD j = true → g.getLsbD j = true := by
  rw [covers,beq_iff_eq]
  constructor
  · intro none j inside bit
    have clear := congrArg (fun w => w.getLsbD j) none
    rw [BitVec.getLsbD_and,BitVec.getLsbD_not,bit,decide_eq_true inside,BitVec.getLsbD_zero] at clear
    simpa using clear
  · intro all
    apply BitVec.eq_of_getLsbD_eq
    intro j inside
    have bit := all j inside
    cases other : h.getLsbD j with
    | false => simp [other]
    | true => simp [bit other]

theorem covers_allOf (all1 all2 : Bool) :
    covers (allOf all1) (allOf all2) = false ↔ allOf all1 = 0 ∧ allOf all2 ≠ 0 := by
  cases all1 <;> cases all2 <;> decide

theorem includesFrom_eq {i j : Iter} {g1 g2 : List Word} (walks1 : Walks i g1) (walks2 : Walks j g2)
    (same : g1.length = g2.length) :
    WAHVector.includesFrom i j = some ((List.zipWith covers g1 g2).all id) := by
  induction left : g1.length using Nat.strongRecOn generalizing i j g1 g2 with
  | _ n ih =>
    subst left
    rw [WAHVector.includesFrom]
    by_cases done : i.cur = []
    · have empty := walks1.ended done
      have done2 : j.cur = [] := by
        by_contra more
        obtain ⟨positive,total⟩ := walks2.here more
        rw [empty,total] at same
        simp at same
        omega
      rw [empty]
      simp [Iter.ended,done,done2]
    · obtain ⟨positive1,total1⟩ := walks1.here done
      have more : j.cur ≠ [] := by
        intro done2
        have none := congrArg List.length total1
        rw [same,walks2.ended done2] at none
        simp at none
        omega
      obtain ⟨positive2,total2⟩ := walks2.here more
      have parts {c : Nat} (enough1 : c ≤ i.cnt) (enough2 : c ≤ j.cnt) :
          (List.zipWith covers g1 g2).all id =
            ((List.replicate c (covers i.val j.val)).all id && (List.zipWith covers (g1.drop c) (g2.drop c)).all id) := by
        rw [zipWith_split (walks1.take done enough1) (walks2.take more enough2),List.all_append]
      have advance {c : Nat} (positive : 0 < c) (enough1 : c ≤ i.cnt) (enough2 : c ≤ j.cnt)
          (holds : covers i.val j.val = true) :
          ∃ i' j', i.consume c = some i' ∧ j.consume c = some j' ∧
            WAHVector.includesFrom i' j' = some ((List.zipWith covers g1 g2).all id) := by
        obtain ⟨i',consumed1,after1⟩ := walks1.consume done enough1
        obtain ⟨j',consumed2,after2⟩ := walks2.consume more enough2
        have inside : c ≤ g1.length := by rw [total1]; simp; omega
        refine ⟨i',j',consumed1,consumed2,?_⟩
        rw [parts enough1 enough2,holds,ih (g1.drop c).length (by simp; omega) after1 after2 (by simp [same]) rfl]
        simp
      have fails (missing : covers i.val j.val = false) : (List.zipWith covers g1 g2).all id = false := by
        rw [parts (c := 1) positive1 positive2,missing]
        simp
      rw [dif_neg (by simp [Iter.ended,done]),dif_neg (by simp [Iter.ended,more])]
      split
      · rename_i filled
        rw [Bool.and_eq_true] at filled
        obtain ⟨all1,value1⟩ := walks1.run filled.1
        obtain ⟨all2,value2⟩ := walks2.run filled.2
        have kind := covers_allOf all1 all2
        rw [← value1,← value2] at kind
        split
        · rename_i missing
          rw [fails (kind.mpr missing)]
        · rename_i holds
          obtain ⟨i',j',consumed1,consumed2,result⟩ := advance (by omega) (Nat.min_le_left ..) (Nat.min_le_right ..)
            (Bool.not_eq_false _ ▸ mt kind.mp holds)
          dsimp only
          split
          · rename_i _ _ first second
            obtain rfl := Option.some.inj (consumed1.symm.trans first)
            obtain rfl := Option.some.inj (consumed2.symm.trans second)
            exact result
          · rename_i failed
            exact absurd consumed2 (failed _ _ consumed1)
      · have kind : covers i.val j.val = false ↔ ~~~i.val &&& j.val ≠ 0 := beq_eq_false_iff_ne
        split
        · rename_i missing
          rw [fails (kind.mpr missing)]
        · rename_i holds
          obtain ⟨i',j',consumed1,consumed2,result⟩ := advance (by omega) positive1 positive2
            (Bool.not_eq_false _ ▸ mt kind.mp holds)
          split
          · rename_i _ _ first second
            obtain rfl := Option.some.inj (consumed1.symm.trans first)
            obtain rfl := Option.some.inj (consumed2.symm.trans second)
            exact result
          · rename_i failed
            exact absurd consumed2 (failed _ _ consumed1)

theorem Represents.includes_eq (represents : Represents v bits) (represents' : Represents vec bits') :
    v.includes vec = some (decide (∀ i, bits' i = true → bits i = true)) := by
  have length := represents.groupsLength
  have length' := represents'.groupsLength
  rw [WAHVector.includes,Iter.start,Iter.start,includesFrom_eq (walks_step represents.canonical 0)
    (walks_step represents'.canonical 0) (length.trans length'.symm)]
  congr 1
  rw [Bool.eq_iff_iff,List.all_eq_true,decide_eq_true_iff]
  have read {k : Nat} {c : Bool} (place : (List.zipWith covers (groups v.words) (groups vec.words))[k]? = some c) :
      ∃ g h, (groups v.words)[k]? = some g ∧ (groups vec.words)[k]? = some h ∧ c = covers g h := by
    rw [List.getElem?_zipWith_eq_some] at place
    obtain ⟨g,h,found1,found2,rfl⟩ := place
    exact ⟨g,h,found1,found2,rfl⟩
  constructor
  · intro all i bit
    have below := i.isLt
    have inside : i.val / 31 < (groups v.words).length := by omega
    have inside' : i.val / 31 < (groups vec.words).length := by omega
    have known := List.getElem?_eq_getElem inside
    have known' := List.getElem?_eq_getElem inside'
    rw [← represents'.spells.bits i _ known'] at bit
    rw [← represents.spells.bits i _ known]
    refine covers_iff.mp (all _ (List.mem_of_getElem? (i := i.val / 31) ?_)) _ (by omega) bit
    rw [List.getElem?_zipWith_eq_some]
    exact ⟨_,_,known,known',rfl⟩
  · intro all c member
    obtain ⟨k,place⟩ := List.getElem?_of_mem member
    obtain ⟨g,h,known,known',rfl⟩ := read place
    refine covers_iff.mpr fun j inside bit => ?_
    have lite := lite_of_mem_groups (List.mem_of_getElem? known')
    rw [isFill_eq_getLsbD] at lite
    have low : j < 31 := by
      by_contra high
      obtain rfl : j = 31 := by omega
      rw [lite] at bit
      cases bit
    rw [represents'.read known' low] at bit
    rw [represents.read known low]
    split
    · rename_i within
      rw [dif_pos within] at bit
      exact all _ bit
    · rename_i beyond
      rw [dif_neg beyond] at bit
      exact full_eq_true.mpr fun i last => all i (full_eq_true.mp bit i last)

def bitAt (gs : List Word) (k : Nat) : Bool := gs[k / 31]?.any fun g => g.getLsbD (k % 31)

private theorem countP_expand {w : Word} {gs : List Word} {m : Nat} (inside : m ≤ 31 * count w) :
    (List.range m).countP (bitAt (expand w ++ gs)) = (List.range m).countP fun k => (value w).getLsbD (k % 31) := by
  refine List.countP_congr fun k low => ?_
  rw [List.mem_range] at low
  have here : k / 31 < (expand w).length := by rw [length_expand]; omega
  rw [bitAt,List.getElem?_append_left here,expand,List.getElem?_replicate,if_pos (by omega)]
  rfl

private theorem countP_groups {w : Word} {gs : List Word} {m : Nat} (long : 31 * count w ≤ m) :
    (List.range m).countP (bitAt (expand w ++ gs)) =
      ((List.range (31 * count w)).countP fun k => (value w).getLsbD (k % 31)) +
        (List.range (m - 31 * count w)).countP (bitAt gs) := by
  obtain ⟨k,rfl⟩ := Nat.exists_eq_add_of_le long
  rw [List.range_add,List.countP_append,List.countP_map,countP_expand (Nat.le_refl _),Nat.add_sub_cancel_left]
  congr 1
  refine List.countP_congr fun k _ => ?_
  have place : (31 * count w + k) / 31 = (expand w).length + k / 31 := by rw [length_expand]; omega
  have offset : (31 * count w + k) % 31 = k % 31 := by omega
  rw [Function.comp_apply,bitAt,bitAt,place,offset,List.getElem?_append_right (by omega),Nat.add_sub_cancel_left]

private theorem countP_fill {w : Word} (filled : isFill w = true) (m : Nat) :
    ((List.range m).countP fun k => (value w).getLsbD (k % 31)) = if isOnes w then m else 0 := by
  have equal k : (value w).getLsbD (k % 31) = isOnes w := by
    rw [value_fill filled,getLsbD_allOf _ (by omega)]
  simp only [equal]
  cases isOnes w <;> simp

private theorem countP_lite (w : Word) {m : Nat} (short : m ≤ 31) :
    ((List.range m).countP fun k => w.getLsbD (k % 31)) = (List.range m).countP fun k => w.getLsbD k := by
  refine List.countP_congr fun k inside => ?_
  rw [List.mem_range] at inside
  rw [Nat.mod_eq_of_lt (by omega)]

private theorem ones32_low {w : Word} {m : Nat} (short : m ≤ 31) (clear : ∀ j, m ≤ j → w.getLsbD j = false) :
    ones32 w = (List.range m).countP fun k => w.getLsbD k := by
  obtain ⟨rest,total⟩ := Nat.exists_eq_add_of_le (show m ≤ 32 by omega)
  have parts : List.range 32 = List.range m ++ (List.range rest).map (m + ·) := by rw [total,List.range_add]
  rw [ones32_eq,countSet,parts,List.countP_append,List.countP_map]
  refine Nat.add_eq_left.mpr (List.countP_eq_zero.mpr fun k _ => ?_)
  simp [clear (m + k) (by omega)]

private theorem countOnesFrom_cons (rem r : Int) (ii : Nat) (w : Word) (rest : List Word) :
    WAHVector.countOnesFrom rem r ii (w :: rest) =
      if isFill w then
        if value w ≠ 0 then
          WAHVector.countOnesFrom rem
            (if rem ≠ 0 ∧ rest = [] then r + times (count w) - (31 - rem) else r + times (count w))
            (ii + times (count w)) rest
        else WAHVector.countOnesFrom rem r (ii + times (count w)) rest
      else (if rem ≠ 0 ∧ rest = [] then (mask rem).map fun kept => value w &&& kept else some (value w)).bind
        fun val => WAHVector.countOnesFrom rem (r + ones32 val) (ii + times (count w)) rest := rfl

private theorem countOnesFrom_fill {w : Word} (filled : isFill w = true) (rem r : Int) (ii : Nat) (rest : List Word) :
    WAHVector.countOnesFrom rem r ii (w :: rest) = WAHVector.countOnesFrom rem
      (r + if isOnes w then 31 * count w - (if rem ≠ 0 ∧ rest = [] then 31 - rem else 0) else 0)
      (ii + times (count w)) rest := by
  have different : ALL_ONES ≠ 0 := by decide
  rw [countOnesFrom_cons,if_pos filled,value_fill filled,times_eq]
  cases isOnes w with
  | true =>
    rw [allOf,if_pos rfl,if_pos different,if_pos rfl]
    congr 1
    split <;> omega
  | false =>
    rw [allOf,if_neg Bool.false_ne_true,if_neg fun other => other rfl,if_neg Bool.false_ne_true,Int.add_zero]

private theorem countOnesFrom_lite {w : Word} (lite : isFill w = false) (m : Nat) (r : Int) (ii : Nat) (rest : List Word) :
    WAHVector.countOnesFrom (m % 31 : Nat) r ii (w :: rest) = WAHVector.countOnesFrom (m % 31 : Nat)
      (r + ones32 (if m % 31 ≠ 0 ∧ rest = [] then w &&& kept (m % 31) else w)) (ii + times (count w)) rest := by
  have number : ((m % 31 : Nat) : Int) ≠ 0 ↔ m % 31 ≠ 0 := by omega
  rw [countOnesFrom_cons,if_neg (by rw [lite]; decide),value_lite lite,mask_eq (by omega)]
  simp only [number]
  split <;> rfl

private theorem ones32_lite {w : Word} (lite : isFill w = false) : ones32 w = (List.range 31).countP fun k => w.getLsbD k := by
  refine ones32_low (Nat.le_refl _) fun j high => ?_
  by_cases top : j = 31
  · rw [isFill_eq_getLsbD] at lite
    rwa [top]
  · exact BitVec.getLsbD_of_ge w j (by omega)

private theorem ones32_kept (w : Word) {m : Nat} (short : m < 31) :
    ones32 (w &&& kept m) = (List.range m).countP fun k => w.getLsbD k := by
  rw [ones32_low (m := m) (by omega) fun j high => by rw [getLsbD_and_kept short]; simp [Nat.not_lt.mpr high]]
  refine List.countP_congr fun k inside => ?_
  rw [List.mem_range] at inside
  rw [getLsbD_and_kept short]
  simp [inside]

theorem countOnesFrom_eq {ws : List Word} (canonical : ∀ w ∈ ws, Canonical w) {m : Nat}
    (length : (groups ws).length = (m + 30) / 31) (r : Int) (ii : Nat) :
    WAHVector.countOnesFrom (m % 31 : Nat) r ii ws = some (r + (List.range m).countP (bitAt (groups ws))) := by
  induction ws generalizing m r ii with
  | nil =>
    obtain rfl : m = 0 := by simp at length; omega
    simp [WAHVector.countOnesFrom]
  | cons w rest ih =>
    have known := canonical w (by simp)
    have others : ∀ w ∈ rest, Canonical w := fun v member => canonical v (by simp [member])
    rw [groups_cons,List.length_append,length_expand] at length
    rw [groups_cons]
    by_cases more : rest = []
    · subst more
      rw [groups_nil,List.length_nil] at length
      rw [groups_nil,countP_expand (by omega)]
      cases filled : isFill w with
      | true =>
        rw [countOnesFrom_fill filled,countP_fill filled,WAHVector.countOnesFrom]
        congr 2
        cases isOnes w with
        | true => simp; split <;> omega
        | false => rfl
      | false =>
        rw [count_lite filled] at length
        rw [countOnesFrom_lite filled,value_lite filled,countP_lite w (by omega),WAHVector.countOnesFrom]
        have counted : ones32 (if m % 31 ≠ 0 ∧ ([] : List Word) = [] then w &&& kept (m % 31) else w) =
            (List.range m).countP fun k => w.getLsbD k := by
          by_cases whole : m % 31 = 0
          · obtain rfl : m = 31 := by omega
            exact ones32_lite filled
          · rw [if_pos ⟨whole,rfl⟩,Nat.mod_eq_of_lt (by omega)]
            exact ones32_kept w (by omega)
        rw [counted]
    · have nonempty : 0 < (groups rest).length := by
        obtain ⟨next,others',rfl⟩ := List.exists_cons_of_ne_nil more
        have := (others next (by simp)).nonempty
        simp
        omega
      have long : 31 * count w < m := by omega
      have rem : (m - 31 * count w) % 31 = m % 31 := by omega
      rw [countP_groups (Nat.le_of_lt long)]
      have step r ii := ih others (m := m - 31 * count w) (by omega) r ii
      rw [rem] at step
      cases filled : isFill w with
      | true =>
        rw [countOnesFrom_fill filled,countP_fill filled,step]
        congr 1
        cases isOnes w with
        | true => simp [more]; omega
        | false => simp
      | false =>
        rw [countOnesFrom_lite filled,value_lite filled,count_lite filled,countP_lite w (Nat.le_refl _),
          if_neg fun last => more last.2,ones32_lite filled,step,count_lite filled]
        push_cast
        rw [Int.add_assoc]

theorem Represents.countOnes_eq (represents : Represents v bits) :
    v.countOnes = some ((List.finRange n).countP bits : Nat) := by
  have length := represents.groupsLength
  rw [WAHVector.countOnes,represents.rem,countOnesFrom_eq represents.canonical length,Int.zero_add,← countP_finRange]
  congr 2
  refine List.countP_congr fun i _ => ?_
  have below := i.isLt
  have inside : i.val / 31 < (groups v.words).length := by omega
  have known := List.getElem?_eq_getElem inside
  rw [bitAt,known,Option.any_some,represents.spells.bits i _ known]

/-! ### Filling -/

theorem bit_groups (v : WAHVector) {index : Nat} (small : index < 4638219) :
    v.bit index = (groups v.words)[index / 31]?.map fun g => g.getLsbD (index % 31) := by
  have read : WAHVector.bitFrom index (31 * 0) v.words = _ := bitFrom_eq small (by omega)
  rw [Nat.sub_zero] at read
  rw [WAHVector.bit,show 0 = 31 * 0 from rfl,read]

theorem Represents.group_eq (represents : Represents v bits) {c k : Nat} {value : Bool} {g : Word}
    (equal : ∀ i : Fin n, 31 * c ≤ i.val → bits i = value) (from_ : c ≤ k) (known : (groups v.words)[k]? = some g) :
    g = allOf value := by
  have inside : k < (groups v.words).length := (List.getElem?_eq_some_iff.mp known).1
  rw [represents.groupsLength] at inside
  refine eq_allOf (lite_of_mem_groups (List.mem_of_getElem? known)) fun j low => ?_
  rw [represents.read known low]
  split
  · exact equal _ (by simp; omega)
  · have first : full bits = true ↔ ∀ i : Fin n, 31 * (n / 31) ≤ i.val → value = true :=
      full_eq_true.trans (forall₂_congr fun i last => by rw [equal i (by omega)])
    rw [Bool.eq_iff_iff,first]
    exact ⟨fun all => all ⟨31 * (n / 31),by omega⟩ (Nat.le_refl _),fun set _ _ => set⟩

/-- The fill that `set(void)` and `clear(void)` write stands for the groups of the first word,
    and the bits of the other words have the value already. -/
def FillFits (v : WAHVector) (bits : Fin n → Bool) (value : Bool) : Prop :=
  n = 0 ∨ ∃ first others, v.words = first :: others ∧
    v.words.length / 31 + (if n % 31 ≠ 0 then 1 else 0) = count first ∧
    ∀ i : Fin n, 31 * count first ≤ i.val → bits i = value

/-- The words of the vector that a fill operation makes. -/
private theorem Represents.fillAll_words {first : Word} {others : List Word} (small : n < 4638219)
    (represents : Represents v bits) (words : v.words = first :: others) (value : Bool) :
    ∃ k v', k = v.words.length / 31 + (if n % 31 ≠ 0 then 1 else 0) ∧ k < 2^30 ∧ v.fillAll value = some v' ∧
      v'.rem = v.rem ∧ v'.words = fill (k : Nat) value :: others ∧
      groups v'.words = List.replicate k (allOf value) ++ groups others ∧
      (v'.size = n ↔ k + (groups others).length = (n + 30) / 31) := by
  have length := represents.groupsLength
  have many : others.length ≤ (groups others).length := by
    have canonical : ∀ w ∈ others, Canonical w := fun w member => represents.canonical w (by simp [words,member])
    clear words
    induction others with
    | nil => exact Nat.le_refl _
    | cons w rest ih =>
      have nonempty := (canonical w (by simp)).nonempty
      have := ih fun u member => canonical u (by simp [member])
      simp
      omega
  rw [words,groups_cons,List.length_append,length_expand] at length
  rw [words,List.length_cons]
  have number : ((div (others.length + 1) : Nat) : Int) + (if v.rem ≠ 0 then 1 else 0) =
      ((others.length + 1) / 31 + (if n % 31 ≠ 0 then 1 else 0) : Nat) := by
    rw [div_eq (by omega),represents.rem]
    split <;> split <;> omega
  have short : (others.length + 1) / 31 + (if n % 31 ≠ 0 then 1 else 0) < 2^30 := by split <;> omega
  have coded : groups (fill ((others.length + 1) / 31 + (if n % 31 ≠ 0 then 1 else 0) : Nat) value :: others) =
      List.replicate ((others.length + 1) / 31 + (if n % 31 ≠ 0 then 1 else 0)) (allOf value) ++ groups others := by
    rw [groups_cons,expand_fill short]
  refine ⟨_,⟨fill ((others.length + 1) / 31 + (if n % 31 ≠ 0 then 1 else 0) : Nat) value :: others,v.rem⟩,rfl,short,?_,
    rfl,rfl,coded,?_⟩
  · rw [WAHVector.fillAll,words,← number]
  rw [size_eq,coded,List.length_append,List.length_replicate,represents.rem]
  split <;> split <;> omega

private theorem Represents.fill_groups {first : Word} {others : List Word} {v' : WAHVector} {k : Nat} {value : Bool}
    (represents : Represents v bits) (total : groups v.words = expand first ++ groups others)
    (coded : groups v'.words = List.replicate k (allOf value) ++ groups others)
    (equal : ∀ i : Fin n, 31 * count first ≤ i.val → bits i = value) : ∀ g ∈ groups v'.words, g = allOf value := by
  intro g member
  rw [coded,List.mem_append] at member
  rcases member with member | member
  · exact List.eq_of_mem_replicate member
  · obtain ⟨q,place⟩ := List.getElem?_of_mem member
    refine represents.group_eq equal (Nat.le_add_right _ q) ?_
    rwa [total,List.getElem?_append_right (by rw [length_expand]; omega),length_expand,Nat.add_sub_cancel_left]

/-- A fill that fits keeps a vector that stands for its array. -/
theorem Represents.fill_represents (positive : 0 < n) (small : n < 4638219) (represents : Represents v bits)
    {value : Bool} (fits : FillFits v bits value) {w : WAHVector} (made : v.fillAll value = some w) :
    Represents w fun _ : Fin n => value := by
  obtain ⟨first,others,words,replaced,equal⟩ := fits.resolve_left (by omega)
  obtain ⟨k,v',kind,short,made',rem,words',coded,size⟩ := represents.fillAll_words small words value
  obtain rfl := Option.some.inj (made'.symm.trans made)
  rw [← kind] at replaced
  have total : groups v.words = expand first ++ groups others := by rw [words,groups_cons]
  have length := represents.groupsLength
  rw [total,List.length_append,length_expand,← replaced] at length
  have nonempty := (represents.canonical first (by simp [words])).nonempty
  have all := represents.fill_groups total coded equal
  refine ⟨rem.trans represents.rem,?_,⟨?_,?_,fun _ => lite_of_mem_groups⟩,?_⟩
  · intro u member
    rw [words'] at member
    rcases List.mem_cons.mp member with rfl | member
    · exact canonical_fill (by omega) short value
    · exact represents.canonical u (by simp [words,member])
  · rw [coded,List.length_append,List.length_replicate]
    exact length
  · intro i g known
    rw [all g (List.mem_of_getElem? known),getLsbD_allOf _ (by omega)]
  · intro g known j _ low partly
    rw [all g (List.mem_of_getElem? known),getLsbD_allOf _ low,full_const partly]

theorem Represents.fillAll_iff (positive : 0 < n) (small : n < 4638219) (represents : Represents v bits) (value : Bool) :
    (∃ v', v.fillAll value = some v' ∧ v'.size = n ∧ ∀ i : Fin n, v'.bit i = some value) ↔ FillFits v bits value := by
  have length := represents.groupsLength
  have read (i : Fin n) := represents.bit small i
  cases words : v.words with
  | nil =>
    rw [words] at length
    simp at length
    omega
  | cons first others =>
    obtain ⟨k,v',kind,-,made,-,-,coded,size⟩ := represents.fillAll_words small words value
    have total : groups v.words = expand first ++ groups others := by rw [words,groups_cons]
    rw [total,List.length_append,length_expand] at length
    constructor
    · rintro ⟨w,made',right,bit⟩
      obtain rfl := Option.some.inj (made.symm.trans made')
      have agree := size.mp right
      have same : k = count first := by omega
      refine .inr ⟨first,others,words,kind ▸ same,fun i from_ => ?_⟩
      have before := read i
      have after := bit i
      rw [bit_groups _ (by omega),total,List.getElem?_append_right (by rw [length_expand]; omega),length_expand] at before
      rw [bit_groups _ (by omega),coded,List.getElem?_append_right (by rw [List.length_replicate]; omega),
        List.length_replicate,same,before] at after
      exact Option.some.inj after
    · rintro (none | ⟨first',others',words',replaced,equal⟩)
      · omega
      rw [words] at words'
      cases words'
      rw [← kind] at replaced
      refine ⟨v',made,size.mpr (by omega),fun i => ?_⟩
      have below := i.isLt
      have inside : i.val / 31 < (groups v'.words).length := by
        rw [coded,List.length_append,List.length_replicate]
        omega
      rw [bit_groups _ (by omega),List.getElem?_eq_getElem inside,Option.map_some,
        represents.fill_groups total coded equal _ (List.getElem_mem inside),getLsbD_allOf _ (by omega)]

end Queries

namespace Build

private theorem tight_of_clean (positive : 0 < n) (small : n < 4638219) {b : Build n} (clean : b.All Clean)
    {result : WAHVector} (made : b.vector = some result) : Tight result.words := by
  have packed {b : Build n} (clean : b.Clean) (packs : Packs b.vector b.plain b.beyond) {result : WAHVector}
      (made : b.vector = some result) : Tight result.words := packs result made ((clean_iff b).mp clean)
  induction b generalizing result with
  | init value =>
    obtain rfl := Option.some.inj made
    exact tight_single _
  | set v i before =>
    obtain ⟨w,madeBefore,represents⟩ := stands_of_clean positive small clean.1
    refine packed clean.2 ?_ made
    rw [vector,madeBefore]
    exact (change_ends puts_set small represents i).2 (before clean.1 madeBefore)
  | clear v i before =>
    obtain ⟨w,madeBefore,represents⟩ := stands_of_clean positive small clean.1
    refine packed clean.2 ?_ made
    rw [vector,madeBefore]
    exact (change_ends puts_clear small represents i).2 (before clean.1 madeBefore)
  | applyAnd v operand =>
    obtain ⟨w,made1,represents⟩ := stands_of_clean positive small clean.1
    obtain ⟨w',made2,represents'⟩ := stands_of_clean positive small clean.2.1
    refine packed clean.2.2 ?_ made
    rw [vector,made1,made2]
    exact (apply_ends bitwise_and small represents represents').2
  | applyOr v operand =>
    obtain ⟨w,made1,represents⟩ := stands_of_clean positive small clean.1
    obtain ⟨w',made2,represents'⟩ := stands_of_clean positive small clean.2.1
    refine packed clean.2.2 ?_ made
    rw [vector,made1,made2]
    exact (apply_ends bitwise_or small represents represents').2
  | applyReset v operand =>
    obtain ⟨w,made1,represents⟩ := stands_of_clean positive small clean.1
    obtain ⟨w',made2,represents'⟩ := stands_of_clean positive small clean.2.1
    refine packed clean.2.2 ?_ made
    rw [vector,made1,made2]
    exact (apply_ends bitwise_reset small represents represents').2
  | applyNot v =>
    obtain ⟨w,madeBefore,represents⟩ := stands_of_clean positive small clean.1
    refine packed clean.2 ?_ made
    rw [vector,madeBefore]
    exact (doNot_ends small represents).2

theorem shortest_of_clean (positive : 0 < n) (small : n < 4638219) {b : Build n} (clean : b.All Clean) :
    ∃ v, b.vector = some v ∧ Shortest v b.plain := by
  obtain ⟨v,made,represents⟩ := stands_of_clean positive small clean
  exact ⟨v,made,represents,tight_of_clean positive small clean made⟩

/-- Two vectors of clean operations are equal exactly when their bits are. -/
theorem equals_of_clean (positive : 0 < n) (small : n < 4638219) (b b' : Build n) (clean : b.All Clean)
    (clean' : b'.All Clean) :
    ∃ v vec, b.vector = some v ∧ b'.vector = some vec ∧ (v.equals vec = true ↔ b.plain = b'.plain) := by
  obtain ⟨v,made,shortest⟩ := shortest_of_clean positive small clean
  obtain ⟨vec,made',shortest'⟩ := shortest_of_clean positive small clean'
  exact ⟨v,vec,made,made',shortest.equals_iff small shortest'⟩

structure Answers (v vec : WAHVector) (bits bits' : Fin n → Bool) : Prop where
  isEmpty : v.isEmpty = some (decide (∀ i, bits i = false))
  isFull : v.isFull = some (decide (∀ i, bits i = true))
  countOnes : v.countOnes = some ((List.finRange n).countP bits : Nat)
  includes : v.includes vec = some (decide (∀ i, bits' i = true → bits i = true))

/-- Clean operations: all the answers are right when the vector has more than one group
    or its bits are equal, and only then. -/
theorem answers_iff (positive : 0 < n) (small : n < 4638219) (b b' : Build n) (clean : b.All Clean)
    (clean' : b'.All Clean) :
    ∃ v vec, b.vector = some v ∧ b'.vector = some vec ∧
      (Answers v vec b.plain b'.plain ↔ 31 < n ∨ ¬ Mixes b.plain) := by
  obtain ⟨v,made,shortest⟩ := shortest_of_clean positive small clean
  obtain ⟨vec,made',shortest'⟩ := shortest_of_clean positive small clean'
  have empty := shortest.isEmpty_iff positive small
  have full := shortest.isFull_iff positive small
  refine ⟨v,vec,made,made',fun answers => ?_,fun kind => ⟨empty.mpr ?_,full.mpr ?_,
    shortest.toRepresents.countOnes_eq,shortest.toRepresents.includes_eq shortest'.toRepresents⟩⟩
  · by_contra one
    rw [not_or,not_not,Nat.not_lt] at one
    by_cases top : ∃ i : Fin n, i.val = 30 ∧ b.plain i = true
    · exact full.mp answers.isFull ⟨one.1,one.2,top⟩
    · exact empty.mp answers.isEmpty ⟨one.1,one.2,top⟩
  · rintro ⟨short,mixes,_⟩
    exact kind.elim (fun long => absurd short (Nat.not_le.mpr long)) fun same => same mixes
  · rintro ⟨short,mixes,_⟩
    exact kind.elim (fun long => absurd short (Nat.not_le.mpr long)) fun same => same mixes

theorem clean_of_short (short : n ≤ 31) (b : Build n) : b.All Clean := by
  have long {bits : Fin n → Bool} {all : Bool} (ends : EndsLike bits all) : False := by
    have partly := ends.partly
    obtain ⟨i,place,_⟩ := ends.top
    omega
  have clean (b : Build n) : b.Clean := (clean_iff b).mpr fun ⟨_,ends,_⟩ => long ends
  induction b with
  | init value => exact clean _
  | set v i before | clear v i before => exact ⟨before,clean _⟩
  | applyAnd v operand before before' | applyOr v operand before before' => exact ⟨before,before',clean _⟩
  | applyReset v operand before before' => exact ⟨before,before',clean _⟩
  | applyNot v before => exact ⟨before,clean _⟩

def touched : Build 8 := clear (set (init false) 3) 3

theorem equals_of_clean_touched : ∃ v vec, touched.vector = some v ∧ (init false : Build 8).vector = some vec ∧
    (v.equals vec = true ↔ touched.plain = (init false : Build 8).plain) :=
  equals_of_clean (by omega) (by omega) touched (init false) (clean_of_short (by omega) _) trivial

def oneBit : Build 8 := set (init false) 3

theorem answers_iff_oneBit : ∃ v vec, oneBit.vector = some v ∧ touched.vector = some vec ∧
    (Answers v vec oneBit.plain touched.plain ↔ 31 < 8 ∨ ¬ Mixes oneBit.plain) :=
  answers_iff (by omega) (by omega) oneBit touched (clean_of_short (by omega) _) (clean_of_short (by omega) _)

private theorem oneBit_words : oneBit.vector = some ⟨[8#32],8⟩ := by decide

/-- The vector is empty to the test. -/
theorem oneBit_isEmpty : ¬ ∀ (n : Nat) (b b' : Build n), 0 < n →
    ∃ v vec, b.vector = some v ∧ b'.vector = some vec ∧ Answers v vec b.plain b'.plain := by
  intro answers
  obtain ⟨v,vec,made,_,right⟩ := answers 8 oneBit touched (by omega)
  obtain rfl := Option.some.inj (oneBit_words.symm.trans made)
  have none : decide (∀ i, oneBit.plain i = false) = true := Option.some.inj (right.isEmpty.symm.trans rfl)
  exact absurd (of_decide_eq_true none 3) (by decide)

/-- The bits of `fillLast`, set in the other order: this vector keeps its last group. -/
def fillFirst : Build 32 := set (set (init false) (Fin.last 31)) (Fin.last 30).castSucc

private theorem fillLast_words : fillLast.vector = some ⟨[0x40000001#32],1⟩ := by decide
private theorem fillFirst_words : fillFirst.vector = some ⟨[0x40000000#32,0xc0000001#32],1⟩ := by decide

/-- The same bits with two codes. -/
theorem fillLast_differs : ¬ ∀ (n : Nat) (b b' : Build n),
    ∃ v vec, b.vector = some v ∧ b'.vector = some vec ∧ (v.equals vec = true ↔ b.plain = b'.plain) := by
  intro equal
  obtain ⟨v,vec,made,made',iff⟩ := equal 32 fillLast fillFirst
  obtain rfl := Option.some.inj (fillLast_words.symm.trans made)
  obtain rfl := Option.some.inj (fillFirst_words.symm.trans made')
  have same : fillLast.plain = fillFirst.plain := Function.update_comm (by decide) _ _ _
  exact absurd (iff.mpr same) (by decide)

end Build

/-! ### Runs with the operations that fill -/

/-- The vectors that the runs of all the operations reach, with the bits of the same run on
    a plain array: no step loses the last group, and the steps that fill fit. -/
inductive Reached : WAHVector → (Fin n → Bool) → Prop
  | make (value : Bool) : Reached (WAHVector.make n value) fun _ => value
  | set {v w : WAHVector} {bits : Fin n → Bool} (i : Fin n) : Reached v bits → v.set i = some w →
      ¬ Lost (Function.update bits i true) (full bits) → Reached w (Function.update bits i true)
  | clear {v w : WAHVector} {bits : Fin n → Bool} (i : Fin n) : Reached v bits → v.clear i = some w →
      ¬ Lost (Function.update bits i false) (full bits) → Reached w (Function.update bits i false)
  | applyAnd {v vec w : WAHVector} {bits bits' : Fin n → Bool} : Reached v bits → Reached vec bits' →
      v.doAnd vec = some w → ¬ Lost (fun i => bits i && bits' i) (full bits && full bits') →
        Reached w fun i => bits i && bits' i
  | applyOr {v vec w : WAHVector} {bits bits' : Fin n → Bool} : Reached v bits → Reached vec bits' →
      v.doOr vec = some w → ¬ Lost (fun i => bits i || bits' i) (full bits || full bits') →
        Reached w fun i => bits i || bits' i
  | applyReset {v vec w : WAHVector} {bits bits' : Fin n → Bool} : Reached v bits → Reached vec bits' →
      v.doReset vec = some w → ¬ Lost (fun i => bits i && !bits' i) (full bits && !full bits') →
        Reached w fun i => bits i && !bits' i
  | applyNot {v w : WAHVector} {bits : Fin n → Bool} : Reached v bits → v.doNot = some w →
      ¬ Lost (fun i => !bits i) (!full bits) → Reached w fun i => !bits i
  | fill {v w : WAHVector} {bits : Fin n → Bool} (value : Bool) : Reached v bits → v.fillAll value = some w →
      FillFits v bits value → Reached w fun _ => value

private theorem combine_empty (op : Word → Word → Word) (a c : Bool) :
    ∃ e, WAHVector.combine op (Iter.start [fill 0 a]) (Iter.start [fill 0 c]) [] = some [fill 0 e] := by
  have filled e : (Iter.start [fill 0 e]).isFill = true := by cases e <;> decide
  have empty e : (Iter.start [fill 0 e]).cnt = 0 := by cases e <;> decide
  have consumed e : (Iter.start [fill 0 e]).consume 0 = some (Iter.step 0 []) := by
    cases e <;> rfl
  refine ⟨op (Iter.start [fill 0 a]).val (Iter.start [fill 0 c]).val != 0,?_⟩
  rw [WAHVector.combine,dif_neg (by simp [Iter.ended,Iter.start,Iter.step]),
    dif_neg (by simp [Iter.ended,Iter.start,Iter.step]),if_pos (by simp [filled])]
  dsimp only
  split
  · rename_i _ _ first second
    rw [empty,empty,Nat.min_self,consumed] at first second
    obtain rfl := Option.some.inj first
    obtain rfl := Option.some.inj second
    have done : (Iter.step 0 []).ended = true := rfl
    rw [WAHVector.combine,dif_pos done,empty,empty]
    rfl
  · rename_i failed
    exact absurd (by rw [empty,empty,Nat.min_self,consumed]) (failed _ _ (by rw [empty,empty,Nat.min_self,consumed]))

namespace Reached

theorem represents (positive : 0 < n) (small : n < 4638219) {v : WAHVector} {bits : Fin n → Bool}
    (reached : Reached v bits) : Represents v bits := by
  have kept {w : WAHVector} {bits : Fin n → Bool} {pad : Bool} {result : Option WAHVector}
      (ends : Ends result bits pad) (made : result = some w) (clean : ¬ Lost bits pad) : Represents w bits := by
    obtain ⟨w',made',represents,-⟩ := ends
    obtain rfl := Option.some.inj (made'.symm.trans made)
    exact represents clean
  induction reached with
  | make value => exact represents_make positive small value
  | set i _ made clean before => exact kept (change_ends puts_set small before i).1 made clean
  | clear i _ made clean before => exact kept (change_ends puts_clear small before i).1 made clean
  | applyAnd _ _ made clean before before' => exact kept (apply_ends bitwise_and small before before').1 made clean
  | applyOr _ _ made clean before before' => exact kept (apply_ends bitwise_or small before before').1 made clean
  | applyReset _ _ made clean before before' => exact kept (apply_ends bitwise_reset small before before').1 made clean
  | applyNot _ made clean before => exact kept (doNot_ends small before).1 made clean
  | fill value _ made fits before => exact before.fill_represents positive small fits made

theorem empty {v : WAHVector} {bits : Fin 0 → Bool} (reached : Reached v bits) : ∃ a, v = ⟨[Wah.fill 0 a],0⟩ := by
  have applied (op : Word → Word → Word) {v vec w : WAHVector} (one : ∃ a, v = ⟨[Wah.fill 0 a],0⟩)
      (two : ∃ a, vec = ⟨[Wah.fill 0 a],0⟩) (made : WAHVector.apply op v vec = some w) : ∃ a, w = ⟨[Wah.fill 0 a],0⟩ := by
    obtain ⟨a,rfl⟩ := one
    obtain ⟨c,rfl⟩ := two
    obtain ⟨e,combined⟩ := combine_empty op a c
    refine ⟨e,?_⟩
    simp only [WAHVector.apply,combined,fix] at made
    simpa using made.symm
  induction reached with
  | make value => exact ⟨value,by cases value <;> decide⟩
  | set i | clear i => exact i.elim0
  | applyAnd _ _ made _ before before' | applyOr _ _ made _ before before' => exact applied _ before before' made
  | applyReset _ _ made _ before before' => exact applied _ before before' made
  | applyNot _ made _ before =>
    obtain ⟨a,rfl⟩ := before
    refine ⟨!a,Option.some.inj (made.symm.trans ?_)⟩
    cases a <;> decide
  | fill value _ made _ before =>
    obtain ⟨a,rfl⟩ := before
    refine ⟨value,Option.some.inj (made.symm.trans ?_)⟩
    cases value <;> rfl

/-- Filling a vector is right exactly when it has no bit, or when the fill stands for as many
    groups as the first word and the bits of the other words have the value. -/
theorem fills_iff (small : n < 4638219) {v : WAHVector} {bits : Fin n → Bool} (reached : Reached v bits) (value : Bool) :
    (∃ v', (if value then v.setAll else v.clearAll) = some v' ∧ v'.size = n ∧ ∀ i : Fin n, v'.bit i = some value) ↔
      FillFits v bits value := by
  have filled : (if value then v.setAll else v.clearAll) = v.fillAll value := by cases value <;> rfl
  rw [filled]
  by_cases none : n = 0
  · subst none
    obtain ⟨a,rfl⟩ := reached.empty
    refine iff_of_true ⟨⟨[Wah.fill 0 value],0⟩,?_,?_,fun i => i.elim0⟩ (.inl rfl)
    · cases value <;> rfl
    · cases value <;> decide
  · exact (reached.represents (by omega) small).fillAll_iff (by omega) small value

private theorem last_clean : ¬ Lost (Function.update (fun _ : Fin 32 => false) 31 true) (full fun _ : Fin 32 => false) := by
  rintro ⟨all,ends,-⟩
  obtain ⟨i,place,bit⟩ := ends.top
  have last := ends.last 31 (by decide)
  have before : i ≠ 31 := fun same => by rw [same] at place; exact absurd place (by decide)
  rw [Function.update_of_ne before] at bit
  rw [Function.update_self,← bit] at last
  cases last

/-- The last of 32 bits is set, and then the other ones by `set(void)`: two equal words. -/
theorem reached_filled : Reached ⟨[0xc0000001#32,0xc0000001#32],1⟩ fun _ : Fin 32 => true := by
  have last : (WAHVector.make 32 false).set (31 : Fin 32) = some ⟨[0x80000001#32,0xc0000001#32],1⟩ := by decide
  refine .fill true (.set 31 (.make false) last last_clean) (by decide) (.inr ⟨_,_,rfl,by decide,fun i from_ => ?_⟩)
  have counted : count (0x80000001#32) = 1 := by decide
  have same : i = 31 := Fin.ext (by have := i.isLt; rw [counted] at from_; show i.val = 31; omega)
  rw [same,Function.update_self]

theorem fills_iff_filled : (∃ v', (if true then WAHVector.setAll ⟨[0xc0000001#32,0xc0000001#32],1⟩
      else WAHVector.clearAll ⟨[0xc0000001#32,0xc0000001#32],1⟩) = some v' ∧ v'.size = 32 ∧
        ∀ i : Fin 32, v'.bit i = some true) ↔
    FillFits ⟨[0xc0000001#32,0xc0000001#32],1⟩ (fun _ : Fin 32 => true) true :=
  fills_iff (by decide) reached_filled true

/-- Filling a vector of two groups makes a vector of none. -/
theorem twoGroups_fills : ¬ ∀ (n : Nat) (v : WAHVector) (bits : Fin n → Bool), Reached v bits → ∃ v',
    v.setAll = some v' ∧ v'.size = n ∧ ∀ i : Fin n, v'.bit i = some true := by
  intro fills
  obtain ⟨v',filled,size,-⟩ := fills 62 _ _ (.make false)
  have words : WAHVector.make 62 false = ⟨[0x80000002#32],0⟩ := by decide
  have result : WAHVector.setAll ⟨[0x80000002#32],0⟩ = some ⟨[0xc0000000#32],0⟩ := by decide
  rw [words] at filled
  obtain rfl := Option.some.inj (result.symm.trans filled)
  exact absurd size (by decide)

end Reached

end Otawa.Wah
