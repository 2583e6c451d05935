import Otawa.WahLoops
import Mathlib.Logic.Function.Basic
import Mathlib.Data.List.Induction

/-!
Bit vectors against plain arrays of bits. A vector built by any operations has the bits
and the size of the array as long as no step makes `fix` lose the last group
(`right_iff_clean`).
-/
namespace Otawa.Wah

variable {n : Nat}

def full (bits : Fin n → Bool) : Bool := decide (∀ i : Fin n, 31 * (n / 31) ≤ i.val → bits i = true)

/-- The last, partial group is a run; the group before it is not, and its last bit is
    the bit of the run. -/
structure EndsLike (bits : Fin n → Bool) (all : Bool) : Prop where
  partly : n % 31 ≠ 0
  last : ∀ i : Fin n, 31 * (n / 31) ≤ i.val → bits i = all
  top : ∃ i : Fin n, i.val + 1 = 31 * (n / 31) ∧ bits i = all
  mixed : ∃ i : Fin n, i.val < 31 * (n / 31) ∧ 31 * (n / 31) ≤ i.val + 31 ∧ bits i ≠ all

structure Spells (gs : List Word) (bits : Fin n → Bool) : Prop where
  length : gs.length = (n + 30) / 31
  bits : ∀ (i : Fin n) g, gs[i.val / 31]? = some g → g.getLsbD (i.val % 31) = bits i
  lite : ∀ g ∈ gs, isFill g = false

/-- The bits of the last group beyond the end of the array. -/
def Padded (n : Nat) (gs : List Word) (pad : Bool) : Prop :=
  ∀ g, gs[n / 31]? = some g → ∀ j, n % 31 ≤ j → j < 31 → n % 31 ≠ 0 → g.getLsbD j = pad

/-- The vector stands for the array. Beyond its end the bits are set when the last
    group is full and clear otherwise. -/
structure Represents (v : WAHVector) (bits : Fin n → Bool) : Prop where
  rem : v.rem = (n % 31 : Nat)
  canonical : ∀ w ∈ v.words, Canonical w
  spells : Spells (groups v.words) bits
  padded : Padded n (groups v.words) (full bits)

theorem EndsLike.first {bits : Fin n → Bool} {all : Bool} (ends : EndsLike bits all) :
    ∃ i : Fin n, 31 * (n / 31) ≤ i.val ∧ bits i = all :=
  ⟨⟨31 * (n / 31),by have := ends.partly; omega⟩,Nat.le_refl _,ends.last _ (Nat.le_refl _)⟩

theorem lite_of_mem_groups {ws : List Word} {g : Word} (member : g ∈ groups ws) : isFill g = false := by
  obtain ⟨w,_,expanded⟩ := List.mem_flatMap.mp member
  obtain ⟨_,rfl⟩ := List.mem_replicate.mp expanded
  exact isFill_value w

theorem eq_allOf {g : Word} (lite : isFill g = false) {all : Bool} (equal : ∀ j < 31, g.getLsbD j = all) :
    g = allOf all := by
  apply BitVec.eq_of_getLsbD_eq
  intro j inside
  by_cases low : j < 31
  · rw [equal j low,getLsbD_allOf all low]
  · obtain rfl : j = 31 := by omega
    rw [isFill_eq_getLsbD] at lite
    rw [lite]
    cases all <;> rfl

theorem full_eq_true {bits : Fin n → Bool} :
    full bits = true ↔ ∀ i : Fin n, 31 * (n / 31) ≤ i.val → bits i = true := decide_eq_true_iff

/-! ### The end of an operation -/

section Finish
variable {b : Builder} {gs : List Word} {bits : Fin n → Bool} {pad : Bool}

theorem Spells.split (spells : Spells gs bits) (partly : n % 31 ≠ 0) :
    ∃ whole g, gs = whole ++ [g] ∧ whole.length = n / 31 := by
  have length := spells.length
  cases gs using List.reverseRecOn with
  | nil => simp at length; omega
  | append_singleton whole g =>
    refine ⟨whole,g,rfl,?_⟩
    simp at length
    omega

variable {whole : List Word} {g : Word}

theorem Spells.last_iff (spells : Spells (whole ++ [g]) bits) (length : whole.length = n / 31) (all : Bool) :
    (∀ i < n % 31, g.getLsbD i = all) ↔ ∀ i : Fin n, 31 * (n / 31) ≤ i.val → bits i = all := by
  have read (i : Fin n) (inside : 31 * (n / 31) ≤ i.val) : g.getLsbD (i.val % 31) = bits i := by
    have below := i.isLt
    refine spells.bits i g ?_
    rw [show i.val / 31 = whole.length by omega]
    simp
  constructor
  · intro equal i inside
    have below := i.isLt
    rw [← read i inside]
    exact equal _ (by omega)
  · intro equal i inside
    have bound : 31 * (n / 31) + i < n := by omega
    rw [← equal ⟨31 * (n / 31) + i,bound⟩ (by simp),← read ⟨31 * (n / 31) + i,bound⟩ (by simp)]
    congr 1
    simp
    omega

theorem Spells.misread_iff (spells : Spells (whole ++ [g]) bits) (length : whole.length = n / 31) (all : Bool) :
    Misread whole all ↔ (∃ i : Fin n, i.val + 1 = 31 * (n / 31) ∧ bits i = all) ∧
      ∃ i : Fin n, i.val < 31 * (n / 31) ∧ 31 * (n / 31) ≤ i.val + 31 ∧ bits i ≠ all := by
  cases whole using List.reverseRecOn with
  | nil =>
    simp at length
    constructor
    · rintro ⟨_,none,_⟩; cases none
    · rintro ⟨⟨i,place,_⟩,_⟩; omega
  | append_singleton before p =>
    rw [List.length_append,List.length_singleton] at length
    have read (i : Fin n) (above : 31 * (n / 31) ≤ i.val + 31) (below : i.val < 31 * (n / 31)) :
        p.getLsbD (i.val % 31) = bits i := by
      refine spells.bits i p ?_
      rw [show i.val / 31 = before.length by omega]
      simp
    have lite : isFill p = false := spells.lite p (by simp)
    constructor
    · rintro ⟨p',last,mixed,top⟩
      obtain rfl : p = p' := by simpa using last
      refine ⟨⟨⟨31 * (n / 31) - 1,by omega⟩,by simp; omega,?_⟩,?_⟩
      · rw [← read _ (by simp; omega) (by simp; omega),← top]
        congr 1
        simp
        omega
      · by_contra none
        have equal : ∀ j < 31, p.getLsbD j = all := by
          intro j inside
          by_contra other
          refine none ⟨⟨31 * (n / 31) - 31 + j,by omega⟩,by simp; omega,by simp; omega,?_⟩
          rw [← read _ (by simp; omega) (by simp; omega),show (31 * (n / 31) - 31 + j) % 31 = j by omega]
          exact other
        exact allOf_not_mixed all (eq_allOf lite equal ▸ mixed)
    · rintro ⟨⟨i,place,top⟩,⟨k,below,above,other⟩⟩
      have topBit : p.getLsbD 30 = all := by
        rw [← top,← read i (by omega) (by omega)]
        congr 1
        omega
      have otherBit : p.getLsbD (k.val % 31) ≠ all := by rwa [read k above below]
      refine ⟨p,by simp,⟨?_,?_⟩,topBit⟩
      · rintro rfl
        rw [getLsbD_ALL_ZEROES] at topBit otherBit
        exact otherBit topBit
      · rintro rfl
        rw [getLsbD_ALL_ONES,decide_eq_true (by omega)] at topBit otherBit
        exact otherBit topBit

/-- The last group is lost when it is a run in the array and not with the bits beyond. -/
def Lost (bits : Fin n → Bool) (pad : Bool) : Prop := ∃ all, EndsLike bits all ∧ pad ≠ all

/-- The last group of a builder that `fix` would lose. -/
theorem lost_iff (spells : Spells (whole ++ [g]) bits) (length : whole.length = n / 31) (partly : n % 31 ≠ 0)
    (padded : Padded n (whole ++ [g]) pad) (all : Bool) :
    g ≠ allOf all ∧ closed (n % 31) g = allOf all ∧ Misread whole all ↔ EndsLike bits all ∧ pad ≠ all := by
  have beyond : ∀ j, n % 31 ≤ j → j < 31 → g.getLsbD j = pad := fun j above below =>
    padded g (by simp [← length]) j above below partly
  have run := closed_eq_allOf (r := n % 31) (by omega) (by omega) g all
  rw [spells.last_iff length all] at run
  rw [run,spells.misread_iff length all]
  constructor
  · rintro ⟨unlike,last,top,mixed⟩
    refine ⟨⟨partly,last,top,mixed⟩,?_⟩
    rintro rfl
    refine unlike (eq_allOf (spells.lite g (by simp)) fun j inside => ?_)
    by_cases low : j < n % 31
    · exact (spells.last_iff length pad).mpr last j low
    · exact beyond j (by omega) inside
  · rintro ⟨ends,differ⟩
    refine ⟨?_,ends.last,ends.top,ends.mixed⟩
    rintro rfl
    exact differ ((beyond 30 (by omega) (by omega)).symm.trans (getLsbD_allOf all (by omega)))

theorem fix_represents (codes : Codes b gs) (spells : Spells gs bits) (padded : Padded n gs pad)
    (small : n < 2^30) (kept : ¬ Lost bits pad) :
    ∃ ws, fix b (n % 31 : Nat) = some ws ∧ Represents ⟨ws,(n % 31 : Nat)⟩ bits ∧ (Tight b → Tight ws) := by
  by_cases partly : n % 31 = 0
  · refine ⟨b.reverse,by rw [partly]; exact fix_whole b,⟨rfl,
      fun w member => codes.canonical w (List.mem_reverse.mp member),?_,?_⟩,tight_reverse.mpr⟩
    · show Spells (groups b.reverse) bits
      rwa [codes.coded]
    · intro g _ j _ _ other
      exact absurd partly other
  · obtain ⟨whole,g,rfl,length⟩ := spells.split partly
    have clear : ∀ all, g ≠ allOf all → closed (n % 31) g = allOf all → ¬ Misread whole all :=
      fun all unlike run misread =>
        kept ⟨all,(lost_iff spells length partly padded all).mp ⟨unlike,run,misread⟩⟩
    obtain ⟨ws,fixed,closes⟩ := fix_closes (r := n % 31) (by omega) (by omega) codes (by omega) clear
    have coded := closes.coded
    rw [List.reverse_reverse] at coded
    refine ⟨ws,fixed,⟨rfl,fun w member => closes.canonical w (List.mem_reverse.mpr member),?_,?_⟩,
      fun tight => fix_tight (by omega) (by omega) codes tight (by omega) clear fixed⟩
    · refine ⟨by rw [coded]; simpa using spells.length,fun i g' place => ?_,fun _ => lite_of_mem_groups⟩
      have below := i.isLt
      rw [coded] at place
      by_cases before : i.val / 31 < whole.length
      · rw [List.getElem?_append_left before] at place
        exact spells.bits i g' (by rwa [List.getElem?_append_left before])
      · have index : i.val / 31 = whole.length := by omega
        obtain rfl : closed (n % 31) g = g' := by simpa [index] using place
        rw [getLsbD_closed (by omega) g (by omega)]
        exact spells.bits i g (by simp [index])
    · intro g' last j above inside _
      obtain rfl : closed (n % 31) g = g' := by simpa [coded,← length] using last
      have ones := closed_eq_allOf (r := n % 31) (by omega) (by omega) g true
      rw [spells.last_iff length true] at ones
      by_cases whole' : ∀ i : Fin n, 31 * (n / 31) ≤ i.val → bits i = true
      · rw [ones.mpr whole',full,decide_eq_true whole']
        exact getLsbD_allOf true inside
      · rw [full,decide_eq_false whole']
        by_cases zero : closed (n % 31) g = ALL_ZEROES
        · rw [zero,getLsbD_ALL_ZEROES]
        · exact closed_mixed (by omega) ⟨zero,fun one => whole' (ones.mp one)⟩ above

theorem fix_lost (codes : Codes b gs) (spells : Spells gs bits) (padded : Padded n gs pad)
    (lost : Lost bits pad) :
    ∃ ws, fix b (n % 31 : Nat) = some ws ∧ WAHVector.size ⟨ws,(n % 31 : Nat)⟩ ≠ n := by
  obtain ⟨all,ends,differ⟩ := lost
  obtain ⟨whole,g,rfl,length⟩ := spells.split ends.partly
  obtain ⟨unlike,run,misread⟩ := (lost_iff spells length ends.partly padded all).mpr ⟨ends,differ⟩
  have partly := ends.partly
  obtain ⟨ws,fixed,shorter⟩ := fix_swallows (r := n % 31) (by omega) (by omega) codes unlike run misread
  refine ⟨ws,fixed,?_⟩
  rw [size_eq,if_pos (by simp; omega),shorter,length]
  simp
  omega

end Finish
/-! ### Operations -/

/-- A builder before `fix`: the bits of the array and the bits beyond. -/
def Ready (b : Builder) (bits : Fin n → Bool) (pad : Bool) : Prop :=
  ∃ gs, Codes b gs ∧ Spells gs bits ∧ Padded n gs pad

/-- `fix` of an operation that is ready, in both cases. -/
theorem Ready.fix {b : Builder} {bits : Fin n → Bool} {pad : Bool} (ready : Ready b bits pad) (small : n < 2^30) :
    ∃ ws, fix b (n % 31 : Nat) = some ws ∧
      (¬ Lost bits pad → Represents ⟨ws,(n % 31 : Nat)⟩ bits ∧ (Tight b → Tight ws)) ∧
      (Lost bits pad → WAHVector.size ⟨ws,(n % 31 : Nat)⟩ ≠ n) := by
  obtain ⟨gs,codes,spells,padded⟩ := ready
  by_cases lost : Lost bits pad
  · obtain ⟨ws,fixed,short⟩ := fix_lost codes spells padded lost
    exact ⟨ws,fixed,fun kept => absurd lost kept,fun _ => short⟩
  · obtain ⟨ws,fixed,represents⟩ := fix_represents codes spells padded small lost
    exact ⟨ws,fixed,fun _ => represents,fun other => absurd other lost⟩

section Represents
variable {v v1 v2 : WAHVector} {bits bits1 bits2 : Fin n → Bool}

theorem Represents.groupsLength (represents : Represents v bits) : (groups v.words).length = (n + 30) / 31 :=
  represents.spells.length

theorem Represents.size (represents : Represents v bits) : v.size = n := by
  rw [size_eq,represents.rem,represents.groupsLength]
  split <;> omega

theorem Represents.bit (represents : Represents v bits) (small : n < 4638219) (i : Fin n) :
    v.bit i = some (bits i) := by
  have below := i.isLt
  have place : i.val / 31 < (groups v.words).length := by rw [represents.groupsLength]; omega
  have read : WAHVector.bitFrom i.val (31 * 0) v.words = _ := bitFrom_eq (by omega) (by omega)
  rw [Nat.sub_zero,List.getElem?_eq_getElem place,Option.map_some] at read
  rw [WAHVector.bit,show 0 = 31 * 0 from rfl,read,
    represents.spells.bits i _ (List.getElem?_eq_getElem place)]

theorem make_words (small : n < 4638219) (init : Bool) :
    (WAHVector.make n init).words = [fill ((n + 30) / 31 : Nat) init] := by
  have length : (div n : Int) + (if mod n ≠ 0 then 1 else 0) = ((n + 30) / 31 : Nat) := by
    rw [div_eq small,mod_eq small]
    split <;> omega
  rw [WAHVector.make,length]

theorem full_const (partly : n % 31 ≠ 0) (value : Bool) : full (fun _ : Fin n => value) = value := by
  cases value with
  | true => simp [full]
  | false =>
    rw [full,decide_eq_false_iff_not]
    intro equal
    exact Bool.false_ne_true (equal ⟨31 * (n / 31),by omega⟩ (by simp))

theorem represents_make (positive : 0 < n) (small : n < 4638219) (init : Bool) :
    Represents (WAHVector.make n init) fun _ : Fin n => init := by
  have rem : (WAHVector.make n init).rem = (n % 31 : Nat) := mod_eq small
  have short : (n + 30) / 31 < 2^30 := by omega
  have words := make_words small init
  have all : groups (WAHVector.make n init).words = List.replicate ((n + 30) / 31) (allOf init) := by
    rw [words,groups_cons,groups_nil,List.append_nil,expand_fill short]
  refine ⟨rem,?_,⟨?_,?_,fun _ => lite_of_mem_groups⟩,?_⟩
  · intro w member
    rw [words,List.mem_singleton] at member
    exact member ▸ canonical_fill (by omega) short init
  · rw [all,List.length_replicate]
  · intro i g place
    rw [all] at place
    obtain ⟨_,rfl⟩ := List.mem_replicate.mp (List.mem_of_getElem? place)
    exact getLsbD_allOf init (by omega)
  · intro g last j _ inside partly
    rw [all] at last
    obtain ⟨_,rfl⟩ := List.mem_replicate.mp (List.mem_of_getElem? last)
    rw [getLsbD_allOf init inside,full_const partly]

/-- `put` writes the bit `done`. -/
structure Puts (put : Word → Word → Word) (done : Bool) : Prop where
  lite : ∀ g m, isFill g = false → isFill m = false → isFill (put g m) = false
  bit : ∀ g index j, j < 31 → (put g (one index)).getLsbD j = if j = index % 31 then done else g.getLsbD j

theorem change_ready {put : Word → Word → Word} {done : Bool} (puts : Puts put done) (small : n < 4638219)
    (represents : Represents v bits) (i : Fin n) :
    ∃ b, WAHVector.changeFrom put done i [] 0 v.words = some b ∧
      Ready b (Function.update bits i done) (full bits) ∧ (Tight v.words → Tight b) := by
  have below := i.isLt
  have length := represents.groupsLength
  have stay index : put (allOf done) (one index) = allOf done := by
    refine eq_allOf (puts.lite _ _ ?_ ?_) fun j inside => ?_
    · cases done <;> decide
    · exact isFill_one index
    · rw [puts.bit _ _ _ inside,getLsbD_allOf done inside,ite_self]
  have mix index : Mixed (put (allOf (!done)) (one index)) := by
    obtain ⟨other,inside,apart⟩ : ∃ j, j < 31 ∧ j ≠ index % 31 :=
      ⟨if index % 31 = 0 then 1 else 0,by split <;> omega,by split <;> omega⟩
    have changed := puts.bit (allOf (!done)) index (index % 31) (by omega)
    have kept := puts.bit (allOf (!done)) index other inside
    rw [if_pos rfl] at changed
    rw [if_neg apart,getLsbD_allOf _ inside] at kept
    by_contra run
    obtain ⟨all,same⟩ : ∃ all, put (allOf (!done)) (one index) = allOf all := by
      rw [Mixed,not_and_or,not_not,not_not] at run
      rcases run with zero | whole
      · exact ⟨false,zero⟩
      · exact ⟨true,whole⟩
    rw [same,getLsbD_allOf _ (by omega)] at changed kept
    rw [changed] at kept
    cases done <;> cases kept
  obtain ⟨b,changed,codes,tight⟩ := changeFrom_codes puts.lite stay mix (show i.val < 4638219 by omega) represents.canonical
    codes_nil (by simp) (by simp; omega) (by simp; omega)
  rw [List.nil_append] at codes
  have read {k : Nat} {g : Word} (place : ((groups v.words).modify (i.val / 31) fun g => put g (one i))[k]? = some g) :
      ∃ old, (groups v.words)[k]? = some old ∧ g = if i.val / 31 = k then put old (one i) else old := by
    rw [List.getElem?_modify,Option.map_eq_map,Option.map_eq_some_iff] at place
    obtain ⟨old,found,rfl⟩ := place
    exact ⟨old,found,rfl⟩
  refine ⟨b,changed,⟨_,codes,⟨by simpa using length,?_,?_⟩,?_⟩,
    fun before => tight (by simpa using tight_reverse.mpr before)⟩
  · intro k g place
    obtain ⟨old,found,rfl⟩ := read place
    have before := represents.spells.bits k old found
    have inside : k.val % 31 < 31 := by omega
    by_cases same : k = i
    · subst same
      rw [if_pos rfl,puts.bit _ _ _ inside,if_pos rfl,Function.update_self]
    · have apart : ¬ (i.val / 31 = k.val / 31 ∧ k.val % 31 = i.val % 31) := by
        rintro ⟨group,bit⟩
        exact same (Fin.ext (by omega))
      rw [Function.update_of_ne same,← before]
      split
      · rename_i group
        rw [puts.bit _ _ _ inside,if_neg fun bit => apart ⟨group,bit⟩]
      · rfl
  · intro g member
    obtain ⟨k,place⟩ := List.getElem?_of_mem member
    obtain ⟨old,found,rfl⟩ := read place
    have lite : isFill old = false := lite_of_mem_groups (List.mem_of_getElem? found)
    split
    · exact puts.lite _ _ lite (isFill_one i)
    · exact lite
  · intro g last j above inside partly
    obtain ⟨old,found,rfl⟩ := read last
    have before := represents.padded old found j above inside partly
    split
    · rw [puts.bit _ _ _ inside,if_neg (by omega)]; exact before
    · exact before

/-- `op` works bit by bit. -/
structure Bitwise (op : Word → Word → Word) (f : Bool → Bool → Bool) : Prop where
  lite : ∀ g h, isFill g = false → isFill h = false → isFill (op g h) = false
  bit : ∀ g h j, j < 31 → (op g h).getLsbD j = f (g.getLsbD j) (h.getLsbD j)

theorem combine_ready {op : Word → Word → Word} {f : Bool → Bool → Bool} (bitwise : Bitwise op f) (small : n < 2^30)
    (represents1 : Represents v1 bits1) (represents2 : Represents v2 bits2) :
    ∃ b, WAHVector.combine op (Iter.start v1.words) (Iter.start v2.words) [] = some b ∧
      Ready b (fun i => f (bits1 i) (bits2 i)) (f (full bits1) (full bits2)) ∧ Tight b := by
  have length1 := represents1.groupsLength
  have length2 := represents2.groupsLength
  have run a c : ∃ e, op (allOf a) (allOf c) = allOf e := by
    have lite d : isFill (allOf d) = false := by cases d <;> decide
    refine ⟨f a c,eq_allOf (bitwise.lite _ _ (lite a) (lite c)) fun j inside => ?_⟩
    rw [bitwise.bit _ _ _ inside,getLsbD_allOf a inside,getLsbD_allOf c inside]
  obtain ⟨b,combined,codes,tight⟩ := combine_packed bitwise.lite run (walks_step represents1.canonical 0)
    (walks_step represents2.canonical 0) (length1.trans length2.symm) packed_nil (by simp; omega)
  rw [List.nil_append] at codes
  have read {k : Nat} {g : Word} (place : (List.zipWith op (groups v1.words) (groups v2.words))[k]? = some g) :
      ∃ g1 g2, (groups v1.words)[k]? = some g1 ∧ (groups v2.words)[k]? = some g2 ∧ g = op g1 g2 := by
    rw [List.getElem?_zipWith_eq_some] at place
    obtain ⟨g1,g2,found1,found2,rfl⟩ := place
    exact ⟨g1,g2,found1,found2,rfl⟩
  refine ⟨b,combined,⟨_,codes,⟨by simp [length1,length2],?_,?_⟩,?_⟩,tight⟩
  · intro k g place
    obtain ⟨g1,g2,found1,found2,rfl⟩ := read place
    rw [bitwise.bit _ _ _ (by omega),represents1.spells.bits k g1 found1,represents2.spells.bits k g2 found2]
  · intro g member
    obtain ⟨k,place⟩ := List.getElem?_of_mem member
    obtain ⟨g1,g2,found1,found2,rfl⟩ := read place
    exact bitwise.lite _ _ (lite_of_mem_groups (List.mem_of_getElem? found1))
      (lite_of_mem_groups (List.mem_of_getElem? found2))
  · intro g last j above inside partly
    obtain ⟨g1,g2,found1,found2,rfl⟩ := read last
    rw [bitwise.bit _ _ _ inside,represents1.padded g1 found1 j above inside partly,
      represents2.padded g2 found2 j above inside partly]

theorem notFrom_ready (small : n < 2^30) (represents : Represents v bits) :
    Ready (WAHVector.notFrom [] 0 v.words) (fun i => !bits i) (!full bits) ∧
      Tight (WAHVector.notFrom [] 0 v.words) := by
  have length := represents.groupsLength
  obtain ⟨codes,tight⟩ := notFrom_packed represents.canonical packed_nil 0 (by simp; omega)
  rw [List.nil_append] at codes
  have bit (g : Word) {j : Nat} (inside : j < 31) : (~~~g &&& ALL_ONES).getLsbD j = !g.getLsbD j := by
    rw [BitVec.getLsbD_and,BitVec.getLsbD_not,getLsbD_ALL_ONES]
    simp [inside]
    omega
  have read {k : Nat} {g : Word} (place : ((groups v.words).map fun g => ~~~g &&& ALL_ONES)[k]? = some g) :
      ∃ old, (groups v.words)[k]? = some old ∧ g = ~~~old &&& ALL_ONES := by
    rw [List.getElem?_map,Option.map_eq_some_iff] at place
    obtain ⟨old,found,rfl⟩ := place
    exact ⟨old,found,rfl⟩
  refine ⟨⟨_,codes,⟨by simp [length],?_,?_⟩,?_⟩,tight⟩
  · intro k g place
    obtain ⟨old,found,rfl⟩ := read place
    rw [bit old (by omega),represents.spells.bits k old found]
  · intro g member
    obtain ⟨k,place⟩ := List.getElem?_of_mem member
    obtain ⟨old,_,rfl⟩ := read place
    rw [isFill_eq_getLsbD,BitVec.getLsbD_and,getLsbD_ALL_ONES]
    simp
  · intro g last j above inside partly
    obtain ⟨old,found,rfl⟩ := read last
    rw [bit old inside,represents.padded old found j above inside partly]

/-- How an operation ends, by the bits of the array and the bits beyond. -/
def Ends (result : Option WAHVector) (bits : Fin n → Bool) (pad : Bool) : Prop :=
  ∃ v, result = some v ∧ (¬ Lost bits pad → Represents v bits) ∧ (Lost bits pad → v.size ≠ n)

/-- The words of the result have no two runs of the same kind side by side. -/
def Packs (result : Option WAHVector) (bits : Fin n → Bool) (pad : Bool) : Prop :=
  ∀ v, result = some v → ¬ Lost bits pad → Tight v.words

theorem Ready.ends {b : Builder} {pad : Bool} {result : Option WAHVector} (ready : Ready b bits pad) (small : n < 4638219)
    (made : ∀ ws, Wah.fix b (n % 31 : Nat) = some ws → result = some ⟨ws,(n % 31 : Nat)⟩) :
    Ends result bits pad ∧ (Tight b → Packs result bits pad) := by
  obtain ⟨ws,fixed,kept,lost⟩ := ready.fix (by omega)
  refine ⟨⟨_,made ws fixed,fun clean => (kept clean).1,lost⟩,fun tight w same clean => ?_⟩
  obtain rfl := Option.some.inj ((made ws fixed).symm.trans same)
  exact (kept clean).2 tight

theorem change_ends {put : Word → Word → Word} {done : Bool} (puts : Puts put done) (small : n < 4638219)
    (represents : Represents v bits) (i : Fin n) :
    Ends (WAHVector.change put done v i) (Function.update bits i done) (full bits) ∧
      (Tight v.words → Packs (WAHVector.change put done v i) (Function.update bits i done) (full bits)) := by
  obtain ⟨b,changed,ready,tight⟩ := change_ready puts small represents i
  have made ws (fixed : fix b (n % 31 : Nat) = some ws) :
      WAHVector.change put done v i = some ⟨ws,(n % 31 : Nat)⟩ := by
    rw [← represents.rem] at fixed ⊢
    simp [WAHVector.change,changed,fixed]
  obtain ⟨ends,packs⟩ := ready.ends small made
  exact ⟨ends,fun before => packs (tight before)⟩

theorem apply_ends {op : Word → Word → Word} {f : Bool → Bool → Bool} (bitwise : Bitwise op f) (small : n < 4638219)
    (represents1 : Represents v1 bits1) (represents2 : Represents v2 bits2) :
    Ends (WAHVector.apply op v1 v2) (fun i => f (bits1 i) (bits2 i)) (f (full bits1) (full bits2)) ∧
      Packs (WAHVector.apply op v1 v2) (fun i => f (bits1 i) (bits2 i)) (f (full bits1) (full bits2)) := by
  obtain ⟨b,combined,ready,tight⟩ := combine_ready bitwise (by omega) represents1 represents2
  have made ws (fixed : fix b (n % 31 : Nat) = some ws) :
      WAHVector.apply op v1 v2 = some ⟨ws,(n % 31 : Nat)⟩ := by
    rw [← represents1.rem] at fixed ⊢
    simp [WAHVector.apply,combined,fixed]
  obtain ⟨ends,packs⟩ := ready.ends small made
  exact ⟨ends,packs tight⟩

theorem doNot_ends (small : n < 4638219) (represents : Represents v bits) :
    Ends v.doNot (fun i => !bits i) (!full bits) ∧ Packs v.doNot (fun i => !bits i) (!full bits) := by
  obtain ⟨ready,tight⟩ := notFrom_ready (by omega) represents
  have made ws (fixed : fix (WAHVector.notFrom [] 0 v.words) (n % 31 : Nat) = some ws) :
      v.doNot = some ⟨ws,(n % 31 : Nat)⟩ := by
    rw [← represents.rem] at fixed ⊢
    simp [WAHVector.doNot,fixed]
  obtain ⟨ends,packs⟩ := ready.ends small made
  exact ⟨ends,packs tight⟩

end Represents

theorem puts_set : Puts (fun w one => w ||| one) true where
  lite g m liteG liteM := by
    rw [isFill_eq_getLsbD] at *
    rw [BitVec.getLsbD_or,liteG,liteM]; rfl
  bit g index j inside := by
    rw [BitVec.getLsbD_or,getLsbD_one]
    by_cases same : j = index % 31 <;> simp [same]

theorem puts_clear : Puts (fun w one => w &&& ~~~one) false where
  lite g m liteG _ := by
    rw [isFill_eq_getLsbD] at *
    rw [BitVec.getLsbD_and,liteG]; rfl
  bit g index j inside := by
    rw [BitVec.getLsbD_and,BitVec.getLsbD_not,getLsbD_one,decide_eq_true (by omega)]
    by_cases same : j = index % 31 <;> simp [same]

theorem bitwise_and : Bitwise (fun w1 w2 => w1 &&& w2) (fun a c => a && c) where
  lite g h liteG _ := by
    rw [isFill_eq_getLsbD] at *
    rw [BitVec.getLsbD_and,liteG]; rfl
  bit g h j _ := BitVec.getLsbD_and

theorem bitwise_or : Bitwise (fun w1 w2 => w1 ||| w2) (fun a c => a || c) where
  lite g h liteG liteH := by
    rw [isFill_eq_getLsbD] at *
    rw [BitVec.getLsbD_or,liteG,liteH]; rfl
  bit g h j _ := BitVec.getLsbD_or

theorem bitwise_reset : Bitwise (fun w1 w2 => w1 &&& ~~~w2) (fun a c => a && !c) where
  lite g h liteG _ := by
    rw [isFill_eq_getLsbD] at *
    rw [BitVec.getLsbD_and,liteG]; rfl
  bit g h j inside := by
    rw [BitVec.getLsbD_and,BitVec.getLsbD_not,decide_eq_true (by omega),Bool.true_and]

/-! ### Sequences of operations -/

/-- How a vector of n bits is built; the operands are built in the same way. -/
inductive Build (n : Nat)
  | init (value : Bool)
  | set (v : Build n) (i : Fin n)
  | clear (v : Build n) (i : Fin n)
  | applyAnd (v operand : Build n)
  | applyOr (v operand : Build n)
  | applyReset (v operand : Build n)
  | applyNot (v : Build n)

namespace Build

def vector : Build n → Option WAHVector
  | init value => some (WAHVector.make n value)
  | set v i => v.vector.bind fun v => v.set i
  | clear v i => v.vector.bind fun v => v.clear i
  | applyAnd v operand => v.vector.bind fun v => operand.vector.bind fun operand => v.doAnd operand
  | applyOr v operand => v.vector.bind fun v => operand.vector.bind fun operand => v.doOr operand
  | applyReset v operand => v.vector.bind fun v => operand.vector.bind fun operand => v.doReset operand
  | applyNot v => v.vector.bind fun v => v.doNot

def plain : Build n → Fin n → Bool
  | init value => fun _ => value
  | set v i => Function.update v.plain i true
  | clear v i => Function.update v.plain i false
  | applyAnd v operand => fun i => v.plain i && operand.plain i
  | applyOr v operand => fun i => v.plain i || operand.plain i
  | applyReset v operand => fun i => v.plain i && !operand.plain i
  | applyNot v => fun i => !v.plain i

/-- A property of all the vectors made on the way, operands included. -/
def All (p : Build n → Prop) : Build n → Prop
  | init value => p (init value)
  | set v i => v.All p ∧ p (set v i)
  | clear v i => v.All p ∧ p (clear v i)
  | applyAnd v operand => v.All p ∧ operand.All p ∧ p (applyAnd v operand)
  | applyOr v operand => v.All p ∧ operand.All p ∧ p (applyOr v operand)
  | applyReset v operand => v.All p ∧ operand.All p ∧ p (applyReset v operand)
  | applyNot v => v.All p ∧ p (applyNot v)

def Right (b : Build n) : Prop :=
  ∃ v, b.vector = some v ∧ v.size = n ∧ ∀ i : Fin n, v.bit i = some (b.plain i)

/-- The last operation is not one of these: a `set` or an or that fills the last group,
    a `clear` of a full last group (of one bit) that empties it; with a group before it
    that is no run and ends with the same bit. -/
def Clean : Build n → Prop
  | set v i => ¬ (EndsLike (Function.update v.plain i true) true ∧ full v.plain = false)
  | clear v i => ¬ (EndsLike (Function.update v.plain i false) false ∧ full v.plain = true)
  | applyOr v operand => ¬ (EndsLike (applyOr v operand).plain true ∧ full v.plain = false ∧ full operand.plain = false)
  | _ => True

/-- The bits beyond the end before `fix`. -/
def beyond : Build n → Bool
  | init value => value
  | set v _ => full v.plain
  | clear v _ => full v.plain
  | applyAnd v operand => full v.plain && full operand.plain
  | applyOr v operand => full v.plain || full operand.plain
  | applyReset v operand => full v.plain && !full operand.plain
  | applyNot v => !full v.plain

private theorem lost_iff_of {bits : Fin n → Bool} {pad : Bool} (all : Bool)
    (agree : EndsLike bits (!all) → pad = !all) : Lost bits pad ↔ EndsLike bits all ∧ pad = !all := by
  constructor
  · rintro ⟨other,ends,differ⟩
    by_cases same : other = all
    · subst same
      exact ⟨ends,Bool.eq_not_of_ne differ⟩
    · obtain rfl := Bool.eq_not_of_ne same
      exact absurd (agree ends) differ
  · rintro ⟨ends,rfl⟩
    exact ⟨all,ends,by simp⟩

private theorem not_lost_of {bits : Fin n → Bool} {pad : Bool} (agree : ∀ all, EndsLike bits all → pad = all) :
    ¬ Lost bits pad := by
  rintro ⟨all,ends,differ⟩
  exact differ (agree all ends)

theorem clean_iff (b : Build n) : b.Clean ↔ ¬ Lost b.plain b.beyond := by
  cases b with
  | init value =>
    refine iff_of_true trivial (not_lost_of fun all ends => ?_)
    obtain ⟨_,_,bit⟩ := ends.first
    exact bit
  | set v i =>
    refine not_congr (lost_iff_of true fun ends => ?_).symm
    obtain ⟨k,last,bit⟩ := ends.first
    refine Bool.eq_false_iff.mpr fun whole => ?_
    have before := full_eq_true.mp whole k last
    rw [Function.update_apply] at bit
    split at bit
    · cases bit
    · exact Bool.false_ne_true (bit.symm.trans before)
  | clear v i =>
    refine not_congr (lost_iff_of false fun ends => ?_).symm
    refine full_eq_true.mpr fun k last => ?_
    have bit := ends.last k last
    rw [Function.update_apply] at bit
    split at bit
    · cases bit
    · exact bit
  | applyAnd v operand =>
    refine iff_of_true trivial (not_lost_of fun all ends => ?_)
    cases all with
    | true =>
      have both k last := (Bool.and_eq_true ..).mp (ends.last k last)
      exact (Bool.and_eq_true ..).mpr
        ⟨full_eq_true.mpr fun k last => (both k last).1,full_eq_true.mpr fun k last => (both k last).2⟩
    | false =>
      obtain ⟨k,last,bit⟩ := ends.first
      refine Bool.eq_false_iff.mpr fun whole => ?_
      obtain ⟨whole1,whole2⟩ := (Bool.and_eq_true ..).mp whole
      simp [plain,full_eq_true.mp whole1 k last,full_eq_true.mp whole2 k last] at bit
  | applyOr v operand =>
    rw [Clean,← Bool.or_eq_false_iff]
    refine not_congr (lost_iff_of true fun ends => ?_).symm
    obtain ⟨k,last,bit⟩ := ends.first
    refine Bool.eq_false_iff.mpr fun whole => ?_
    rcases (Bool.or_eq_true ..).mp whole with whole | whole
    · simp [plain,full_eq_true.mp whole k last] at bit
    · simp [plain,full_eq_true.mp whole k last] at bit
  | applyReset v operand =>
    refine iff_of_true trivial (not_lost_of fun all ends => ?_)
    obtain ⟨k,last,bit⟩ := ends.first
    cases all with
    | true =>
      have both k last := (Bool.and_eq_true ..).mp (ends.last k last)
      have second : full operand.plain = false := by
        refine Bool.eq_false_iff.mpr fun whole => ?_
        have cleared := (both k last).2
        rw [full_eq_true.mp whole k last] at cleared
        cases cleared
      rw [beyond,second,full_eq_true.mpr fun k last => (both k last).1]; rfl
    | false =>
      refine Bool.eq_false_iff.mpr fun whole => ?_
      obtain ⟨whole1,partly2⟩ := (Bool.and_eq_true ..).mp whole
      have whole2 : full operand.plain = true := by
        refine full_eq_true.mpr fun k last => ?_
        have bit := ends.last k last
        simpa [plain,full_eq_true.mp whole1 k last] using bit
      rw [whole2] at partly2
      cases partly2
  | applyNot v =>
    refine iff_of_true trivial (not_lost_of fun all ends => ?_)
    obtain ⟨k,last,bit⟩ := ends.first
    cases all with
    | true =>
      have partly : full v.plain = false := by
        refine Bool.eq_false_iff.mpr fun whole => ?_
        simp [plain,full_eq_true.mp whole k last] at bit
      rw [beyond,partly]; rfl
    | false =>
      have whole : full v.plain = true :=
        full_eq_true.mpr fun k last => by simpa [plain] using ends.last k last
      rw [beyond,whole]; rfl

def Stands (b : Build n) : Prop := ∃ v, b.vector = some v ∧ Represents v b.plain

theorem right_of_stands {b : Build n} (small : n < 4638219) (stands : b.Stands) : b.Right := by
  obtain ⟨v,made,represents⟩ := stands
  exact ⟨v,made,represents.size,represents.bit small⟩

/-- What the induction keeps: clean steps make vectors that stand for their arrays,
    and vectors that are right on the way come from clean steps. -/
private def Outcome (b : Build n) : Prop :=
  (b.All Clean → b.Stands ∧ b.All Right) ∧ (b.All Right → b.All Clean)

private theorem ends_of {b : Build n} (ends : Ends b.vector b.plain b.beyond) :
    (b.Clean → b.Stands) ∧ (b.Right → b.Clean) := by
  obtain ⟨v,made,kept,lost⟩ := ends
  rw [clean_iff]
  refine ⟨fun clean => ⟨v,made,kept clean⟩,?_⟩
  rintro ⟨v',made',size,_⟩ isLost
  obtain rfl := Option.some.inj (made.symm.trans made')
  exact lost isLost size

private theorem unary {v b : Build n} (small : n < 4638219) (outcome : Outcome v)
    (ends : v.Stands → Ends b.vector b.plain b.beyond) :
    (v.All Clean ∧ b.Clean → b.Stands ∧ v.All Right ∧ b.Right) ∧
      (v.All Right ∧ b.Right → v.All Clean ∧ b.Clean) := by
  constructor
  · rintro ⟨cleanBefore,clean⟩
    obtain ⟨stands,right⟩ := outcome.1 cleanBefore
    have result := (ends_of (ends stands)).1 clean
    exact ⟨result,right,right_of_stands small result⟩
  · rintro ⟨rightBefore,right⟩
    have clean := outcome.2 rightBefore
    exact ⟨clean,(ends_of (ends (outcome.1 clean).1)).2 right⟩

private theorem binary {v operand b : Build n} (small : n < 4638219) (outcome : Outcome v)
    (outcome' : Outcome operand) (ends : v.Stands → operand.Stands → Ends b.vector b.plain b.beyond) :
    (v.All Clean ∧ operand.All Clean ∧ b.Clean → b.Stands ∧ v.All Right ∧ operand.All Right ∧ b.Right) ∧
      (v.All Right ∧ operand.All Right ∧ b.Right → v.All Clean ∧ operand.All Clean ∧ b.Clean) := by
  constructor
  · rintro ⟨cleanBefore,cleanOperand,clean⟩
    obtain ⟨stands,right⟩ := outcome.1 cleanBefore
    obtain ⟨standsOperand,rightOperand⟩ := outcome'.1 cleanOperand
    have result := (ends_of (ends stands standsOperand)).1 clean
    exact ⟨result,right,rightOperand,right_of_stands small result⟩
  · rintro ⟨rightBefore,rightOperand,right⟩
    have clean := outcome.2 rightBefore
    have cleanOperand := outcome'.2 rightOperand
    exact ⟨clean,cleanOperand,(ends_of (ends (outcome.1 clean).1 (outcome'.1 cleanOperand).1)).2 right⟩

private theorem change_of {put : Word → Word → Word} {done : Bool} (puts : Puts put done) (small : n < 4638219)
    {v : Build n} (i : Fin n) (stands : v.Stands) :
    Ends (v.vector.bind fun v => WAHVector.change put done v i) (Function.update v.plain i done) (full v.plain) := by
  obtain ⟨w,made,represents⟩ := stands
  rw [made]
  exact (change_ends puts small represents i).1

private theorem apply_of {op : Word → Word → Word} {f : Bool → Bool → Bool} (bitwise : Bitwise op f)
    (small : n < 4638219) {v operand : Build n} (stands : v.Stands) (stands' : operand.Stands) :
    Ends (v.vector.bind fun v => operand.vector.bind fun operand => WAHVector.apply op v operand)
      (fun i => f (v.plain i) (operand.plain i)) (f (full v.plain) (full operand.plain)) := by
  obtain ⟨w,made,represents⟩ := stands
  obtain ⟨w',made',represents'⟩ := stands'
  rw [made,made']
  exact (apply_ends bitwise small represents represents').1

private theorem outcome (positive : 0 < n) (small : n < 4638219) (b : Build n) : Outcome b := by
  induction b with
  | init value =>
    have stands : (init value : Build n).Stands := ⟨_,rfl,represents_make positive small value⟩
    exact ⟨fun _ => ⟨stands,right_of_stands small stands⟩,fun _ => trivial⟩
  | set v i before => exact unary small before (change_of puts_set small i)
  | clear v i before => exact unary small before (change_of puts_clear small i)
  | applyAnd v operand before operandBefore =>
    exact binary small before operandBefore (apply_of bitwise_and small)
  | applyOr v operand before operandBefore =>
    exact binary small before operandBefore (apply_of bitwise_or small)
  | applyReset v operand before operandBefore =>
    exact binary small before operandBefore (apply_of bitwise_reset small)
  | applyNot v before =>
    refine unary small before fun stands => ?_
    obtain ⟨w,made,represents⟩ := stands
    rw [vector,made]
    exact (doNot_ends small represents).1

theorem stands_of_clean (positive : 0 < n) (small : n < 4638219) {b : Build n} (clean : b.All Clean) : b.Stands :=
  ((outcome positive small b).1 clean).1

/-- All the vectors made on the way are right exactly when every operation is clean. -/
theorem right_iff_clean (positive : 0 < n) (small : n < 4638219) (b : Build n) : b.All Right ↔ b.All Clean :=
  ⟨(outcome positive small b).2,fun clean => ((outcome positive small b).1 clean).2⟩

/-- 32 bits: the last group has one bit, the group before it ends with a set bit. -/
def fillLast : Build 32 := set (set (init false) 30) 31

theorem right_iff_clean_fillLast : fillLast.All Right ↔ fillLast.All Clean :=
  right_iff_clean (by decide) (by decide) fillLast

/-- Setting bit 31 leaves one group: the vector has a single bit. -/
theorem fillLast_loses : ¬ ∀ (n : Nat) (b : Build n), 0 < n → b.Right := by
  intro right
  obtain ⟨v,made,size,_⟩ := right 32 fillLast (by decide)
  have result : fillLast.vector = some ⟨[0x40000001#32],1⟩ := by decide
  obtain rfl := Option.some.inj (result.symm.trans made)
  exact absurd size (by decide)

end Build
end Otawa.Wah
