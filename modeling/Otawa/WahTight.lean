import Otawa.WahGroups
import Mathlib.Data.List.Chain

namespace Otawa.Wah

def Alike (w v : Word) : Prop := isFill w = true ∧ isFill v = true ∧ isOnes w = isOnes v

def Tight (ws : List Word) : Prop := ws.IsChain fun w v => ¬ Alike w v

variable {b : Builder} {gs : List Word} {w : Word}

theorem Alike.symm {v : Word} (alike : Alike w v) : Alike v w := ⟨alike.2.1,alike.1,alike.2.2.symm⟩

theorem not_alike_lite {v : Word} (lite : isFill w = false) : ¬ Alike w v := by
  rintro ⟨filled,-⟩
  rw [lite] at filled
  cases filled

theorem tight_nil : Tight [] := List.isChain_nil
theorem tight_single (w : Word) : Tight [w] := List.isChain_singleton w

theorem tight_reverse {ws : List Word} : Tight ws.reverse ↔ Tight ws := by
  rw [Tight,List.isChain_reverse,Tight]
  exact List.IsChain.iff fun v u => not_congr ⟨Alike.symm,Alike.symm⟩

theorem tight_cons {ws : List Word} : Tight (w :: ws) ↔ (∀ v ∈ ws.head?, ¬ Alike w v) ∧ Tight ws := List.isChain_cons

theorem Tight.replace {v : Word} (tight : Tight (w :: b)) (filled : isFill v = isFill w) (kind : isOnes v = isOnes w) :
    Tight (v :: b) := by
  obtain ⟨apart,rest⟩ := tight_cons.mp tight
  refine tight_cons.mpr ⟨fun u head alike => apart u head ?_,rest⟩
  rwa [Alike,← filled,← kind]

theorem Tight.pushRaw (tight : Tight b) (apart : ∀ last ∈ b.head?, ¬ Alike last w) : Tight (pushRaw b w) :=
  tight_cons.mpr ⟨fun last head alike => apart last head alike.symm,tight⟩

theorem kind_ne {last : Word} (differ : ¬ w &&& (FILL ||| ONES) = last &&& (FILL ||| ONES)) : ¬ Alike last w := by
  rintro ⟨lastFilled,filled,kind⟩
  apply differ
  apply BitVec.eq_of_getLsbD_eq
  intro i _
  have mask : FILL ||| ONES = BitVec.twoPow 32 31 ||| BitVec.twoPow 32 30 := by decide
  rw [isFill_eq_getLsbD] at lastFilled filled
  rw [isOnes_eq_getLsbD,isOnes_eq_getLsbD] at kind
  simp only [BitVec.getLsbD_and,mask,BitVec.getLsbD_or,BitVec.getLsbD_twoPow]
  by_cases top : 31 = i
  · subst top
    rw [lastFilled,filled]
  · by_cases next : 30 = i
    · subst next
      rw [kind]
    · simp [top,next]

/-- What `pushFill` leaves last is a run of the kind of the pushed one. -/
theorem Tight.pushFill (tight : Tight b) (codes : Codes b gs) (filled : isFill w = true)
    (small : gs.length + count w < 2^30) :
    Tight (pushFill b w) ∧ ∃ last, (Wah.pushFill b w).head? = some last ∧ isFill last = true ∧ isOnes last = isOnes w := by
  cases b with
  | nil => exact ⟨tight_single w,w,rfl,filled,rfl⟩
  | cons last before =>
    rw [Wah.pushFill]
    split
    · rename_i same
      obtain ⟨lastFilled,kind⟩ := kind_eq same
      rw [filled] at lastFilled
      have number : count w = (fillCount w).toNat := by simp [count,filled]
      have length : count last ≤ gs.length := by simp [← codes.coded]
      obtain ⟨grown,grownKind,-⟩ := add_toNat lastFilled.symm (fillCount w) (by omega)
      exact ⟨tight.replace (grown.trans lastFilled) grownKind,_,rfl,grown,grownKind.trans kind.symm⟩
    · rename_i differ
      refine ⟨tight.pushRaw fun v head => ?_,w,rfl,filled,rfl⟩
      obtain rfl : last = v := Option.some.inj head
      exact kind_ne differ

private theorem Tight.pushOne (tight : Tight b) (codes : Codes b gs) (all : Bool) (small : gs.length + 1 < 2^30) :
    Tight (Wah.pushFill b (fill 1 all)) := by
  have one : 1 < 2^30 := by omega
  exact (tight.pushFill codes (isFill_fill one all) (by rw [count_fill one]; exact small)).1

theorem Tight.pushLite (tight : Tight b) (codes : Codes b gs) (lite : isFill w = false) (small : gs.length + 1 < 2^30) :
    Tight (pushLite b w) := by
  unfold Wah.pushLite
  split
  · exact tight.pushOne codes false small
  · split
    · exact tight.pushOne codes true small
    · exact tight.pushRaw fun last _ alike => not_alike_lite lite alike.symm

theorem pushLite_mixed (b : Builder) (mixed : Mixed w) : pushLite b w = w :: b := by
  have nonzero : w ≠ 0 := mixed.1
  rw [pushLite,if_neg nonzero,if_neg mixed.2]; rfl

theorem Tight.push (tight : Tight b) (codes : Codes b gs) (canonical : Canonical w) (small : gs.length + count w < 2^30) :
    Tight (push b w) ∧ ∃ last, (Wah.push b w).head? = some last ∧ ∀ v, Alike last v → Alike w v := by
  unfold Wah.push
  split
  · rename_i filled
    obtain ⟨result,last,head,lastFilled,kind⟩ := tight.pushFill codes filled small
    exact ⟨result,last,head,fun v alike => ⟨filled,alike.2.1,kind ▸ alike.2.2⟩⟩
  · rename_i lite
    rw [Bool.not_eq_true] at lite
    have raw : Wah.pushLite b w = w :: b := pushLite_mixed b (canonical.mixed lite)
    refine ⟨tight.pushLite codes lite (by rwa [count_lite lite] at small),w,by rw [raw]; rfl,fun v alike => alike⟩

theorem Tight.pushTail (tight : Tight b) (codes : Codes b gs) {it : Iter} (canonical : ∀ w ∈ it.cur.tail, Canonical w)
    (tail : Tight it.cur.tail) (room : gs.length + (groups it.cur.tail).length < 2^30) : Tight (it.pushTail b) := by
  unfold Iter.pushTail
  cases rest : it.cur.tail with
  | nil => exact tight
  | cons w rest' =>
    rw [rest] at canonical tail room
    simp only [groups_cons,List.length_append,length_expand] at room
    obtain ⟨apart,tail'⟩ := tight_cons.mp tail
    obtain ⟨pushed,last,head,kind⟩ := tight.push codes (canonical w (by simp)) (by omega)
    refine (tight_reverse.mpr tail').append pushed ?_
    intro v first u last'
    obtain rfl : last = u := Option.some.inj (head.symm.trans last')
    rw [List.getLast?_reverse] at first
    exact fun alike => apart v first (kind v alike.symm)

structure Packed (b : Builder) (gs : List Word) : Prop extends Codes b gs where
  tight : Tight b

theorem packed_nil : Packed [] [] := ⟨codes_nil,tight_nil⟩

theorem Packed.pushFill (packed : Packed b gs) (filled : isFill w = true) (canonical : Canonical w)
    (small : gs.length + count w < 2^30) : Packed (pushFill b w) (gs ++ expand w) :=
  ⟨packed.toCodes.pushFill filled canonical small,(packed.tight.pushFill packed.toCodes filled small).1⟩

theorem Packed.pushLite (packed : Packed b gs) (lite : isFill w = false) (small : gs.length + 1 < 2^30) :
    Packed (pushLite b w) (gs ++ [w]) :=
  ⟨packed.toCodes.pushLite lite small,packed.tight.pushLite packed.toCodes lite small⟩

theorem Tight.joinLast (tight : Tight b) (codes : Codes b gs) {all : Bool} (small : gs.length + 1 < 2^30)
    (clear : ¬ Misread gs all) : Tight (joinLast all b) := by
  cases b with
  | nil => exact tight_single _
  | cons previous older =>
    simp only [Wah.joinLast,joinLast_test]
    split
    · rename_i kind
      rw [beq_iff_eq] at kind
      cases filled : isFill previous with
      | true =>
        have length : count previous ≤ gs.length := by simp [← codes.coded]
        have unit : (1 : Word).toNat = 1 := rfl
        obtain ⟨grown,grownKind,-⟩ := add_toNat filled 1 (by omega)
        exact tight.replace (grown.trans filled.symm) grownKind
      | false =>
        have known := codes.canonical previous (by simp)
        refine absurd ⟨previous,?_,known.mixed filled,?_⟩ clear
        · rw [codes.last,value_lite filled]
        · rw [← isOnes_eq_getLsbD,kind]
    · rename_i kind
      refine tight_cons.mpr ⟨?_,tight⟩
      intro v head alike
      obtain rfl : previous = v := Option.some.inj head
      have one : isOnes (fill (1 : Nat) all) = all := isOnes_fill (by omega) all
      exact kind (beq_iff_eq.mpr (alike.2.2.symm.trans one))

theorem fix_tight {r : Nat} (positive : 0 < r) (partly : r < 31) {g : Word} (codes : Codes b (gs ++ [g])) (tight : Tight b)
    (small : gs.length + 1 < 2^30) (clear : ∀ all, g ≠ allOf all → closed r g = allOf all → ¬ Misread gs all)
    {ws : List Word} (fixed : fix b r = some ws) : Tight ws := by
  cases b with
  | nil => exact absurd codes.coded (by simp)
  | cons last before =>
    have same : value last = g := by simpa using codes.last.symm
    cases filled : isFill last with
    | true =>
      rw [fix_fill positive partly filled] at fixed
      obtain rfl := Option.some.inj fixed
      exact tight_reverse.mpr tight
    | false =>
      rw [fix_lite positive partly filled] at fixed
      obtain rfl := Option.some.inj fixed
      rw [value_lite filled] at same
      subst same
      obtain ⟨_,split,codesBefore⟩ := codes.tail filled
      obtain ⟨rfl,-⟩ := List.append_inj' split rfl
      obtain ⟨-,tightBefore⟩ := tight_cons.mp tight
      have mixed := (codes.canonical last (by simp)).mixed filled
      rw [tight_reverse]
      by_cases zero : closed r last = ALL_ZEROES
      · rw [if_pos zero]
        exact tightBefore.joinLast codesBefore small (clear false mixed.1 zero)
      · rw [if_neg zero]
        by_cases full : closed r last = ALL_ONES
        · rw [if_pos full]
          exact tightBefore.joinLast codesBefore small (clear true mixed.2 full)
        · rw [if_neg full]
          have lite : isFill (closed r last) = false := by
            rw [isFill_eq_getLsbD]
            exact closed_mixed partly ⟨zero,full⟩ (by omega)
          exact tight_cons.mpr ⟨fun _ _ => not_alike_lite lite,tightBefore⟩

private theorem head_run {ws : List Word} (canonical : ∀ w ∈ ws, Canonical w) {all : Bool} {rest : List Word}
    (run : groups ws = allOf all :: rest) : ∃ v ∈ ws.head?, isFill v = true ∧ isOnes v = all := by
  cases ws with
  | nil => cases run
  | cons v ws =>
    have known := canonical v (by simp)
    refine ⟨v,rfl,?_⟩
    obtain ⟨n,positive⟩ := Nat.exists_eq_succ_of_ne_zero known.nonempty.ne'
    rw [groups_cons,expand,positive,List.replicate_succ,List.cons_append,List.cons.injEq] at run
    cases filled : isFill v with
    | true =>
      refine ⟨rfl,?_⟩
      have value := run.1
      rw [value_fill filled] at value
      have different : ALL_ONES ≠ ALL_ZEROES := by decide
      cases kind : isOnes v <;> cases all <;> simp_all [allOf]
    | false =>
      have mixed := known.mixed filled
      rw [← value_lite filled,run.1] at mixed
      exact absurd mixed (allOf_not_mixed all)

private theorem run_maximal {ws : List Word} (canonical : ∀ w ∈ ws, Canonical w) (tight : Tight (w :: ws))
    (filled : isFill w = true) {k : Nat} {rest : List Word}
    (same : groups ws = List.replicate k (value w) ++ rest) : k = 0 := by
  by_contra some
  obtain ⟨n,rfl⟩ := Nat.exists_eq_succ_of_ne_zero some
  rw [value_fill filled,List.replicate_succ,List.cons_append] at same
  obtain ⟨v,head,vFilled,kind⟩ := head_run canonical same
  exact (tight_cons.mp tight).1 v head ⟨filled,vFilled,kind.symm⟩

private theorem run_ext {v : Word} (filled : isFill w = true) (vFilled : isFill v = true) (kind : isOnes w = isOnes v)
    (counts : count w = count v) : w = v := by
  have below := w.isLt
  have vBelow := v.isLt
  rw [count,count,if_pos filled,if_pos vFilled,fillCount_toNat,fillCount_toNat] at counts
  rw [isFill_eq,decide_eq_true_eq] at filled vFilled
  rw [isOnes_eq,isOnes_eq,decide_eq_decide] at kind
  apply BitVec.eq_of_toNat_eq
  omega

theorem tight_unique {ws vs : List Word} (canonical : ∀ w ∈ ws, Canonical w) (canonical' : ∀ v ∈ vs, Canonical v)
    (tight : Tight ws) (tight' : Tight vs) (same : groups ws = groups vs) : ws = vs := by
  have first {w : Word} {ws : List Word} (known : Canonical w) :
      ∃ rest, groups (w :: ws) = value w :: rest := by
    obtain ⟨n,positive⟩ := Nat.exists_eq_succ_of_ne_zero known.nonempty.ne'
    exact ⟨_,by rw [groups_cons,expand,positive,List.replicate_succ,List.cons_append]⟩
  induction ws generalizing vs with
  | nil =>
    cases vs with
    | nil => rfl
    | cons v vs =>
      obtain ⟨rest,coded⟩ := first (canonical' v (by simp))
      rw [coded] at same
      cases same
  | cons w ws ih =>
    have known := canonical w (by simp)
    cases vs with
    | nil =>
      obtain ⟨rest,coded⟩ := first known
      rw [coded] at same
      cases same
    | cons v vs =>
      have known' := canonical' v (by simp)
      have others : ∀ w ∈ ws, Canonical w := fun u member => canonical u (List.mem_cons_of_mem _ member)
      have others' : ∀ v ∈ vs, Canonical v := fun u member => canonical' u (List.mem_cons_of_mem _ member)
      have values : value w = value v := by
        obtain ⟨rest,coded⟩ := first known
        obtain ⟨rest',coded'⟩ := first known'
        rw [coded,coded',List.cons.injEq] at same
        exact same.1
      have agree (equal : w = v) : w :: ws = v :: vs := by
        subst equal
        rw [groups_cons,groups_cons,List.append_cancel_left_eq] at same
        rw [ih others others' (tight_cons.mp tight).2 (tight_cons.mp tight').2 same]
      cases filled : isFill w with
      | false =>
        have vLite : isFill v = false := by
          by_contra vFilled
          rw [Bool.not_eq_false] at vFilled
          have mixed := known.mixed filled
          rw [← value_lite filled,values,value_fill vFilled] at mixed
          exact allOf_not_mixed _ mixed
        exact agree (by rwa [value_lite filled,value_lite vLite] at values)
      | true =>
        have vFilled : isFill v = true := by
          by_contra vLite
          rw [Bool.not_eq_true] at vLite
          have mixed := known'.mixed vLite
          rw [← value_lite vLite,← values,value_fill filled] at mixed
          exact allOf_not_mixed _ mixed
        have kind : isOnes w = isOnes v := by
          rw [value_fill filled,value_fill vFilled] at values
          have different : ALL_ONES ≠ ALL_ZEROES := by decide
          cases wKind : isOnes w <;> cases vKind : isOnes v <;> simp_all [allOf]
        rw [groups_cons,groups_cons,expand,expand] at same
        refine agree (run_ext filled vFilled kind ?_)
        rcases Nat.le_total (count w) (count v) with le | le
        · have longer : groups ws = List.replicate (count v - count w) (value w) ++ groups vs := by
            rw [← Nat.add_sub_of_le le,List.replicate_add,← values,List.append_assoc,List.append_cancel_left_eq] at same
            simpa using same
          have := run_maximal others tight filled longer
          omega
        · have longer : groups vs = List.replicate (count w - count v) (value v) ++ groups ws := by
            rw [← Nat.add_sub_of_le le,List.replicate_add,values,List.append_assoc,List.append_cancel_left_eq] at same
            simpa using same.symm
          have := run_maximal others' tight' vFilled longer
          omega

end Otawa.Wah
