import Otawa.GenVector
import Mathlib.Data.BitVec
import Mathlib.Data.List.Nodup

/-!
Configurations of the events of an edge, one bit by event, and the masks of events that
`ConfigSet::scan` draws from a set of them. An event is constant, or the set does not depend
on it (`Free`), or it is left to the complex mask; a set is read by its members only, in any
order (`scan_pos`, `scan_neg`, `scan_comp`).
-/
namespace Otawa.Etime
open Otawa.GenVector (addAll)

/-! ### Words -/

/-- `t::uint32`, one bit by event. -/
abbrev Word := BitVec 32

/-- `Config` is its bits. -/
abbrev Config := Word

/-- `w & (1 << i)`. -/
def hasBit (w : Word) (i : Nat) : Bool := w &&& ((1 : Word) <<< i) != 0

/-- `ConfigSet`: configurations with the same or with a maximum of time. -/
structure ConfigSet where
  t : Int
  confs : List Config
  deriving DecidableEq

/-- What `scan` returns. -/
structure Scan where
  pos : Word
  neg : Word
  unus : Word
  comp : Word

namespace ConfigSet

def add (s : ConfigSet) (conf : Config) : Option ConfigSet :=
  (GenVector.add s.confs conf).map fun confs => { s with confs := confs }

/-- `add` of a set, and `push`. -/
def push (s set : ConfigSet) : Option ConfigSet :=
  (addAll s.confs set.confs).map fun confs => { t := max s.t set.t, confs := confs }

def pop (s set : ConfigSet) : ConfigSet :=
  { s with confs := set.confs.foldl (fun confs _ => confs.dropLast) s.confs }

def posConst (s : ConfigSet) : Word := s.confs.foldl (fun r c => r &&& c) 0xffffffff

def negConst (s : ConfigSet) : Word := ~~~(s.confs.foldl (fun r c => r ||| c) 0)

/-- One configuration in `unused`: it leaves with the one that differs by event `i` only, or
    waits for it. The vectors never hold more than `confs`, so they never grow too much. -/
def matchConf (i : Nat) (waiting : List Word × List Word) (c : Config) : List Word × List Word :=
  if hasBit c i then
    let c := c &&& ~~~((1 : Word) <<< i)
    if waiting.1.contains c then (waiting.1.erase (c &&& ~~~((1 : Word) <<< i)),waiting.2)
    else (waiting.1,waiting.2 ++ [c &&& ~~~((1 : Word) <<< i)])
  else if waiting.2.contains c then (waiting.1,waiting.2.erase c)
  else (waiting.1 ++ [c],waiting.2)

def unused (s : ConfigSet) (neg pos : Word) (n : Nat) : Word :=
  (List.range n).foldl (fun r i =>
    if hasBit (neg ||| pos) i then r
    else
      let waiting := s.confs.foldl (matchConf i) ([],[])
      if waiting.2.isEmpty && waiting.1.isEmpty then r ||| ((1 : Word) <<< i) else r) 0

def complex (neg pos unused : Word) (n : Nat) : Word :=
  (((1 : Word) <<< n) - 1) &&& ~~~neg &&& ~~~pos &&& ~~~unused

def scan (s : ConfigSet) (n : Nat) : Scan :=
  let pos := s.posConst
  let neg := s.negConst
  let unus := s.unused neg pos n
  { pos := pos, neg := neg, unus := unus, comp := complex neg pos unus n }

end ConfigSet

section Meaning
variable (H : List Config) (i : Nat)

/-- The event occurs in all the configurations. -/
def Always : Prop := ∀ c ∈ H, c.getLsbD i = true

/-- The event occurs in none of them. -/
def Never : Prop := ∀ c ∈ H, c.getLsbD i = false

/-- Whether the event occurs or not does not matter. -/
def Free : Prop := ∀ c ∈ H, c ^^^ ((1 : Word) <<< i) ∈ H

/-- One of the first `n` events on which the set depends, but which is not constant in it. -/
def Mixed (n : Nat) : Prop := i < n ∧ ¬Always H i ∧ ¬Never H i ∧ ¬Free H i

instance : Decidable (Always H i) := inferInstanceAs (Decidable (∀ c ∈ H, _))
instance : Decidable (Never H i) := inferInstanceAs (Decidable (∀ c ∈ H, _))
instance : Decidable (Free H i) := inferInstanceAs (Decidable (∀ c ∈ H, _))
instance (n : Nat) : Decidable (Mixed H i n) := inferInstanceAs (Decidable (_ ∧ _))

variable {H i}

theorem Always.congr {K : List Config} (same : ∀ c, c ∈ H ↔ c ∈ K) : Always H i ↔ Always K i :=
  forall_congr' fun c => by rw [same c]

theorem Never.congr {K : List Config} (same : ∀ c, c ∈ H ↔ c ∈ K) : Never H i ↔ Never K i :=
  forall_congr' fun c => by rw [same c]

theorem Free.congr {K : List Config} (same : ∀ c, c ∈ H ↔ c ∈ K) : Free H i ↔ Free K i :=
  forall_congr' fun c => by rw [same c,same]

theorem Mixed.congr {K : List Config} {n : Nat} (same : ∀ c, c ∈ H ↔ c ∈ K) : Mixed H i n ↔ Mixed K i n := by
  rw [Mixed,Mixed,Always.congr same,Never.congr same,Free.congr same]

end Meaning

private theorem getLsbD_one_shift {i j : Nat} (small : i < 32) :
    ((1 : Word) <<< i).getLsbD j = decide (j = i) := by
  by_cases same : j = i
  · subst same
    simp [small]
  · rcases Nat.lt_or_gt_of_ne same with before | after
    · simp [before,same]
    · have away : j - i ≠ 0 := by omega
      simp [same,away]

theorem hasBit_eq {i : Nat} (small : i < 32) (w : Word) : hasBit w i = w.getLsbD i := by
  have masked : ∀ j, (w &&& ((1 : Word) <<< i)).getLsbD j = (w.getLsbD j && decide (j = i)) := by
    intro j
    rw [BitVec.getLsbD_and,getLsbD_one_shift small]
  cases bit : w.getLsbD i with
  | true =>
    have kept := masked i
    rw [bit] at kept
    have nonzero : w &&& ((1 : Word) <<< i) ≠ 0 := by
      intro zero
      rw [zero] at kept
      simp at kept
    simpa [hasBit] using nonzero
  | false =>
    have zero : w &&& ((1 : Word) <<< i) = 0 := by
      apply BitVec.eq_of_getLsbD_eq
      intro j _
      rw [masked j]
      by_cases same : j = i
      · simp [same,bit]
      · simp [same]
    simpa [hasBit] using zero

/-- `c` with event `i` the other way. -/
def flip (i : Nat) (c : Config) : Config := c ^^^ ((1 : Word) <<< i)

theorem free_iff {H : List Config} {i : Nat} : Free H i ↔ ∀ c ∈ H, flip i c ∈ H := Iff.rfl

theorem flip_flip (i : Nat) (c : Config) : flip i (flip i c) = c := by
  rw [flip,flip,BitVec.xor_assoc,BitVec.xor_self,BitVec.xor_zero]

theorem flip_inj {i : Nat} {c d : Config} : flip i c = flip i d ↔ c = d := by
  constructor
  · intro same
    rw [← flip_flip i c,same,flip_flip]
  · rintro rfl; rfl

theorem getLsbD_flip {i : Nat} (small : i < 32) (c : Config) (j : Nat) :
    (flip i c).getLsbD j = (c.getLsbD j ^^ decide (j = i)) := by
  rw [flip,BitVec.getLsbD_xor,getLsbD_one_shift small]

private theorem clear_eq_flip {i : Nat} (small : i < 32) {c : Config} (bit : c.getLsbD i = true) :
    c &&& ~~~((1 : Word) <<< i) = flip i c := by
  apply BitVec.eq_of_getLsbD_eq
  intro j inside
  rw [getLsbD_flip small,BitVec.getLsbD_and,BitVec.getLsbD_not,getLsbD_one_shift small]
  by_cases same : j = i
  · simp [same,bit]
  · simp [same,inside]

private theorem clear_of_clear {i : Nat} (small : i < 32) {c : Config} (bit : c.getLsbD i = false) :
    c &&& ~~~((1 : Word) <<< i) = c := by
  apply BitVec.eq_of_getLsbD_eq
  intro j inside
  rw [BitVec.getLsbD_and,BitVec.getLsbD_not,getLsbD_one_shift small]
  by_cases same : j = i
  · simp [same,bit]
  · simp [same,inside]

private theorem getLsbD_foldl_and (l : List Word) (r : Word) (i : Nat) :
    (l.foldl (fun r c => r &&& c) r).getLsbD i = true ↔ r.getLsbD i = true ∧ Always l i := by
  induction l generalizing r with
  | nil => simp [Always]
  | cons c l ih =>
    rw [List.foldl_cons,ih,BitVec.getLsbD_and,Bool.and_eq_true,Always,Always,List.forall_mem_cons,and_assoc]

private theorem getLsbD_foldl_or (l : List Word) (r : Word) (i : Nat) :
    (l.foldl (fun r c => r ||| c) r).getLsbD i = false ↔ r.getLsbD i = false ∧ Never l i := by
  induction l generalizing r with
  | nil => simp [Never]
  | cons c l ih =>
    rw [List.foldl_cons,ih,BitVec.getLsbD_or,Bool.or_eq_false_iff,Never,Never,List.forall_mem_cons,and_assoc]

theorem scan_pos (s : ConfigSet) (n : Nat) {i : Nat} (small : i < 32) :
    (s.scan n).pos.getLsbD i = true ↔ Always s.confs i := by
  have full : (0xffffffff : Word).getLsbD i = true := by
    have ones : (0xffffffff : Word) = BitVec.allOnes 32 := rfl
    rw [ones,BitVec.getLsbD_allOnes]
    exact decide_eq_true small
  show s.posConst.getLsbD i = true ↔ _
  rw [ConfigSet.posConst,getLsbD_foldl_and]
  exact and_iff_right full

theorem scan_neg (s : ConfigSet) (n : Nat) {i : Nat} (small : i < 32) :
    (s.scan n).neg.getLsbD i = true ↔ Never s.confs i := by
  show s.negConst.getLsbD i = true ↔ _
  rw [ConfigSet.negConst,BitVec.getLsbD_not]
  simp only [small,decide_true,Bool.true_and,Bool.not_eq_true']
  rw [getLsbD_foldl_or]
  exact and_iff_right (by simp)

/-! ### The unused events -/

/-- A vector of `unused`: the words that came one way and not the other. -/
private structure Alone (mine other : Word → Prop) (waiting : List Word) : Prop where
  mem : ∀ x, x ∈ waiting ↔ mine x ∧ ¬ other x
  nodup : waiting.Nodup

section Alone
variable {mine other : Word → Prop} {own opposite : List Word} {r : Word}

private theorem Alone.leaves (alone : Alone other mine opposite) :
    Alone other (fun x => mine x ∨ x = r) (opposite.erase r) := by
  refine ⟨fun x => ?_,alone.nodup.erase _⟩
  rw [alone.nodup.mem_erase_iff,alone.mem,not_or]
  tauto

private theorem Alone.kept (alone : Alone other mine opposite) (absent : ¬ other r) :
    Alone other (fun x => mine x ∨ x = r) opposite := by
  refine ⟨fun x => ?_,alone.nodup⟩
  rw [alone.mem,not_or]
  have differ : other x → x ≠ r := fun came same => absent (same ▸ came)
  tauto

private theorem Alone.paired (alone : Alone mine other own) (came : other r) :
    Alone (fun x => mine x ∨ x = r) other own := by
  refine ⟨fun x => ?_,alone.nodup⟩
  rw [alone.mem]
  have differ : ¬ other x → x ≠ r := fun missing same => missing (same ▸ came)
  tauto

private theorem Alone.waits (alone : Alone mine other own) (new : ¬ mine r) (absent : ¬ other r) :
    Alone (fun x => mine x ∨ x = r) other (own ++ [r]) := by
  refine ⟨fun x => ?_,alone.nodup.append (List.nodup_singleton _) ?_⟩
  · rw [List.mem_append,List.mem_singleton,alone.mem]
    have missing : x = r → ¬ other x := fun same => same ▸ absent
    tauto
  · simp only [List.disjoint_singleton,alone.mem]
    exact fun both => new both.1

/-- The word `r` comes: it leaves with its partner or waits for it. -/
private theorem Alone.step (mines : Alone mine other own) (others : Alone other mine opposite) (new : ¬ mine r) :
    if r ∈ opposite then
      Alone (fun x => mine x ∨ x = r) other own ∧ Alone other (fun x => mine x ∨ x = r) (opposite.erase r)
    else Alone (fun x => mine x ∨ x = r) other (own ++ [r]) ∧ Alone other (fun x => mine x ∨ x = r) opposite := by
  split
  case isTrue waits => exact ⟨mines.paired ((others.mem r).mp waits).1,others.leaves⟩
  case isFalse waits =>
    have absent : ¬ other r := fun came => waits ((others.mem r).mpr ⟨came,new⟩)
    exact ⟨mines.waits new absent,others.kept absent⟩

end Alone

/-- The configurations without event `i`. -/
private def Low (i : Nat) (seen : List Config) (x : Word) : Prop := x.getLsbD i = false ∧ x ∈ seen

/-- Those with it, which `unused` clears. -/
private def High (i : Nat) (seen : List Config) (x : Word) : Prop := x.getLsbD i = false ∧ flip i x ∈ seen

private def Waiting (i : Nat) (seen : List Config) (waiting : List Word × List Word) : Prop :=
  Alone (Low i seen) (High i seen) waiting.1 ∧ Alone (High i seen) (Low i seen) waiting.2

private theorem matchConf_waiting {i : Nat} (small : i < 32) {seen : List Config}
    {waiting : List Word × List Word} (inv : Waiting i seen waiting) {c : Config} (fresh : c ∉ seen) :
    Waiting i (seen ++ [c]) (ConfigSet.matchConf i waiting c) := by
  obtain ⟨low,high⟩ := inv
  have bitFlip (x : Word) : (flip i x).getLsbD i = !x.getLsbD i := by simp [getLsbD_flip small]
  cases bit : c.getLsbD i with
  | true =>
    have off : (flip i c).getLsbD i = false := by rw [bitFlip,bit]; rfl
    have lows : Low i (seen ++ [c]) = Low i seen := by
      funext x
      have differ : x.getLsbD i = false → x ≠ c := by
        rintro clear rfl
        rw [bit] at clear
        cases clear
      simp only [Low,List.mem_append,List.mem_singleton,eq_iff_iff]
      tauto
    have highs : High i (seen ++ [c]) = fun x => High i seen x ∨ x = flip i c := by
      funext x
      have partner : flip i x = c ↔ x = flip i c := by rw [← flip_inj (i := i),flip_flip]
      have clear : x = flip i c → x.getLsbD i = false := fun same => same ▸ off
      simp only [High,List.mem_append,List.mem_singleton,partner,eq_iff_iff]
      tauto
    have stepped := high.step low (r := flip i c) fun came => fresh (flip_flip i c ▸ came.2)
    rw [Waiting,lows,highs,ConfigSet.matchConf,hasBit_eq small,bit,if_pos rfl]
    dsimp only
    rw [clear_eq_flip small bit,clear_of_clear small off]
    simp only [List.contains_iff_mem]
    split at stepped
    case isTrue waits => exact (if_pos waits).symm ▸ stepped.symm
    case isFalse waits => exact (if_neg waits).symm ▸ stepped.symm
  | false =>
    have lows : Low i (seen ++ [c]) = fun x => Low i seen x ∨ x = c := by
      funext x
      have clear : x = c → x.getLsbD i = false := fun same => same ▸ bit
      simp only [Low,List.mem_append,List.mem_singleton,eq_iff_iff]
      tauto
    have highs : High i (seen ++ [c]) = High i seen := by
      funext x
      have differ : x.getLsbD i = false → flip i x ≠ c := by
        rintro clear rfl
        rw [bitFlip,clear] at bit
        cases bit
      simp only [High,List.mem_append,List.mem_singleton,eq_iff_iff]
      tauto
    have stepped := low.step high (r := c) fun came => fresh came.2
    rw [Waiting,lows,highs,ConfigSet.matchConf,hasBit_eq small,bit,if_neg Bool.false_ne_true]
    simp only [List.contains_iff_mem]
    split at stepped
    case isTrue waits => exact (if_pos waits).symm ▸ stepped
    case isFalse waits => exact (if_neg waits).symm ▸ stepped

private theorem foldl_waiting {i : Nat} (small : i < 32) (rest : List Config) {seen : List Config}
    {waiting : List Word × List Word} (inv : Waiting i seen waiting) (distinct : (seen ++ rest).Nodup) :
    Waiting i (seen ++ rest) (rest.foldl (ConfigSet.matchConf i) waiting) := by
  induction rest generalizing seen waiting with
  | nil => simpa using inv
  | cons c rest ih =>
    have fresh : c ∉ seen := by
      intro old
      exact (List.disjoint_of_nodup_append distinct) old (by simp)
    have next := ih (matchConf_waiting small inv fresh) (by simpa using distinct)
    simpa using next

private theorem matched_iff {i : Nat} (small : i < 32) {confs : List Config} (distinct : confs.Nodup) :
    ((confs.foldl (ConfigSet.matchConf i) ([],[])).2.isEmpty &&
      (confs.foldl (ConfigSet.matchConf i) ([],[])).1.isEmpty) = true ↔ Free confs i := by
  have start : Waiting i [] ([],[]) := ⟨⟨by simp [Low],.nil⟩,by simp [High],.nil⟩
  have inv := foldl_waiting small confs start (by simpa using distinct)
  rw [List.nil_append] at inv
  simp only [Bool.and_eq_true,List.isEmpty_iff,List.eq_nil_iff_forall_not_mem,inv.1.mem,inv.2.mem,Low,High]
  rw [free_iff]
  constructor
  · rintro ⟨high,low⟩ c member
    by_contra alone
    cases bit : c.getLsbD i with
    | false => exact low c ⟨⟨bit,member⟩,fun both => alone both.2⟩
    | true =>
      refine high (flip i c) ⟨⟨?_,by rwa [flip_flip]⟩,fun both => alone both.2⟩
      rw [getLsbD_flip small,bit]
      simp
  · intro free
    constructor
    · rintro x ⟨⟨off,member⟩,absent⟩
      have back := free _ member
      rw [flip_flip] at back
      exact absent ⟨off,back⟩
    · rintro x ⟨⟨off,member⟩,alone⟩
      exact alone ⟨off,free _ member⟩

private theorem getLsbD_collect (wanted : Nat → Bool) (n j : Nat) (small : n ≤ 32) :
    ((List.range n).foldl (fun r i => if wanted i then r ||| ((1 : Word) <<< i) else r) 0).getLsbD j =
      (decide (j < n) && wanted j) := by
  induction n with
  | zero => simp
  | succ n ih =>
    rw [List.range_succ,List.foldl_append,List.foldl_cons,List.foldl_nil]
    have before := ih (by omega)
    split
    case isTrue want =>
      rw [BitVec.getLsbD_or,before,getLsbD_one_shift (by omega)]
      rcases Nat.lt_trichotomy j n with less | same | more
      · simp [less,show j < n + 1 by omega,show j ≠ n by omega]
      · simp [same,want]
      · simp [show ¬j < n by omega,show ¬j < n + 1 by omega,show j ≠ n by omega]
    case isFalse want =>
      rw [before]
      rcases Nat.lt_trichotomy j n with less | same | more
      · simp [less,show j < n + 1 by omega]
      · simp [same,want]
      · simp [show ¬j < n by omega,show ¬j < n + 1 by omega]

private theorem getLsbD_unused {s : ConfigSet} (distinct : s.confs.Nodup) {n : Nat} (small : n ≤ 32)
    (i : Nat) (neg pos : Word) :
    (s.unused neg pos n).getLsbD i = true ↔ i < n ∧ ¬(neg ||| pos).getLsbD i = true ∧ Free s.confs i := by
  let wanted : Nat → Bool := fun i => !hasBit (neg ||| pos) i &&
    ((s.confs.foldl (ConfigSet.matchConf i) ([],[])).2.isEmpty &&
      (s.confs.foldl (ConfigSet.matchConf i) ([],[])).1.isEmpty)
  have collected : s.unused neg pos n =
      (List.range n).foldl (fun r i => if wanted i then r ||| ((1 : Word) <<< i) else r) 0 := by
    unfold ConfigSet.unused
    congr 1
    funext r i
    by_cases known : hasBit (neg ||| pos) i = true
    · simp [wanted,known]
    · simp [wanted,known]
  rw [collected,getLsbD_collect wanted n i small,Bool.and_eq_true,decide_eq_true_iff]
  refine and_congr_right fun inside => ?_
  simp only [wanted]
  rw [Bool.and_eq_true,matched_iff (by omega) distinct,hasBit_eq (by omega)]
  simp

theorem scan_unus {s : ConfigSet} (distinct : s.confs.Nodup) {n : Nat} (small : n ≤ 32) (i : Nat) :
    (s.scan n).unus.getLsbD i = true ↔ i < n ∧ ¬(Always s.confs i ∨ Never s.confs i) ∧ Free s.confs i := by
  show (s.unused s.negConst s.posConst n).getLsbD i = true ↔ _
  rw [getLsbD_unused distinct small]
  refine and_congr_right fun inside => ?_
  have always : s.posConst.getLsbD i = true ↔ Always s.confs i := scan_pos s n (by omega)
  have never : s.negConst.getLsbD i = true ↔ Never s.confs i := scan_neg s n (by omega)
  rw [BitVec.getLsbD_or,Bool.or_eq_true,always,never,or_comm]

theorem scan_comp {s : ConfigSet} (distinct : s.confs.Nodup) {n : Nat} (small : n < 32) (i : Nat) :
    (s.scan n).comp.getLsbD i = true ↔ Mixed s.confs i n := by
  have below : (((1 : Word) <<< n) - 1).getLsbD i = decide (i < n) := by
    have ones : ((1 : Word) <<< n) - 1 = BitVec.ofNat 32 (2 ^ n - 1) := by
      apply BitVec.eq_of_toNat_eq
      have fits : 2 ^ n < 2 ^ 32 := Nat.pow_lt_pow_right (by omega) small
      have positive : 0 < 2 ^ n := Nat.two_pow_pos n
      rw [BitVec.toNat_sub,BitVec.toNat_shiftLeft,BitVec.toNat_ofNat]
      simp only [Nat.shiftLeft_eq]
      have one : (1 : Word).toNat = 1 := rfl
      rw [one]
      omega
    rw [ones,BitVec.getLsbD_ofNat,Nat.testBit_two_pow_sub_one]
    by_cases inside : i < n
    · simp [inside,show i < 32 by omega]
    · simp [inside]
  show (ConfigSet.complex s.negConst s.posConst (s.unused s.negConst s.posConst n) n).getLsbD i = true ↔ _
  rw [ConfigSet.complex,BitVec.getLsbD_and,BitVec.getLsbD_and,BitVec.getLsbD_and,below]
  by_cases inside : i < n
  · have word : i < 32 := by omega
    have always : s.posConst.getLsbD i = true ↔ Always s.confs i := scan_pos s n word
    have never : s.negConst.getLsbD i = true ↔ Never s.confs i := scan_neg s n word
    have unus : (s.unused s.negConst s.posConst n).getLsbD i = true ↔ _ := scan_unus distinct (by omega) i
    simp only [BitVec.getLsbD_not,word,inside,decide_true,Bool.true_and,Bool.and_eq_true,Bool.not_eq_true',
      Bool.eq_false_iff,ne_eq,always,never,unus,Mixed]
    tauto
  · simp [inside,Mixed]

private theorem not_never_of_always {H : List Config} (filled : H ≠ []) {i : Nat} (always : Always H i) :
    ¬Never H i := by
  obtain ⟨c,member⟩ := List.exists_mem_of_ne_nil H filled
  intro never
  rw [Never] at never
  have absent := never c member
  rw [always c member] at absent
  cases absent

/-- `unused` finds the events that neither are constant nor matter, and `scan` puts each of the
    `n` events of a non-empty set in exactly one of its masks. -/
theorem scan_partition (s : ConfigSet) (n : Nat) (few : n < 31) (distinct : s.confs.Nodup)
    (events : ∀ c ∈ s.confs, ∀ i, n ≤ i → c.getLsbD i = false) :
    (∀ i, (s.unused s.negConst s.posConst n).getLsbD i = true ↔
      ¬(Always s.confs i ∨ Never s.confs i) ∧ Free s.confs i) ∧
    (s.confs ≠ [] → ∀ i < n, [(s.scan n).pos.getLsbD i,(s.scan n).neg.getLsbD i,
      (s.scan n).unus.getLsbD i,(s.scan n).comp.getLsbD i].count true = 1) := by
  constructor
  · intro i
    have unus : (s.unused s.negConst s.posConst n).getLsbD i = true ↔ _ :=
      scan_unus distinct (by omega) i
    rw [unus]
    constructor
    · rintro ⟨-,unknown⟩
      exact unknown
    · rintro ⟨mixed,free⟩
      -- an event that no configuration can have is constant
      have inside : i < n := by
        by_contra outside
        exact mixed (Or.inr fun c member => events c member i (by omega))
      exact ⟨inside,mixed,free⟩
  · intro filled i inside
    have pos : (s.scan n).pos.getLsbD i = decide (Always s.confs i) :=
      Bool.eq_iff_iff.mpr ((scan_pos s n (by omega)).trans decide_eq_true_iff.symm)
    have neg : (s.scan n).neg.getLsbD i = decide (Never s.confs i) :=
      Bool.eq_iff_iff.mpr ((scan_neg s n (by omega)).trans decide_eq_true_iff.symm)
    have unus : (s.scan n).unus.getLsbD i = decide (i < n ∧ ¬(Always s.confs i ∨ Never s.confs i) ∧ Free s.confs i) :=
      Bool.eq_iff_iff.mpr ((scan_unus distinct (by omega) i).trans decide_eq_true_iff.symm)
    have comp : (s.scan n).comp.getLsbD i = decide (Mixed s.confs i n) :=
      Bool.eq_iff_iff.mpr ((scan_comp distinct (by omega) i).trans decide_eq_true_iff.symm)
    rw [pos,neg,unus,comp]
    by_cases always : Always s.confs i
    · have never := not_never_of_always filled always
      simp [Mixed,always,never]
    · by_cases never : Never s.confs i
      · simp [Mixed,always,never]
      · by_cases free : Free s.confs i
        · simp [Mixed,always,never,free,inside]
        · simp [Mixed,always,never,free,inside]

/-- The first event does not matter and the second one never occurs. -/
theorem scan_partition_pair :
    let s : ConfigSet := ⟨5,[0,1]⟩
    (∀ i, (s.unused s.negConst s.posConst 2).getLsbD i = true ↔
      ¬(Always s.confs i ∨ Never s.confs i) ∧ Free s.confs i) ∧
    (s.confs ≠ [] → ∀ i < 2, [(s.scan 2).pos.getLsbD i,(s.scan 2).neg.getLsbD i,
      (s.scan 2).unus.getLsbD i,(s.scan 2).comp.getLsbD i].count true = 1) := by
  refine scan_partition ⟨5,[0,1]⟩ 2 (by decide) (by decide) ?_
  intro c member i outside
  rcases List.mem_pair.mp member with rfl | rfl
  · simp
  · simp
    omega

end Otawa.Etime
