import Mathlib.Data.List.Chain
import Mathlib.Data.List.Nodup
import Mathlib.Logic.Function.Basic

namespace Otawa.LinkedList

variable {P : Type*} [DecidableEq P]

def Linked (next : P → Option P) (cells : List P) : Prop := cells.IsChain fun a b => next a = some b

variable {next : P → Option P} {cells before after : List P} {a b c : P}

omit [DecidableEq P] in
theorem Linked.congr {other : P → Option P} (linked : Linked next cells) (same : ∀ a ∈ cells, other a = next a) :
    Linked other cells :=
  List.IsChain.imp_of_mem_imp (fun a _ member _ link => (same a member).trans link) linked

theorem Linked.update (linked : Linked next cells) (absent : a ∉ cells) (link : Option P) :
    Linked (Function.update next a link) cells :=
  linked.congr fun _ member => Function.update_of_ne (ne_of_mem_of_not_mem member absent) ..

theorem Linked.update_last (linked : Linked next (before ++ [a])) (nodup : (before ++ [a]).Nodup) (link : Option P) :
    Linked (Function.update next a link) (before ++ [a]) := by
  obtain ⟨_,_,apart⟩ := List.nodup_append.mp nodup
  refine List.isChain_append.mpr ⟨Linked.update (List.IsChain.left_of_append linked) ?_ link,.singleton _,?_⟩
  · exact fun member => apart a member a (List.mem_singleton.mpr rfl) rfl
  · intro x last y head
    have member : x ∈ before := List.mem_of_getLast? last
    rw [Function.update_of_ne (apart x member a (List.mem_singleton.mpr rfl))]
    exact (List.isChain_append.mp linked).2.2 x last y head

theorem Linked.move_front (linked : Linked next (before ++ a :: c :: after)) (nodup : (before ++ a :: c :: after).Nodup)
    {first : P} (head : (before ++ [a]).head? = some first) :
    Linked (Function.update (Function.update next a (next c)) c (some first)) (c :: (before ++ a :: after)) := by
  obtain ⟨_,rest,apart⟩ := List.nodup_append.mp nodup
  obtain ⟨outside,tail⟩ := List.nodup_cons.mp rest
  obtain ⟨last,_⟩ := List.nodup_cons.mp tail
  have other : a ≠ c := fun same => outside (same ▸ List.mem_cons_self ..)
  have absent : c ∉ before ++ a :: after := by
    rw [List.mem_append,List.mem_cons]
    rintro (member | same | member)
    · exact apart c member c (by simp) rfl
    · exact other same.symm
    · exact last member
  refine List.IsChain.cons (Linked.update ?_ absent _) ?_
  · have front : Linked next (before ++ [a]) :=
      List.IsChain.prefix linked ⟨c :: after,by simp⟩
    have back : Linked next (c :: after) := List.IsChain.suffix linked ⟨before ++ [a],by simp⟩
    have frontNodup : (before ++ [a]).Nodup :=
      nodup.sublist (List.Sublist.append_left (List.singleton_sublist.mpr (by simp)) before)
    have joined : before ++ a :: after = before ++ [a] ++ after := by simp
    rw [joined]
    refine List.isChain_append.mpr ⟨front.update_last frontNodup _,?_,?_⟩
    · exact Linked.update (List.IsChain.tail back) (fun member => outside (List.mem_cons_of_mem _ member)) _
    · intro x lastX y headY
      obtain rfl : a = x := by simpa using lastX
      rw [Function.update_self]
      exact List.IsChain.rel_head? back headY
  · intro y headY
    rw [Function.update_self,← head]
    cases before with
    | nil => simpa using headY
    | cons z zs => simpa using headY

/-- The last cell c, behind the cell a, moves in front of the first cell; the link of the
    new last cell stays stale. -/
theorem Linked.move_last (linked : Linked next (before ++ [a,c])) (nodup : (before ++ [a,c]).Nodup) {first : P}
    (head : (before ++ [a]).head? = some first) :
    Linked (Function.update next c (some first)) (c :: (before ++ [a])) := by
  have front : Linked next (before ++ [a]) := List.IsChain.prefix linked ⟨[c],by simp⟩
  have absent : c ∉ before ++ [a] := by
    have split : before ++ [a,c] = before ++ [a] ++ [c] := by simp
    rw [split,List.nodup_append] at nodup
    exact fun member => nodup.2.2 c member c (List.mem_singleton.mpr rfl) rfl
  refine List.IsChain.cons (front.update absent _) ?_
  intro y headY
  rw [Function.update_self,← head]
  exact headY.symm ▸ rfl

def Chain (next : P → Option P) : Option P → List P → Prop
  | link, [] => link = none
  | link, a :: rest => link = some a ∧ Chain next (next a) rest

def walk (next : P → Option P) : Nat → Option P → List P
  | 0, _ => []
  | _ + 1, none => []
  | room + 1, some a => a :: walk next room (next a)

section
variable {link : Option P} {room : Nat}

omit [DecidableEq P] in
theorem Chain.walk_eq (chain : Chain next link cells) (enough : cells.length ≤ room) : walk next room link = cells := by
  induction cells generalizing link room with
  | nil =>
    obtain rfl : link = none := chain
    cases room <;> rfl
  | cons a rest ih =>
    obtain ⟨rfl,chain⟩ := chain
    obtain ⟨room,rfl⟩ := Nat.exists_eq_succ_of_ne_zero (Nat.ne_zero_of_lt enough)
    rw [walk,ih chain (Nat.le_of_succ_le_succ enough)]

omit [DecidableEq P] in
theorem Chain.congr {other : P → Option P} (chain : Chain next link cells) (same : ∀ a ∈ cells, other a = next a) :
    Chain other link cells := by
  induction cells generalizing link with
  | nil => exact chain
  | cons a rest ih =>
    refine ⟨chain.1,?_⟩
    rw [same a List.mem_cons_self]
    exact ih chain.2 fun b member => same b (List.mem_cons_of_mem a member)

theorem Chain.update (chain : Chain next link cells) (absent : a ∉ cells) (new : Option P) :
    Chain (Function.update next a new) link cells :=
  chain.congr fun _ member => Function.update_of_ne (ne_of_mem_of_not_mem member absent) ..

omit [DecidableEq P] in
theorem Chain.suffix (chain : Chain next link (before ++ a :: after)) : Chain next (next a) after := by
  induction before generalizing link with
  | nil => exact chain.2
  | cons b rest ih => exact ih chain.2

theorem Chain.unlink (chain : Chain next link (before ++ a :: c :: after)) (nodup : (before ++ a :: c :: after).Nodup) :
    Chain (Function.update next a (next c)) link (before ++ a :: after) := by
  induction before generalizing link with
  | nil =>
    obtain ⟨same,_,rest⟩ := chain
    refine ⟨same,?_⟩
    rw [Function.update_self]
    exact rest.update (fun member => (List.nodup_cons.mp nodup).1 (List.mem_cons_of_mem c member)) _
  | cons b before ih =>
    obtain ⟨outside,nodup⟩ := List.nodup_cons.mp nodup
    have other : b ≠ a := fun same => outside (by simp [same])
    refine ⟨chain.1,?_⟩
    rw [Function.update_of_ne other]
    exact ih chain.2 nodup

theorem Chain.front (chain : Chain next link (before ++ a :: c :: after)) (nodup : (before ++ a :: c :: after).Nodup) :
    Chain (Function.update (Function.update next a (next c)) c link) (some c) (c :: (before ++ a :: after)) := by
  have absent : c ∉ before ++ a :: after := by
    have swapped : (c :: (before ++ a :: after)).Nodup := by
      have split : before ++ a :: c :: after = before ++ [a] ++ c :: after := by simp
      rw [split] at nodup
      simpa using List.perm_middle.nodup_iff.mp nodup
    exact (List.nodup_cons.mp swapped).1
  refine ⟨rfl,?_⟩
  rw [Function.update_self]
  exact (chain.unlink nodup).update absent link

end

end Otawa.LinkedList
