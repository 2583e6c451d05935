import Otawa.FlowGraph
import Mathlib.Data.List.FinRange

/-!
Control flow graphs as the analyses read them: blocks with their numbers, edges with a
kind. A call edge leads to another graph and takes no part in the flow.
-/
namespace Otawa.Cfg
open Otawa.FlowGraph

/-- `Edge::kind_t`. -/
inductive EdgeKind
  | none | taken | notTaken | call | virtual | virtualCall | virtualReturn | exnCall | exnReturn
  deriving DecidableEq

/-- `CFG`: n blocks and m edges, both in the order in which they were made. The target
    of a call edge is a block of another graph; it is not read. -/
structure CFG (n m : Nat) where
  entry : Fin n
  source : Fin m → Fin n
  target : Fin m → Fin n
  kind : Fin m → EdgeKind

namespace CFG
variable {n m : Nat} (g : CFG n m)

/-- `BBIterator`. -/
def blocks (_ : CFG n m) : List (Fin n) := List.finRange n

/-- `OutIterator`; `addOutEdge` puts the edge first. -/
def outs (b : Fin n) : List (Fin m) := ((List.finRange m).filter fun e => g.source e = b).reverse

/-- `InIterator`; a call edge is in no list of input edges. -/
def ins (b : Fin n) : List (Fin m) :=
  ((List.finRange m).filter fun e => g.kind e ≠ .call ∧ g.target e = b).reverse

/-- The items of a `Predecessor`. -/
def predecessors (b : Fin n) : List (Fin n) := ((g.ins b).filter fun e => g.kind e ≠ .call).map g.source
/-- The items of a `Successor`. -/
def successors (b : Fin n) : List (Fin n) := ((g.outs b).filter fun e => g.kind e ≠ .call).map g.target

def Flow (a b : Fin n) : Prop := ∃ e, g.kind e ≠ .call ∧ g.source e = a ∧ g.target e = b

@[simp] theorem mem_blocks (b : Fin n) : b ∈ g.blocks := List.mem_finRange b
@[simp] theorem mem_outs {b : Fin n} {e : Fin m} : e ∈ g.outs b ↔ g.source e = b := by simp [outs]
@[simp] theorem mem_ins {b : Fin n} {e : Fin m} : e ∈ g.ins b ↔ g.kind e ≠ .call ∧ g.target e = b := by simp [ins]

theorem mem_predecessors {a b : Fin n} : a ∈ g.predecessors b ↔ g.Flow a b := by
  simp only [predecessors,List.mem_map,List.mem_filter,mem_ins,decide_eq_true_eq,Flow]
  constructor
  · rintro ⟨e,⟨⟨flow,target⟩,_⟩,source⟩; exact ⟨e,flow,source,target⟩
  · rintro ⟨e,flow,source,target⟩; exact ⟨e,⟨⟨flow,target⟩,flow⟩,source⟩

theorem mem_successors {a b : Fin n} : b ∈ g.successors a ↔ g.Flow a b := by
  simp only [successors,List.mem_map,List.mem_filter,mem_outs,decide_eq_true_eq,Flow]
  constructor
  · rintro ⟨e,⟨source,flow⟩,target⟩; exact ⟨e,flow,source,target⟩
  · rintro ⟨e,flow,source,target⟩; exact ⟨e,⟨source,flow⟩,target⟩

theorem nodup_outs (b : Fin n) : (g.outs b).Nodup := List.nodup_reverse.mpr ((List.nodup_finRange m).filter _)
theorem nodup_ins (b : Fin n) : (g.ins b).Nodup := List.nodup_reverse.mpr ((List.nodup_finRange m).filter _)

/-- Every path of non-call edges from the entry to b goes through a. -/
def Dominates (a b : Fin n) : Prop := FlowGraph.Dominates g.Flow g.entry a b
/-- There is a path of non-call edges from the entry. -/
def Reachable (b : Fin n) : Prop := FlowGraph.Reachable g.Flow g.entry b

end CFG

theorem neZero_two : NeZero 2 := ⟨Nat.succ_ne_zero 1⟩
theorem neZero_three : NeZero 3 := ⟨Nat.succ_ne_zero 2⟩
theorem neZero_four : NeZero 4 := ⟨Nat.succ_ne_zero 3⟩
theorem neZero_five : NeZero 5 := ⟨Nat.succ_ne_zero 4⟩
theorem neZero_six : NeZero 6 := ⟨Nat.succ_ne_zero 5⟩
theorem neZero_ten : NeZero 10 := ⟨Nat.succ_ne_zero 9⟩

end Otawa.Cfg
