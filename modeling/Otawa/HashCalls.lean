import Otawa.HashMaps
import Otawa.Runs

/-!
Runs of calls on a hash table: whatever nodes the look-ups move, the answers are those of a map
from keys to values.
-/
namespace Otawa.Hashing
open Otawa.Runs (attempts answers attempts_eq)

variable {K T : Type}

/-- The calls of `HashTable`; `add` is made by `put`. -/
inductive Call (K T : Type) where
  | put (key : K) (value : T)
  | get (key : K) (default : T)
  | hasKey (key : K)
  | remove (key : K)
  | clear

inductive Answer (T : Type) where
  | nothing
  | value (v : T)
  | exists (b : Bool)

def Call.run (H : Hash K) (h : HashTable K T) : Call K T → Option (Answer T × HashTable K T)
  | put key value => (Hashing.put H h key value).map (.nothing,·)
  | get key default => (Hashing.get H h key default).map fun (v,h) => (.value v,h)
  | hasKey key => (Hashing.hasKey H h key).map fun (b,h) => (.exists b,h)
  | remove key => (Hashing.remove H h key).map (.nothing,·)
  | clear => some (.nothing,Hashing.clear h)

/-- What the call does with a map. -/
def Call.model [DecidableEq K] (content : K → Option T) : Call K T → Answer T × (K → Option T)
  | put key value => (.nothing,Function.update content key (some value))
  | get key default => (.value ((content key).getD default),content)
  | hasKey key => (.exists (content key).isSome,content)
  | remove key => (.nothing,Function.update content key none)
  | clear => (.nothing,fun _ => none)

section
variable {H : Hash K} {h h' : HashTable K T} {chains chains' : Nat → List Nat} {content : K → Option T}

theorem Placed.fewer (placed : Placed H h chains) (ok : Chains h' chains') (size : h'.size = h.size) (keys : h'.key = h.key)
    (subset : ∀ i < h.size, chains' i ⊆ chains i) : Placed H h' chains' where
  toChains := ok
  positive := by rw [size]; exact placed.positive
  own i inside n member := by
    rw [size] at inside ⊢
    rw [keys]
    exact placed.own i inside n (subset i inside member)
  distinct i inside n member m memberM same := by
    rw [size] at inside
    rw [keys] at same
    exact placed.distinct i inside n (subset i inside member) m (subset i inside memberM) same

theorem Maps.remove [DecidableEq K] (lawful : H.Lawful) (maps : Maps H h content) (key : K) :
    ∃ h', remove H h key = some h' ∧ Maps H h' (Function.update content key none) := by
  obtain ⟨chains,placed,known⟩ := maps
  obtain ⟨h',removed,size,keys,value,ok⟩ := placed.toChains.remove (H := H) placed.positive key
  generalize left : Function.update chains (H.hash key % h.size) _ = chains' at ok
  -- the nodes that stay are those with another key
  have stays (i n : Nat) (inside : i < h.size) : n ∈ chains' i ↔ n ∈ chains i ∧ h.key n ≠ key := by
    have found := @placed.foundIn_iff _ _ _ _ _ key lawful
    rw [← left]
    by_cases here : i = H.hash key % h.size
    · subst here
      rw [Function.update_self]
      cases looked : foundIn H h key (chains (H.hash key % h.size)) with
      | none =>
        refine (and_iff_left_of_imp fun member same => ?_).symm
        rw [(found.mpr ⟨member,same⟩)] at looked
        cases looked
      | some node =>
        rw [Option.elim_some,(placed.nodup _ inside).mem_erase_iff,and_comm]
        refine and_congr_right fun member => not_congr ⟨fun same => same ▸ (found.mp looked).2,fun same => ?_⟩
        exact Option.some.inj ((found.mpr ⟨member,same⟩).symm.trans looked)
    · rw [Function.update_of_ne here]
      exact (and_iff_left_of_imp fun member same => here (same ▸ placed.own i inside n member).symm).symm
  have placed' : Placed H h' chains' :=
    placed.fewer ok size keys fun i inside n member => ((stays i n inside).mp member).1
  refine ⟨h',removed,chains',placed',fun other => ?_⟩
  have same : foundIn H h' other (chains' (H.hash other % h'.size)) =
      if other = key then none else foundIn H h other (chains (H.hash other % h.size)) := by
    apply Option.ext
    intro n
    rw [placed'.foundIn_iff lawful,size,keys,stays _ n (placed.inside other)]
    split
    · rename_i same
      subst same
      simp
    · rename_i differ
      rw [placed.foundIn_iff lawful]
      exact ⟨fun ⟨both,is⟩ => ⟨both.1,is⟩,fun ⟨member,is⟩ => ⟨⟨member,is ▸ differ⟩,is⟩⟩
  rw [same,value]
  by_cases here : other = key
  · rw [if_pos here,here,Function.update_self,Option.map_none]
  · rw [if_neg here,Function.update_of_ne here]
    exact known other

theorem Maps.clear (maps : Maps H h content) : Maps H (clear h) fun _ => none := by
  obtain ⟨chains,placed,-⟩ := maps
  exact ⟨fun _ => [],⟨⟨fun _ _ => rfl,fun _ _ => List.nodup_nil,by simp,by simp⟩,placed.positive,by simp,by simp⟩,fun _ => rfl⟩

theorem Maps.call [DecidableEq K] (lawful : H.Lawful) (maps : Maps H h content) (call : Call K T) :
    ∃ h', call.run H h = some ((call.model content).1,h') ∧ Maps H h' (call.model content).2 := by
  cases call with
  | put key value =>
    obtain ⟨h',done,maps'⟩ := maps.put lawful key value
    exact ⟨h',by rw [Call.run,done]; rfl,maps'⟩
  | get key default =>
    obtain ⟨h',done,maps'⟩ := maps.get lawful key default
    exact ⟨h',by rw [Call.run,done]; rfl,maps'⟩
  | hasKey key =>
    obtain ⟨h',done,maps'⟩ := maps.hasKey lawful key
    exact ⟨h',by rw [Call.run,done]; rfl,maps'⟩
  | remove key =>
    obtain ⟨h',done,maps'⟩ := maps.remove lawful key
    exact ⟨h',by rw [Call.run,done]; rfl,maps'⟩
  | clear => exact ⟨_,rfl,maps.clear⟩

end

/-- A table with buckets answers every sequence of calls as a map does. -/
theorem calls_as_map [DecidableEq K] {H : Hash K} (lawful : H.Lawful) {size : Nat} (positive : size ≠ 0) (key : Nat → K)
    (value : Nat → T) (calls : List (Call K T)) :
    attempts (Call.run H) (create size key value) calls = some (answers Call.model (fun _ => none) calls) :=
  attempts_eq (Maps H) (fun _ _ call maps (_ : True) (_ : True) => maps.call lawful call)
    (maps_create H positive key value) (fun _ _ => trivial) fun _ _ => trivial

/-- Two keys in one bucket, the first one removed behind the second one. -/
theorem calls_as_map_ints : attempts (Call.run ints) (create 1 id id) [.put 1 7,.put 2 8,.remove 1,.get 2 0,.hasKey 1] =
    some (answers Call.model (fun _ => none) [.put 1 7,.put 2 8,.remove 1,.get 2 0,.hasKey 1]) :=
  calls_as_map (fun a b => beq_iff_eq) (by decide) id id _

end Otawa.Hashing
