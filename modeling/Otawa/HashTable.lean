import Otawa.LinkedList
import Mathlib.Data.List.Perm.Subperm
import Mathlib.Data.List.Range

/-!
The hash table of `elm::genstruct` and its iterators. A look-up moves the node that it finds
to the front of its bucket. An iteration visits each item once if the look-ups made on the
way find no node behind the one of the iterator, and not this one unless it is the first of
its bucket; else it may visit items again, forever.
-/
namespace Otawa.Hashing
open Otawa.LinkedList (Chain walk)

variable {K T : Type}

/-- `HashTable`; a node is a number, smaller than `nodes` when it was allocated. -/
structure HashTable (K T : Type) where
  size : Nat
  tab : Nat → Option Nat
  nodes : Nat
  next : Nat → Option Nat
  key : Nat → K
  value : Nat → T

/-- The functions of the parameter `H`. -/
structure Hash (K : Type) where
  hash : K → Nat
  equals : K → K → Bool

section
variable (H : Hash K)

/-- The loop of `find` and `remove`: the node of a key and the one before it, for some turns. -/
def search (h : HashTable K T) (key : K) : Nat → Option Nat → Option Nat → Option (Option (Nat × Option Nat))
  | 0, _, _ => none
  | _ + 1, none, _ => some none
  | turns + 1, some node, prev =>
    if H.equals (h.key node) key then some (some (node,prev)) else search h key turns (h.next node) (some node)

def bucket (h : HashTable K T) (key : K) : Option Nat := if h.size = 0 then none else some (H.hash key % h.size)

def find (h : HashTable K T) (key : K) : Option (Option Nat × HashTable K T) :=
  (bucket H h key).bind fun i => (search H h key (h.nodes + 1) (h.tab i) none).map fun
    | none => (none,h)
    | some (node,none) => (some node,h)
    | some (node,some prev) =>
      (some node,{ h with
        next := Function.update (Function.update h.next prev (h.next node)) node (h.tab i)
        tab := Function.update h.tab i (some node) })

def add (h : HashTable K T) (key : K) (value : T) : Option (HashTable K T) :=
  (bucket H h key).map fun i =>
    { h with
      nodes := h.nodes + 1
      next := Function.update h.next h.nodes (h.tab i)
      tab := Function.update h.tab i (some h.nodes)
      key := Function.update h.key h.nodes key
      value := Function.update h.value h.nodes value }

def put (h : HashTable K T) (key : K) (value : T) : Option (HashTable K T) :=
  (find H h key).bind fun
    | (some node,h) => some { h with value := Function.update h.value node value }
    | (none,h) => add H h key value

def remove (h : HashTable K T) (key : K) : Option (HashTable K T) :=
  (bucket H h key).bind fun i => (search H h key (h.nodes + 1) (h.tab i) none).map fun
    | none => h
    | some (node,none) => { h with tab := Function.update h.tab i (h.next node) }
    | some (node,some prev) => { h with next := Function.update h.next prev (h.next node) }

def clear (h : HashTable K T) : HashTable K T := { h with tab := fun _ => none }

/-- A table of so many buckets; the keys and values of nodes that are not allocated are any ones. -/
def create (size : Nat) (key : Nat → K) (value : Nat → T) : HashTable K T := ⟨size,fun _ => none,0,fun _ => none,key,value⟩

inductive Op (K T : Type) where
  | put (key : K) (value : T)
  | add (key : K) (value : T)
  | remove (key : K)
  | clear
  | get (key : K)

def Op.apply (h : HashTable K T) : Op K T → Option (HashTable K T)
  | put key value => Hashing.put H h key value
  | add key value => Hashing.add H h key value
  | remove key => Hashing.remove H h key
  | clear => some (Hashing.clear h)
  | get key => (find H h key).map (·.2)

def chain (h : HashTable K T) (i : Nat) : List Nat := walk h.next h.nodes (h.tab i)

def keys (h : HashTable K T) : List K := ((List.range h.size).flatMap (chain h)).map h.key

/-! ### Iterators -/

/-- `InternIterator` on a table. -/
structure Cursor (K T : Type) where
  table : HashTable K T
  i : Nat
  node : Option Nat

/-- `step`: the first bucket that is not empty, and its first node. -/
def step (h : HashTable K T) (i : Nat) : Cursor K T :=
  if i < h.size then
    match h.tab i with
    | some node => ⟨h,i,some node⟩
    | none => step h (i + 1)
  else ⟨h,i,none⟩
termination_by h.size - i

def start (h : HashTable K T) : Cursor K T := step h 0

def Cursor.ended (c : Cursor K T) : Bool := c.table.size ≤ c.i

def Cursor.next (c : Cursor K T) : Option (Cursor K T) :=
  c.node.map fun node =>
    match c.table.next node with
    | some after => { c with node := some after }
    | none => step c.table (c.i + 1)

def lookups (h : HashTable K T) (wanted : List K) : Option (HashTable K T) :=
  wanted.foldlM (fun h key => (find H h key).map (·.2)) h

/-- The keys that an iterator visits, for some turns; look-ups are made at each node. -/
def iterate (wanted : Nat → List K) : Nat → Nat → Cursor K T → Option (List K)
  | 0, _, _ => none
  | turns + 1, time, c =>
    if c.ended then some []
    else c.node.bind fun node => (lookups H c.table (wanted time)).bind fun h =>
      (Cursor.next { c with table := h }).bind fun c =>
      (iterate wanted turns (time + 1) c).map (h.key node :: ·)

/-- A look-up finds no node of the bucket `i`, or its first node, or one before the given node. -/
def Spared (h : HashTable K T) (i node : Nat) (key : K) : Prop :=
  H.hash key % h.size = i → ∀ found, (chain h i).find? (fun n => H.equals (h.key n) key) = some found →
    (chain h i).head? = some found ∨ found ∈ (chain h i).takeWhile (· ≠ node)

def AllSpared (i node : Nat) : HashTable K T → List K → Prop
  | _, [] => True
  | h, key :: wanted => Spared H h i node key ∧ ∀ r h', find H h key = some (r,h') → AllSpared i node h' wanted

def SparedAlong (wanted : Nat → List K) : Nat → Nat → Cursor K T → Prop
  | 0, _, _ => True
  | turns + 1, time, c =>
    (∀ node, c.node = some node → AllSpared H c.i node c.table (wanted time)) ∧
      ∀ h c', lookups H c.table (wanted time) = some h → Cursor.next { c with table := h } = some c' →
        SparedAlong wanted turns (time + 1) c'

end

/-! ### The chains of the buckets -/

structure Chains (h : HashTable K T) (chains : Nat → List Nat) : Prop where
  linked : ∀ i < h.size, Chain h.next (h.tab i) (chains i)
  nodup : ∀ i < h.size, (chains i).Nodup
  apart : ∀ i < h.size, ∀ j < h.size, i ≠ j → ∀ n ∈ chains i, n ∉ chains j
  old : ∀ i < h.size, ∀ n ∈ chains i, n < h.nodes

section
variable {H : Hash K} {h h' : HashTable K T} {chains : Nat → List Nat} {i : Nat} {key : K}

theorem Chains.room (ok : Chains h chains) (inside : i < h.size) : (chains i).length ≤ h.nodes := by
  have subset : chains i ⊆ List.range h.nodes := fun n member => List.mem_range.mpr (ok.old i inside n member)
  have := ((ok.nodup i inside).subperm subset).length_le
  rwa [List.length_range] at this

theorem Chains.chain_eq (ok : Chains h chains) (inside : i < h.size) : chain h i = chains i :=
  (ok.linked i inside).walk_eq (ok.room inside)

theorem Chains.keys_eq (ok : Chains h chains) : keys h = ((List.range h.size).flatMap chains).map h.key := by
  rw [keys]
  congr 1
  exact List.flatMap_congr fun i member => ok.chain_eq (List.mem_range.mp member)

theorem search_spec (H : Hash K) (h : HashTable K T) (key : K) (nodes : List Nat) : ∀ (turns : Nat) (link prev : Option Nat), Chain h.next link nodes →
    nodes.length < turns →
    nodes.find? (fun n => H.equals (h.key n) key) = none ∧ search H h key turns link prev = some none ∨
      ∃ before node after, nodes = before ++ node :: after ∧
        nodes.find? (fun n => H.equals (h.key n) key) = some node ∧ node ∉ before ∧
        search H h key turns link prev = some (some (node,(before.getLast?).or prev)) := by
  induction nodes with
  | nil =>
    intro turns link prev linked enough
    obtain ⟨turns,rfl⟩ := Nat.exists_eq_succ_of_ne_zero (Nat.ne_zero_of_lt enough)
    obtain rfl : link = none := linked
    exact .inl ⟨rfl,rfl⟩
  | cons first rest ih =>
    intro turns link prev linked enough
    obtain ⟨turns,rfl⟩ := Nat.exists_eq_succ_of_ne_zero (Nat.ne_zero_of_lt enough)
    obtain ⟨rfl,linked⟩ := linked
    rw [search]
    by_cases same : H.equals (h.key first) key = true
    · rw [if_pos same]
      exact .inr ⟨[],first,rest,rfl,List.find?_cons_of_pos (p := fun n => H.equals (h.key n) key) same,List.not_mem_nil,rfl⟩
    · rw [if_neg same,List.find?_cons_of_neg (p := fun n => H.equals (h.key n) key) same]
      rcases ih turns (h.next first) (some first) linked (Nat.lt_of_succ_lt_succ enough) with
        absent | ⟨before,node,after,split,found,new,searched⟩
      · exact .inl absent
      · refine .inr ⟨first :: before,node,after,by rw [split,List.cons_append],found,?_,?_⟩
        · intro member
          rcases List.mem_cons.mp member with rfl | later
          · exact absurd (List.find?_some found) same
          · exact new later
        · rw [searched]
          cases before with
          | nil => rfl
          | cons second before =>
            obtain ⟨last,ends⟩ := Option.isSome_iff_exists.mp (List.getLast?_isSome.mpr (List.cons_ne_nil second before))
            simp [List.getLast?_cons,ends]

theorem Chains.replace (ok : Chains h chains) {b : Nat} {nodes : List Nat} (size : h'.size = h.size)
    (more : h.nodes ≤ h'.nodes) (linked : Chain h'.next (h'.tab b) nodes) (nodup : nodes.Nodup)
    (members : ∀ n ∈ nodes, (n ∈ chains b ∨ h.nodes ≤ n) ∧ n < h'.nodes) (inside : b < h.size)
    (tab : ∀ i, i ≠ b → h'.tab i = h.tab i) (next : ∀ n < h.nodes, n ∉ chains b → h'.next n = h.next n) :
    Chains h' (Function.update chains b nodes) := by
  have foreign : ∀ j < h.size, j ≠ b → ∀ n ∈ chains j, n ∉ nodes := by
    intro j insideJ other n member memberB
    rcases (members n memberB).1 with own | new
    · exact ok.apart j insideJ b inside other n member own
    · exact absurd (ok.old j insideJ n member) (Nat.not_lt.mpr new)
  constructor
  · intro i insideI
    rw [size] at insideI
    by_cases here : i = b
    · subst here
      rw [Function.update_self]
      exact linked
    · rw [Function.update_of_ne here,tab i here]
      refine (ok.linked i insideI).congr fun n member => next n (ok.old i insideI n member) ?_
      exact ok.apart i insideI b inside here n member
  · intro i insideI
    rw [size] at insideI
    by_cases here : i = b
    · subst here
      rwa [Function.update_self]
    · rw [Function.update_of_ne here]
      exact ok.nodup i insideI
  · intro i insideI j insideJ differ n
    rw [size] at insideI insideJ
    by_cases hereI : i = b
    · subst hereI
      rw [Function.update_self,Function.update_of_ne differ.symm]
      exact fun member memberJ => foreign j insideJ differ.symm n memberJ member
    · rw [Function.update_of_ne hereI]
      by_cases hereJ : j = b
      · subst hereJ
        rw [Function.update_self]
        exact foreign i insideI differ n
      · rw [Function.update_of_ne hereJ]
        exact ok.apart i insideI j insideJ differ n
  · intro i insideI n
    rw [size] at insideI
    by_cases here : i = b
    · subst here
      rw [Function.update_self]
      exact fun member => (members n member).2
    · rw [Function.update_of_ne here]
      exact fun member => (ok.old i insideI n member).trans_le more

def toFront (nodes : List Nat) : Option Nat → List Nat
  | none => nodes
  | some found => found :: nodes.erase found

theorem erase_middle {before after : List Nat} {node : Nat} (new : node ∉ before) :
    (before ++ node :: after).erase node = before ++ after := by
  rw [List.erase_append_right _ new,List.erase_cons_head]

theorem toFront_perm {nodes : List Nat} {found : Option Nat} (member : ∀ n, found = some n → n ∈ nodes) :
    (toFront nodes found).Perm nodes := by
  cases found with
  | none => exact .refl nodes
  | some n => exact (List.perm_cons_erase (member n rfl)).symm

def foundIn (H : Hash K) (h : HashTable K T) (key : K) (nodes : List Nat) : Option Nat :=
  nodes.find? fun n => H.equals (h.key n) key

theorem Chains.find (ok : Chains h chains) (positive : h.size ≠ 0) (key : K) :
    ∃ h', find H h key = some (foundIn H h key (chains (H.hash key % h.size)),h') ∧
      h'.size = h.size ∧ h'.key = h.key ∧ h'.nodes = h.nodes ∧
      Chains h' (Function.update chains (H.hash key % h.size)
        (toFront (chains (H.hash key % h.size)) (foundIn H h key (chains (H.hash key % h.size))))) := by
  have inside : H.hash key % h.size < h.size := Nat.mod_lt _ (Nat.pos_of_ne_zero positive)
  generalize place : H.hash key % h.size = b at inside
  have linked := ok.linked b inside
  have nodup := ok.nodup b inside
  have located : bucket H h key = some b := by rw [bucket,if_neg positive,place]
  rw [Hashing.find,located,Option.bind_some,foundIn]
  rcases search_spec H h key (chains b) (h.nodes + 1) (h.tab b) none linked
    (Nat.lt_succ_of_le (ok.room inside)) with ⟨absent,searched⟩ | ⟨before,node,after,split,found,new,searched⟩
  · refine ⟨h,by rw [searched,absent]; rfl,rfl,rfl,rfl,?_⟩
    rw [absent,toFront,Function.update_eq_self]
    exact ok
  rw [found,toFront,split,erase_middle new]
  rw [split] at linked nodup
  rcases List.eq_nil_or_concat before with rfl | ⟨front,prev,rfl⟩
  · refine ⟨h,by rw [searched]; rfl,rfl,rfl,rfl,?_⟩
    rw [List.nil_append] at split ⊢
    rw [← split,Function.update_eq_self]
    exact ok
  · rw [List.concat_eq_append,List.append_assoc,List.singleton_append] at linked nodup ⊢
    rw [List.concat_eq_append,List.getLast?_concat,Option.some_or] at searched
    refine ⟨{ h with
      next := Function.update (Function.update h.next prev (h.next node)) node (h.tab b)
      tab := Function.update h.tab b (some node) },by rw [searched]; rfl,rfl,rfl,rfl,?_⟩
    have members : ∀ n, n ∈ node :: (front ++ prev :: after) ↔ n ∈ chains b := by
      intro n
      rw [split]
      simp only [List.mem_cons,List.mem_append,List.concat_eq_append]
      tauto
    refine ok.replace rfl (Nat.le_refl _) ?_ ?_ (fun n member => ?_) inside (fun i other => ?_) fun n _ foreign => ?_
    · dsimp only
      rw [Function.update_self]
      exact linked.front nodup
    · have middle : (front ++ [prev] ++ node :: after).Nodup := by simpa using nodup
      simpa using List.perm_middle.nodup_iff.mp middle
    · have own := (members n).mp member
      exact ⟨.inl own,ok.old b inside n own⟩
    · exact Function.update_of_ne other ..
    · have apart : n ≠ node ∧ n ≠ prev := by
        rw [split] at foreign
        simp only [List.concat_eq_append,List.mem_append,List.mem_cons,List.not_mem_nil] at foreign
        tauto
      dsimp only
      rw [Function.update_of_ne apart.1,Function.update_of_ne apart.2]

theorem takeWhile_before {before after : List Nat} {node : Nat} (new : node ∉ before) :
    (before ++ node :: after).takeWhile (· ≠ node) = before := by
  rw [List.takeWhile_append_of_pos fun a member => decide_eq_true (ne_of_mem_of_not_mem member new),
    List.takeWhile_cons_of_neg (by simp),List.append_nil]

theorem Spared.keeps {node : Nat} {before after : List Nat} (spared : Spared H h i node key) (ok : Chains h chains)
    (inside : i < h.size) (split : chains i = before ++ node :: after) :
    ∃ before', Function.update chains (H.hash key % h.size) (toFront (chains (H.hash key % h.size))
      (foundIn H h key (chains (H.hash key % h.size)))) i = before' ++ node :: after := by
  by_cases here : H.hash key % h.size = i
  case neg => exact ⟨before,by rw [Function.update_of_ne (Ne.symm here),split]⟩
  rw [here,Function.update_self]
  cases result : foundIn H h key (chains i) with
  | none => exact ⟨before,split⟩
  | some found =>
    have new : node ∉ before := by
      have nodup := ok.nodup i inside
      rw [split,List.nodup_append] at nodup
      exact fun member => nodup.2.2 node member node List.mem_cons_self rfl
    have place := spared here found (by rw [ok.chain_eq inside]; exact result)
    rw [ok.chain_eq inside,split,takeWhile_before new] at place
    rw [toFront,split]
    by_cases earlier : found ∈ before
    · exact ⟨found :: before.erase found,by rw [List.erase_append_left _ earlier,List.cons_append]⟩
    · -- the first node of the bucket, which is the one of the iterator
      have first := place.resolve_right earlier
      cases before with
      | nil =>
        obtain rfl : node = found := Option.some.inj first
        exact ⟨[],by simp⟩
      | cons other before =>
        obtain rfl : other = found := Option.some.inj first
        exact absurd List.mem_cons_self earlier

theorem foundIn_mem {nodes : List Nat} {n : Nat} (found : foundIn H h key nodes = some n) : n ∈ nodes :=
  List.mem_of_find?_eq_some found

structure Same (h h' : HashTable K T) (chains chains' : Nat → List Nat) : Prop where
  size : h'.size = h.size
  key : h'.key = h.key
  ok : Chains h' chains'
  perm : ∀ j, (chains' j).Perm (chains j)

theorem AllSpared.keeps {node : Nat} : ∀ {wanted : List K} {h : HashTable K T} {chains : Nat → List Nat}
    {before after : List Nat}, AllSpared H i node h wanted → Chains h chains → i < h.size →
    chains i = before ++ node :: after →
    ∃ h' chains' before', lookups H h wanted = some h' ∧ Same h h' chains chains' ∧ chains' i = before' ++ node :: after := by
  intro wanted
  induction wanted with
  | nil =>
    intro h chains before after _ ok _ split
    exact ⟨h,chains,before,rfl,⟨rfl,rfl,ok,fun j => .refl _⟩,split⟩
  | cons key wanted ih =>
    intro h chains before after spared ok inside split
    obtain ⟨h₁,found,size,keys,-,ok₁⟩ := ok.find (H := H) (Nat.ne_zero_of_lt inside) key
    obtain ⟨before₁,split₁⟩ := spared.1.keeps ok inside split
    obtain ⟨h',chains',before',looked,same,split'⟩ := ih (spared.2 _ h₁ found) ok₁ (size ▸ inside) split₁
    refine ⟨h',chains',before',?_,⟨same.size.trans size,same.key.trans keys,same.ok,fun j => (same.perm j).trans ?_⟩,split'⟩
    · rw [lookups] at looked ⊢
      rw [List.foldlM_cons,found]
      exact looked
    · by_cases here : j = H.hash key % h.size
      · rw [here,Function.update_self]
        exact toFront_perm fun n found => foundIn_mem found
      · rw [Function.update_of_ne here]

def nodesFrom (h : HashTable K T) (chains : Nat → List Nat) (i : Nat) : List Nat :=
  (List.range' i (h.size - i)).flatMap chains

theorem nodesFrom_cons (inside : i < h.size) : nodesFrom h chains i = chains i ++ nodesFrom h chains (i + 1) := by
  rw [nodesFrom,nodesFrom,show h.size - i = h.size - (i + 1) + 1 by omega,List.range'_succ,List.flatMap_cons]

theorem Same.nodesFrom {chains' : Nat → List Nat} (same : Same h h' chains chains') (i : Nat) :
    (nodesFrom h' chains' i).Perm (nodesFrom h chains i) := by
  rw [Hashing.nodesFrom,Hashing.nodesFrom,same.size]
  exact List.Perm.flatMap_left _ fun j _ => same.perm j

theorem step_spec (ok : Chains h chains) : ∀ n i, h.size - i = n →
    (step h i).ended = true ∧ nodesFrom h chains i = [] ∨
      ∃ j node rest, step h i = ⟨h,j,some node⟩ ∧ j < h.size ∧ chains j = node :: rest ∧
        nodesFrom h chains i = node :: (rest ++ nodesFrom h chains (j + 1)) := by
  intro n
  induction n with
  | zero =>
    intro i size
    refine .inl ⟨?_,by rw [nodesFrom,size]; rfl⟩
    rw [step,if_neg (by omega)]
    exact decide_eq_true (show h.size ≤ i by omega)
  | succ n ih =>
    intro i size
    have inside : i < h.size := by omega
    have linked := ok.linked i inside
    rw [step,if_pos inside,nodesFrom_cons inside]
    cases nodes : chains i with
    | nil =>
      rw [nodes] at linked
      rw [show h.tab i = none from linked]
      exact ih (i + 1) (by omega)
    | cons node rest =>
      rw [nodes] at linked
      rw [linked.1]
      exact .inr ⟨i,node,rest,rfl,inside,nodes,rfl⟩

theorem iterate_spec {wanted : Nat → List K} : ∀ (m time : Nat) (h : HashTable K T) (chains : Nat → List Nat) (i node : Nat)
    (before after : List Nat), Chains h chains → i < h.size → chains i = before ++ node :: after →
    (after ++ nodesFrom h chains (i + 1)).length = m → (∀ turns, SparedAlong H wanted turns time ⟨h,i,some node⟩) →
    ∃ visited, iterate H wanted (m + 2) time ⟨h,i,some node⟩ = some visited ∧
      visited.Perm ((node :: (after ++ nodesFrom h chains (i + 1))).map h.key) := by
  intro m
  induction m using Nat.strongRecOn with
  | ind m ih =>
    intro time h chains i node before after ok inside split size along
    obtain ⟨h',chains',before',looked,same,split'⟩ := ((along 1).1 node rfl).keeps ok inside split
    have more : ∀ c', Cursor.next { table := h', i := i, node := some node } = some c' →
        ∀ turns, SparedAlong H wanted turns (time + 1) c' := fun c' next turns => (along (turns + 1)).2 h' c' looked next
    have inside' : i < h'.size := same.size ▸ inside
    have linked := same.ok.linked i inside'
    rw [split'] at linked
    have later := same.nodesFrom (i + 1)
    have notEnded : (⟨h,i,some node⟩ : Cursor K T).ended = false := decide_eq_false (Nat.not_le.mpr inside)
    rw [iterate,notEnded]
    simp only [Bool.false_eq_true,if_false,Option.bind_some,looked]
    have behind : Chain h'.next (h'.next node) after := linked.suffix
    -- the rest of the iteration visits what is behind
    have finish : ∀ (c' : Cursor K T) (nodes : List Nat), Cursor.next ⟨h',i,some node⟩ = some c' →
        nodes.Perm (after ++ nodesFrom h chains (i + 1)) →
        (∃ visited, iterate H wanted (m + 1) (time + 1) c' = some visited ∧ visited.Perm (nodes.map h'.key)) →
        ∃ visited, ((Cursor.next ⟨h',i,some node⟩).bind fun c => (iterate H wanted (m + 1) (time + 1) c).map
            (h'.key node :: ·)) = some visited ∧
          visited.Perm ((node :: (after ++ nodesFrom h chains (i + 1))).map h.key) := by
      rintro c' nodes next perm ⟨visited,rest,all⟩
      refine ⟨h'.key node :: visited,by rw [next,Option.bind_some,rest]; rfl,?_⟩
      rw [List.map_cons,same.key]
      refine .cons _ (all.trans ?_)
      rw [same.key]
      exact perm.map h.key
    cases after with
    | cons second after =>
      have next : Cursor.next ⟨h',i,some node⟩ = some ⟨h',i,some second⟩ := by
        rw [Cursor.next,Option.map_some]
        dsimp only
        rw [behind.1]
      have length := (later.append_left (second :: after)).length_eq
      refine finish _ _ next (later.append_left (second :: after)) ?_
      obtain ⟨visited,rest,all⟩ := ih (m - 1) (by simp at size; omega) (time + 1) h' chains' i second (before' ++ [node]) after same.ok
        inside' (by rw [split']; simp) (by simp at size length ⊢; omega) (more _ next)
      refine ⟨visited,?_,all⟩
      rw [← rest]
      congr 1
      simp at size
      omega
    | nil =>
      rw [List.nil_append] at size finish ⊢
      have next : Cursor.next ⟨h',i,some node⟩ = some (step h' (i + 1)) := by
        rw [Cursor.next,Option.map_some]
        dsimp only
        rw [show h'.next node = none from behind]
      rcases step_spec same.ok _ (i + 1) rfl with ⟨ended,none⟩ | ⟨j,second,rest,stepped,insideJ,chainJ,nodes⟩
      · refine finish _ [] next (none ▸ later) ⟨[],?_,.refl _⟩
        rw [iterate,ended]
        rfl
      · have length := later.length_eq
        rw [nodes] at length
        refine finish _ _ next later ?_
        rw [stepped,nodes]
        obtain ⟨visited,ended,all⟩ := ih (m - 1) (by simp at length; omega) (time + 1) h' chains' j second [] rest same.ok insideJ chainJ
          (by simp at length ⊢; omega) (by rw [← stepped]; exact more _ next)
        refine ⟨visited,?_,all⟩
        rw [← ended]
        congr 1
        simp at length
        omega

theorem bucket_some {b : Nat} (located : bucket H h key = some b) : h.size ≠ 0 ∧ H.hash key % h.size = b ∧ b < h.size := by
  rw [bucket] at located
  split at located
  · cases located
  · rename_i positive
    obtain rfl := Option.some.inj located
    exact ⟨positive,rfl,Nat.mod_lt _ (Nat.pos_of_ne_zero positive)⟩

theorem Chains.front {value : T} (ok : Chains h chains) {b : Nat} (inside : b < h.size) :
    Chains { h with
      nodes := h.nodes + 1
      next := Function.update h.next h.nodes (h.tab b)
      tab := Function.update h.tab b (some h.nodes)
      key := Function.update h.key h.nodes key
      value := Function.update h.value h.nodes value } (Function.update chains b (h.nodes :: chains b)) := by
  have new : h.nodes ∉ chains b := fun member => Nat.lt_irrefl _ (ok.old b inside _ member)
  refine ok.replace rfl (Nat.le_succ _) ?_ (List.nodup_cons.mpr ⟨new,ok.nodup b inside⟩) (fun n member => ?_) inside
    (fun i other => ?_) fun n old _ => ?_
  · dsimp only
    rw [Function.update_self]
    refine ⟨rfl,?_⟩
    rw [Function.update_self]
    exact (ok.linked b inside).update new _
  · rcases List.mem_cons.mp member with rfl | own
    · exact ⟨.inr (Nat.le_refl _),Nat.lt_succ_self _⟩
    · exact ⟨.inl own,Nat.lt_succ_of_lt (ok.old b inside n own)⟩
  · exact Function.update_of_ne other ..
  · exact Function.update_of_ne (Nat.ne_of_lt old) ..

theorem Chains.add {value : T} (ok : Chains h chains) (added : add H h key value = some h') :
    ∃ chains', Chains h' chains' := by
  obtain ⟨b,located,rfl⟩ := Option.map_eq_some_iff.mp added
  exact ⟨_,ok.front (bucket_some located).2.2⟩

theorem Chains.remove (ok : Chains h chains) (positive : h.size ≠ 0) (key : K) :
    ∃ h', remove H h key = some h' ∧ h'.size = h.size ∧ h'.key = h.key ∧ h'.value = h.value ∧
      Chains h' (Function.update chains (H.hash key % h.size)
        ((foundIn H h key (chains (H.hash key % h.size))).elim (chains (H.hash key % h.size)) (chains (H.hash key % h.size)).erase)) := by
  have inside : H.hash key % h.size < h.size := Nat.mod_lt _ (Nat.pos_of_ne_zero positive)
  generalize place : H.hash key % h.size = b at inside
  have linked := ok.linked b inside
  have nodup := ok.nodup b inside
  have located : bucket H h key = some b := by rw [bucket,if_neg positive,place]
  rw [Hashing.remove,located,Option.bind_some,foundIn]
  rcases search_spec H h key (chains b) (h.nodes + 1) (h.tab b) none linked
    (Nat.lt_succ_of_le (ok.room inside)) with ⟨absent,searched⟩ | ⟨before,node,after,split,found,new,searched⟩
  · refine ⟨h,by rw [searched]; rfl,rfl,rfl,rfl,?_⟩
    rw [absent,Option.elim_none,Function.update_eq_self]
    exact ok
  have members : ∀ n ∈ before ++ after, (n ∈ chains b ∨ h.nodes ≤ n) ∧ n < h.nodes := by
    intro n member
    have own : n ∈ chains b := by
      rw [split,List.mem_append,List.mem_cons]
      rcases List.mem_append.mp member with first | last
      · exact .inl first
      · exact .inr (.inr last)
    exact ⟨.inl own,ok.old b inside n own⟩
  rw [found,Option.elim_some,split,erase_middle new]
  rw [split] at linked nodup
  have fewer : (before ++ after).Nodup := nodup.sublist (List.Sublist.append_left (List.sublist_cons_self node after) before)
  rcases List.eq_nil_or_concat before with rfl | ⟨front,prev,rfl⟩
  · rw [searched]
    refine ⟨_,rfl,rfl,rfl,rfl,?_⟩
    refine ok.replace rfl (Nat.le_refl _) ?_ fewer members inside (fun i other => Function.update_of_ne other ..) fun _ _ _ => rfl
    change Chain h.next (Function.update h.tab b (h.next node) b) after
    rw [Function.update_self]
    exact linked.2
  · rw [List.concat_eq_append,List.getLast?_concat,Option.some_or] at searched
    rw [searched]
    refine ⟨_,rfl,rfl,rfl,rfl,?_⟩
    refine ok.replace rfl (Nat.le_refl _) ?_ fewer members inside (fun _ _ => rfl) fun n _ foreign => ?_
    · rw [List.concat_eq_append,List.append_assoc,List.singleton_append] at linked nodup ⊢
      exact linked.unlink nodup
    · have apart : n ≠ prev := by
        rintro rfl
        exact foreign (by rw [split]; simp)
      exact Function.update_of_ne apart ..

theorem Op.keeps {op : Op K T} (ok : Chains h chains) (applied : op.apply H h = some h') : ∃ chains', Chains h' chains' := by
  cases op with
  | put key value =>
    obtain ⟨⟨result,h₁⟩,found,rest⟩ := Option.bind_eq_some_iff.mp applied
    obtain ⟨b,located,-⟩ := Option.bind_eq_some_iff.mp found
    obtain ⟨h₂,found',-,-,-,ok₂⟩ := ok.find (H := H) (bucket_some located).1 key
    obtain ⟨rfl,rfl⟩ := Prod.mk.inj (Option.some.inj (found.symm.trans found'))
    generalize foundIn H h key (chains (H.hash key % h.size)) = result at rest
    cases result with
    | some node =>
      obtain rfl := Option.some.inj rest
      exact ⟨_,ok₂.linked,ok₂.nodup,ok₂.apart,ok₂.old⟩
    | none => exact ok₂.add rest
  | add key value => exact ok.add applied
  | remove key =>
    obtain ⟨b,located,-⟩ := Option.bind_eq_some_iff.mp applied
    obtain ⟨h₂,removed,-,-,-,ok₂⟩ := ok.remove (H := H) (bucket_some located).1 key
    obtain rfl := Option.some.inj (applied.symm.trans removed)
    exact ⟨_,ok₂⟩
  | clear =>
    obtain rfl := Option.some.inj applied
    exact ⟨fun _ => [],fun _ _ => rfl,fun _ _ => List.nodup_nil,by simp,by simp⟩
  | get key =>
    obtain ⟨⟨result,h₁⟩,found,same⟩ := Option.map_eq_some_iff.mp applied
    obtain rfl : h₁ = h' := same
    obtain ⟨b,located,-⟩ := Option.bind_eq_some_iff.mp found
    obtain ⟨h₂,found',-,-,-,ok₂⟩ := ok.find (H := H) (bucket_some located).1 key
    obtain ⟨-,rfl⟩ := Prod.mk.inj (Option.some.inj (found.symm.trans found'))
    exact ⟨_,ok₂⟩

end

/-- The tables that operations make from an empty one. -/
def build (H : Hash K) (size : Nat) (key : Nat → K) (value : Nat → T) (ops : List (Op K T)) : Option (HashTable K T) :=
  ops.foldlM (fun h op => op.apply H h) (create size key value)

theorem chains_build {H : Hash K} {size : Nat} {key : Nat → K} {value : Nat → T} {ops : List (Op K T)} {h : HashTable K T}
    (built : build H size key value ops = some h) : ∃ chains, Chains h chains := by
  have start : ∃ chains, Chains (create size key value) chains :=
    ⟨fun _ => [],fun _ _ => rfl,fun _ _ => List.nodup_nil,by simp,by simp⟩
  rw [build] at built
  generalize create size key value = h₀ at start built
  induction ops generalizing h₀ with
  | nil =>
    obtain rfl := Option.some.inj built
    exact start
  | cons op ops ih =>
    obtain ⟨chains,ok⟩ := start
    rw [List.foldlM_cons] at built
    obtain ⟨h₁,applied,rest⟩ := Option.bind_eq_some_iff.mp built
    exact ih h₁ (Op.keeps ok applied) rest

/-- An iteration with look-ups that are spared ends, and visits each key as often as it is in the table. -/
theorem iterate_visits (H : Hash K) (size : Nat) (key : Nat → K) (value : Nat → T) (ops : List (Op K T)) (h : HashTable K T)
    (built : build H size key value ops = some h) (wanted : Nat → List K)
    (spared : ∀ turns, SparedAlong H wanted turns 0 (start h)) :
    ∃ turns visited, iterate H wanted turns 0 (start h) = some visited ∧ visited.Perm (keys h) ∧
      ((keys h).Nodup → visited.Nodup) := by
  obtain ⟨chains,ok⟩ := chains_build built
  have all : keys h = (nodesFrom h chains 0).map h.key := by rw [ok.keys_eq,nodesFrom,Nat.sub_zero,List.range_eq_range']
  rw [start] at spared ⊢
  rcases step_spec ok _ 0 rfl with ⟨ended,none⟩ | ⟨j,node,rest,stepped,inside,nodes,perm⟩
  · exact ⟨1,[],by rw [iterate,ended]; rfl,by rw [all,none]; exact .refl _,fun _ => List.nodup_nil⟩
  · rw [stepped] at spared ⊢
    obtain ⟨visited,ended,visits⟩ := iterate_spec _ 0 h chains j node [] rest ok inside nodes rfl spared
    rw [← perm,← all] at visits
    exact ⟨_,visited,ended,visits,fun distinct => visits.nodup_iff.mpr distinct⟩

def ints : Hash Nat := ⟨id,fun a b => a == b⟩

def twoKeys : HashTable Nat Unit := (build ints 1 id (fun _ => ()) [.put 1 (),.put 2 ()]).get rfl

theorem build_twoKeys : build ints 1 id (fun _ => ()) [.put 1 (),.put 2 ()] = some twoKeys := rfl

theorem start_twoKeys : start twoKeys = ⟨twoKeys,0,some 1⟩ := by
  rw [start,step]
  rfl

/-- The key of the first node is looked up at each node. -/
theorem iterate_visits_twoKeys : ∃ turns visited, iterate ints (fun _ => [2]) turns 0 (start twoKeys) = some visited ∧
    visited.Perm (keys twoKeys) ∧ ((keys twoKeys).Nodup → visited.Nodup) := by
  refine iterate_visits ints 1 id (fun _ => ()) [.put 1 (),.put 2 ()] twoKeys build_twoKeys (fun _ => [2]) fun turns => ?_
  have spared (node : Nat) : AllSpared ints 0 node twoKeys [2] :=
    ⟨fun _ found same => .inl same,fun _ _ _ => trivial⟩
  have looked {h : HashTable Nat Unit} (looked : lookups ints twoKeys [2] = some h) : h = twoKeys :=
    (Option.some.inj looked).symm
  have last : Cursor.next ⟨twoKeys,0,some 0⟩ = some ⟨twoKeys,1,none⟩ := by
    change some (step twoKeys 1) = _
    rw [step]
    rfl
  rw [start_twoKeys]
  cases turns with
  | zero => trivial
  | succ turns =>
    refine ⟨fun node _ => spared node,fun h c looked₁ next => ?_⟩
    obtain rfl := looked looked₁
    obtain rfl : (⟨twoKeys,0,some 0⟩ : Cursor Nat Unit) = c := Option.some.inj next
    cases turns with
    | zero => trivial
    | succ turns =>
      refine ⟨fun node _ => spared node,fun h c looked₂ next => ?_⟩
      obtain rfl := looked looked₂
      obtain rfl := Option.some.inj (last.symm.trans next)
      cases turns with
      | zero => trivial
      | succ turns => exact ⟨fun node there => absurd there (by simp),fun h c _ next => absurd next (by simp [Cursor.next])⟩

/-- When each key of a bucket of two is looked up as it is visited, the iteration does not end. -/
theorem endless (H : Hash K) (wanted : Nat → List K) : ∀ (turns time : Nat) {h : HashTable K T} {chains : Nat → List Nat}
    {x y : Nat}, Chains h chains → h.size = 1 → chains 0 = [x,y] → H.equals (h.key x) (h.key y) = false →
    H.equals (h.key y) (h.key y) = true → H.equals (h.key y) (h.key x) = false → H.equals (h.key x) (h.key x) = true →
    (∀ s, wanted (time + 2 * s) = [h.key y] ∧ wanted (time + 2 * s + 1) = [h.key x]) →
    iterate H wanted turns time ⟨h,0,some y⟩ = none := by
  intro turns
  induction turns with
  | zero => intro time h chains x y _ _ _ _ _ _ _ _; rfl
  | succ turns ih =>
    intro time h chains x y ok size pair other self other' self' looked
    obtain ⟨h',found,size',keys',-,ok'⟩ := ok.find (H := H) (by omega) (h.key y)
    rw [size,Nat.mod_one] at found ok'
    have second : foundIn H h (h.key y) (chains 0) = some y := by simp [foundIn,pair,other,self]
    have differ : x ≠ y := fun same => by rw [same,self] at other; cases other
    rw [second] at found ok'
    have pair' : Function.update chains 0 (toFront (chains 0) (some y)) 0 = [y,x] := by
      simp [toFront,pair,differ]
    have linked := ok'.linked 0 (by omega)
    rw [pair'] at linked
    have next : Cursor.next ⟨h',0,some y⟩ = some ⟨h',0,some x⟩ := by
      rw [Cursor.next,Option.map_some]
      dsimp only
      rw [linked.2.1]
    have now : wanted time = [h.key y] := (looked 0).1
    have ended : (⟨h,0,some y⟩ : Cursor K T).ended = false := decide_eq_false (by show ¬h.size ≤ 0; omega)
    have again := ih (time + 1) ok' (size'.trans size) pair' (by rwa [keys']) (by rwa [keys']) (by rwa [keys']) (by rwa [keys'])
      (fun s => by
        rw [keys']
        refine ⟨?_,?_⟩
        · rw [show time + 1 + 2 * s = time + 2 * s + 1 by omega]
          exact (looked s).2
        · rw [show time + 1 + 2 * s + 1 = time + 2 * (s + 1) by omega]
          exact (looked (s + 1)).1)
    rw [iterate,ended]
    simp [now,lookups,found,next,again]

/-- Each key is looked up as it is visited. -/
theorem iterate_forever : ¬∀ (H : Hash Nat) (size : Nat) (key : Nat → Nat) (value : Nat → Unit) (ops : List (Op Nat Unit))
    (h : HashTable Nat Unit), build H size key value ops = some h → ∀ wanted : Nat → List Nat,
    ∃ turns visited, iterate H wanted turns 0 (start h) = some visited ∧ visited.Perm (keys h) := by
  intro law
  obtain ⟨turns,visited,ended,-⟩ := law ints 1 id (fun _ => ()) [.put 1 (),.put 2 ()] twoKeys build_twoKeys
    fun time => if time % 2 = 0 then [2] else [1]
  obtain ⟨chains,ok⟩ := chains_build build_twoKeys
  have pair : chains 0 = [1,0] := (ok.chain_eq Nat.one_pos).symm
  rw [start_twoKeys] at ended
  cases turns with
  | zero => cases ended
  | succ turns =>
    have rest := endless ints (fun time => if time % 2 = 0 then [2] else [1]) turns 1 ok rfl pair rfl rfl rfl rfl
      fun s => by
        refine ⟨?_,?_⟩
        · rw [if_neg (by omega)]
          rfl
        · rw [if_pos (by omega)]
          rfl
    have next : Cursor.next ⟨twoKeys,0,some 1⟩ = some ⟨twoKeys,0,some 0⟩ := rfl
    have looked : lookups ints twoKeys [2] = some twoKeys := rfl
    have going : (⟨twoKeys,0,some 1⟩ : Cursor Nat Unit).ended = false := rfl
    rw [iterate,going] at ended
    simp [looked,next,rest] at ended

end Otawa.Hashing
