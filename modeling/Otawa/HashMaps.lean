import Otawa.HashTable

/-!
The hash table as a map: the nodes are in the buckets of their keys, one for each key. Look-ups keep
the map, whatever nodes they move, and `put` changes it. A loop with an iterator of the keys goes
through all of them when its body leaves the table (`each_static`); it also ends when the body looks
each key up at most once (`each_ends`).
-/
namespace Otawa.Hashing
open Otawa.LinkedList (Chain)

variable {K T S : Type}

/-- The equality of the keys is what it says. -/
def Hash.Lawful (H : Hash K) : Prop := ∀ a b, H.equals a b = true ↔ a = b

/-- `get` with a default value, and the table that it leaves. -/
def get (H : Hash K) (h : HashTable K T) (key : K) (default : T) : Option (T × HashTable K T) :=
  (find H h key).map fun (found,h) => (found.elim default h.value,h)

/-- `exists`. -/
def hasKey (H : Hash K) (h : HashTable K T) (key : K) : Option (Bool × HashTable K T) :=
  (find H h key).map fun (found,h) => (found.isSome,h)

/-- A loop with a `KeyIterator`, for some turns: its body gets the table, which it may change, and a state. -/
def each (body : HashTable K T → S → K → Option (HashTable K T × S)) : Nat → Cursor K T → S → Option (HashTable K T × S)
  | 0, _, _ => none
  | turns + 1, c, s =>
    if c.ended then some (c.table,s)
    else c.node.bind fun node => (body c.table s (c.table.key node)).bind fun (h,s) =>
      (Cursor.next { c with table := h }).bind fun c => each body turns c s

/-- The nodes are where their keys say, and no two have the same key. -/
structure Placed (H : Hash K) (h : HashTable K T) (chains : Nat → List Nat) : Prop extends Chains h chains where
  positive : h.size ≠ 0
  own : ∀ i < h.size, ∀ n ∈ chains i, H.hash (h.key n) % h.size = i
  distinct : ∀ i < h.size, ∀ n ∈ chains i, ∀ m ∈ chains i, h.key n = h.key m → n = m

/-- The table has these values for the keys. -/
def Maps (H : Hash K) (h : HashTable K T) (content : K → Option T) : Prop :=
  ∃ chains, Placed H h chains ∧
    ∀ key, (foundIn H h key (chains (H.hash key % h.size))).map h.value = content key

section
variable {H : Hash K} {h h' : HashTable K T} {chains : Nat → List Nat} {content : K → Option T} {key : K}

theorem find_value {found : Option Nat} (looked : find H h key = some (found,h')) : h'.value = h.value := by
  obtain ⟨b,-,looked⟩ := Option.bind_eq_some_iff.mp looked
  obtain ⟨result,-,looked⟩ := Option.map_eq_some_iff.mp looked
  rcases result with _ | ⟨node,_ | prev⟩
  · obtain ⟨-,rfl⟩ := Prod.mk.inj looked
    rfl
  · obtain ⟨-,rfl⟩ := Prod.mk.inj looked
    rfl
  · obtain ⟨-,rfl⟩ := Prod.mk.inj looked
    rfl

theorem Placed.inside (placed : Placed H h chains) (key : K) : H.hash key % h.size < h.size :=
  Nat.mod_lt _ (Nat.pos_of_ne_zero placed.positive)

theorem Placed.foundIn_iff (lawful : H.Lawful) (placed : Placed H h chains) {n : Nat} :
    foundIn H h key (chains (H.hash key % h.size)) = some n ↔ n ∈ chains (H.hash key % h.size) ∧ h.key n = key := by
  constructor
  · intro found
    exact ⟨foundIn_mem found,(lawful _ _).mp (List.find?_some (p := fun n => H.equals (h.key n) key) found)⟩
  · rintro ⟨member,same⟩
    cases found : foundIn H h key (chains (H.hash key % h.size)) with
    | none =>
      have differ := List.find?_eq_none.mp found n member
      exact absurd ((lawful _ _).mpr same) differ
    | some m =>
      have other := (lawful _ _).mp (List.find?_some (p := fun n => H.equals (h.key n) key) found)
      rw [placed.distinct _ (placed.inside key) m (foundIn_mem found) n member (other.trans same.symm)]

theorem Placed.perm {chains' : Nat → List Nat} (placed : Placed H h chains) (ok : Chains h' chains') (size : h'.size = h.size)
    (keys : h'.key = h.key) (perm : ∀ i, (chains' i).Perm (chains i)) : Placed H h' chains' where
  toChains := ok
  positive := by rw [size]; exact placed.positive
  own i inside n member := by
    rw [size] at inside ⊢
    rw [keys]
    exact placed.own i inside n ((perm i).mem_iff.mp member)
  distinct i inside n member m memberM same := by
    rw [size] at inside
    rw [keys] at same
    exact placed.distinct i inside n ((perm i).mem_iff.mp member) m ((perm i).mem_iff.mp memberM) same

theorem Placed.find (placed : Placed H h chains) (key : K) :
    ∃ h' chains', find H h key = some (foundIn H h key (chains (H.hash key % h.size)),h') ∧ Placed H h' chains' ∧
      Same h h' chains chains' ∧ h'.value = h.value ∧
      chains' = Function.update chains (H.hash key % h.size)
        (toFront (chains (H.hash key % h.size)) (foundIn H h key (chains (H.hash key % h.size)))) := by
  obtain ⟨h',looked,size,keys,-,ok⟩ := placed.toChains.find (H := H) placed.positive key
  have perm : ∀ i, (Function.update chains (H.hash key % h.size)
      (toFront (chains (H.hash key % h.size)) (foundIn H h key (chains (H.hash key % h.size)))) i).Perm (chains i) := by
    intro i
    by_cases here : i = H.hash key % h.size
    · rw [here,Function.update_self]
      exact toFront_perm fun n found => foundIn_mem found
    · rw [Function.update_of_ne here]
  exact ⟨h',_,looked,placed.perm ok size keys perm,⟨size,keys,ok,perm⟩,find_value looked,rfl⟩

theorem Same.maps (lawful : H.Lawful) (placed : Placed H h chains) {chains' : Nat → List Nat} (placed' : Placed H h' chains')
    (same : Same h h' chains chains') (value : h'.value = h.value) (key : K) :
    (foundIn H h' key (chains' (H.hash key % h'.size))).map h'.value = (foundIn H h key (chains (H.hash key % h.size))).map h.value := by
  have found : foundIn H h' key (chains' (H.hash key % h'.size)) = foundIn H h key (chains (H.hash key % h.size)) := by
    apply Option.ext
    intro n
    rw [placed'.foundIn_iff lawful,placed.foundIn_iff lawful,same.size,same.key,(same.perm _).mem_iff]
  rw [found,value]

theorem Maps.find (lawful : H.Lawful) (maps : Maps H h content) (key : K) :
    ∃ found h', find H h key = some (found,h') ∧ found.map h'.value = content key ∧ Maps H h' content := by
  obtain ⟨chains,placed,known⟩ := maps
  obtain ⟨h',chains',looked,placed',same,value,-⟩ := placed.find key
  refine ⟨_,h',looked,by rw [value]; exact known key,chains',placed',fun key => ?_⟩
  rw [same.maps lawful placed placed' value]
  exact known key

theorem Maps.get (lawful : H.Lawful) (maps : Maps H h content) (key : K) (default : T) :
    ∃ h', get H h key default = some ((content key).getD default,h') ∧ Maps H h' content := by
  obtain ⟨found,h',looked,value,maps'⟩ := maps.find lawful key
  refine ⟨h',?_,maps'⟩
  rw [Hashing.get,looked,← value]
  cases found <;> rfl

theorem Maps.hasKey (lawful : H.Lawful) (maps : Maps H h content) (key : K) :
    ∃ h', hasKey H h key = some ((content key).isSome,h') ∧ Maps H h' content := by
  obtain ⟨found,h',looked,value,maps'⟩ := maps.find lawful key
  refine ⟨h',?_,maps'⟩
  rw [Hashing.hasKey,looked,← value]
  cases found <;> rfl

/-! ### Puts -/

private theorem Placed.setValue [DecidableEq K] (lawful : H.Lawful) (placed : Placed H h chains)
    (known : ∀ key, (foundIn H h key (chains (H.hash key % h.size))).map h.value = content key) {node : Nat}
    (here : foundIn H h key (chains (H.hash key % h.size)) = some node) (value : T) :
    Maps H { h with value := Function.update h.value node value } (Function.update content key (some value)) := by
  refine ⟨chains,⟨⟨placed.linked,placed.nodup,placed.apart,placed.old⟩,placed.positive,placed.own,placed.distinct⟩,fun other => ?_⟩
  change (foundIn H h other (chains (H.hash other % h.size))).map (Function.update h.value node value) = _
  by_cases same : other = key
  · subst same
    rw [here,Function.update_self,Option.map_some,Function.update_self]
  · rw [Function.update_of_ne same,← known other]
    cases found : foundIn H h other (chains (H.hash other % h.size)) with
    | none => rfl
    | some m =>
      have differ : m ≠ node := by
        rintro rfl
        exact same (((placed.foundIn_iff lawful).mp found).2.symm.trans ((placed.foundIn_iff lawful).mp here).2)
      rw [Option.map_some,Option.map_some,Function.update_of_ne differ]

/-- What `add` makes of the table. -/
def addFront (h : HashTable K T) (b : Nat) (key : K) (value : T) : HashTable K T :=
  { h with
    nodes := h.nodes + 1
    next := Function.update h.next h.nodes (h.tab b)
    tab := Function.update h.tab b (some h.nodes)
    key := Function.update h.key h.nodes key
    value := Function.update h.value h.nodes value }

theorem mem_addFront (b i n : Nat) : n ∈ Function.update chains b (h.nodes :: chains b) i ↔
    n = h.nodes ∧ i = b ∨ n ∈ chains i := by
  by_cases here : i = b
  · rw [here,Function.update_self]
    simp
  · rw [Function.update_of_ne here]
    simp [here]

theorem Placed.key_old (placed : Placed H h chains) {i n : Nat} (inside : i < h.size) (member : n ∈ chains i) {A : Type}
    (f : Nat → A) (new : A) : Function.update f h.nodes new n = f n :=
  Function.update_of_ne (Nat.ne_of_lt (placed.old i inside n member)) ..

private theorem Placed.front (placed : Placed H h chains) (missing : ∀ n ∈ chains (H.hash key % h.size), h.key n ≠ key) (value : T) :
    Placed H (addFront h (H.hash key % h.size) key value)
      (Function.update chains (H.hash key % h.size) (h.nodes :: chains (H.hash key % h.size))) := by
  refine ⟨placed.toChains.front (placed.inside key),placed.positive,?_,?_⟩
  · intro i inside n member
    change i < h.size at inside
    change H.hash (Function.update h.key h.nodes key n) % h.size = i
    rcases (mem_addFront _ i n).mp member with ⟨rfl,rfl⟩ | before
    · rw [Function.update_self]
    · rw [placed.key_old inside before]
      exact placed.own i inside n before
  · intro i inside n member m memberM same
    change i < h.size at inside
    change Function.update h.key h.nodes key n = Function.update h.key h.nodes key m at same
    rcases (mem_addFront _ i n).mp member with ⟨rfl,rfl⟩ | before
    · rcases (mem_addFront _ _ m).mp memberM with ⟨rfl,-⟩ | beforeM
      · rfl
      · rw [Function.update_self,placed.key_old inside beforeM] at same
        exact absurd same.symm (missing m beforeM)
    · rw [placed.key_old inside before] at same
      rcases (mem_addFront _ _ m).mp memberM with ⟨rfl,rfl⟩ | beforeM
      · rw [Function.update_self] at same
        exact absurd same (missing n before)
      · rw [placed.key_old inside beforeM] at same
        exact placed.distinct i inside n before m beforeM same

private theorem Placed.adds [DecidableEq K] (lawful : H.Lawful) (placed : Placed H h chains)
    (known : ∀ key, (foundIn H h key (chains (H.hash key % h.size))).map h.value = content key)
    (absent : foundIn H h key (chains (H.hash key % h.size)) = none) (value : T) :
    ∃ h', add H h key value = some h' ∧ Maps H h' (Function.update content key (some value)) := by
  have located : bucket H h key = some (H.hash key % h.size) := by rw [bucket,if_neg placed.positive]
  have missing : ∀ n ∈ chains (H.hash key % h.size), h.key n ≠ key := by
    intro n member same
    rw [(placed.foundIn_iff lawful).mpr ⟨member,same⟩] at absent
    cases absent
  have placed' := placed.front missing value
  refine ⟨addFront h (H.hash key % h.size) key value,by rw [add,located]; rfl,_,placed',fun other => ?_⟩
  by_cases same : other = key
  · subst same
    have here : foundIn H (addFront h (H.hash other % h.size) other value) other _ = some h.nodes :=
      (placed'.foundIn_iff lawful).mpr ⟨(mem_addFront _ _ _).mpr (.inl ⟨rfl,rfl⟩),Function.update_self ..⟩
    rw [here,Function.update_self,Option.map_some]
    exact congrArg some (Function.update_self ..)
  · rw [Function.update_of_ne same,← known other]
    have found : foundIn H (addFront h (H.hash key % h.size) key value) other
        (Function.update chains (H.hash key % h.size) (h.nodes :: chains (H.hash key % h.size)) (H.hash other % h.size)) =
        foundIn H h other (chains (H.hash other % h.size)) := by
      apply Option.ext
      intro n
      refine (placed'.foundIn_iff lawful).trans (Iff.trans ?_ (placed.foundIn_iff lawful).symm)
      rw [mem_addFront]
      change (n = h.nodes ∧ H.hash other % h.size = _ ∨ n ∈ chains (H.hash other % h.size)) ∧
        Function.update h.key h.nodes key n = other ↔ _
      constructor
      · rintro ⟨⟨rfl,-⟩ | before,is⟩
        · rw [Function.update_self] at is
          exact absurd is.symm same
        · rw [placed.key_old (placed.inside other) before] at is
          exact ⟨before,is⟩
      · rintro ⟨before,is⟩
        exact ⟨.inr before,by rwa [placed.key_old (placed.inside other) before]⟩
    refine (congrArg _ found).trans ?_
    cases here : foundIn H h other (chains (H.hash other % h.size)) with
    | none => rfl
    | some n =>
      rw [Option.map_some,Option.map_some]
      exact congrArg some (placed.key_old (placed.inside other) ((placed.foundIn_iff lawful).mp here).1 ..)

theorem Maps.put [DecidableEq K] (lawful : H.Lawful) (maps : Maps H h content) (key : K) (value : T) :
    ∃ h', put H h key value = some h' ∧ Maps H h' (Function.update content key (some value)) := by
  obtain ⟨chains,placed,known⟩ := maps
  obtain ⟨h₁,chains₁,looked,placed₁,same,values,-⟩ := placed.find key
  have known₁ : ∀ key, (foundIn H h₁ key (chains₁ (H.hash key % h₁.size))).map h₁.value = content key := by
    intro key
    rw [same.maps lawful placed placed₁ values]
    exact known key
  rw [Hashing.put,looked,Option.bind_some]
  have here : foundIn H h₁ key (chains₁ (H.hash key % h₁.size)) = foundIn H h key (chains (H.hash key % h.size)) := by
    apply Option.ext
    intro n
    rw [placed₁.foundIn_iff lawful,placed.foundIn_iff lawful,same.size,same.key,(same.perm _).mem_iff]
  cases found : foundIn H h key (chains (H.hash key % h.size)) with
  | none => exact placed₁.adds lawful known₁ (here.trans found) value
  | some node => exact ⟨_,rfl,placed₁.setValue lawful known₁ (here.trans found) value⟩

theorem maps_create (H : Hash K) {size : Nat} (positive : size ≠ 0) (key : Nat → K) (value : Nat → T) :
    Maps H (create size key value) fun _ => none :=
  ⟨fun _ => [],⟨⟨fun _ _ => rfl,fun _ _ => List.nodup_nil,by simp,by simp⟩,positive,by simp,by simp⟩,fun _ => rfl⟩

/-! ### Loops -/

theorem step_table (h : HashTable K T) (i : Nat) : (step h i).table = h := by
  induction i using step.induct h with
  | case1 i inside node known =>
    rw [step,if_pos inside,known]
  | case2 i inside empty ih =>
    rw [step,if_pos inside,empty]
    exact ih
  | case3 i outside => rw [step,if_neg outside]

theorem next_spec (ok : Chains h chains) {i node : Nat} {before after : List Nat} (inside : i < h.size)
    (split : chains i = before ++ node :: after) :
    (∃ c, Cursor.next ⟨h,i,some node⟩ = some c ∧ c.ended = true ∧ c.table = h ∧ after ++ nodesFrom h chains (i + 1) = []) ∨
      ∃ j second before' after', Cursor.next ⟨h,i,some node⟩ = some ⟨h,j,some second⟩ ∧ j < h.size ∧
        chains j = before' ++ second :: after' ∧
        after ++ nodesFrom h chains (i + 1) = second :: (after' ++ nodesFrom h chains (j + 1)) := by
  have linked := ok.linked i inside
  rw [split] at linked
  have behind : Chain h.next (h.next node) after := linked.suffix
  cases after with
  | cons second after =>
    refine .inr ⟨i,second,before ++ [node],after,?_,inside,by rw [split]; simp,rfl⟩
    rw [Cursor.next,Option.map_some]
    dsimp only
    rw [behind.1]
  | nil =>
    have next : Cursor.next ⟨h,i,some node⟩ = some (step h (i + 1)) := by
      rw [Cursor.next,Option.map_some]
      dsimp only
      rw [show h.next node = none from behind]
    rcases step_spec ok _ (i + 1) rfl with ⟨ended,none⟩ | ⟨j,second,rest,stepped,insideJ,chainJ,nodes⟩
    · exact .inl ⟨_,next,ended,step_table h (i + 1),none⟩
    · exact .inr ⟨j,second,[],rest,by rw [next,stepped],insideJ,chainJ,nodes⟩

variable {body : HashTable K T → S → K → Option (HashTable K T × S)}

theorem each_ended {turns : Nat} {c : Cursor K T} {s : S}
    (ended : c.ended = true) (enough : 0 < turns) : each body turns c s = some (c.table,s) := by
  obtain ⟨turns,rfl⟩ := Nat.exists_eq_succ_of_ne_zero (Nat.ne_of_gt enough)
  rw [each,if_pos ended]

theorem each_node {turns i node : Nat} {s : S} (inside : i < h.size) :
    each body (turns + 1) ⟨h,i,some node⟩ s = (body h s (h.key node)).bind fun (h,s) =>
      (Cursor.next ⟨h,i,some node⟩).bind fun c => each body turns c s := by
  have notEnded : (⟨h,i,some node⟩ : Cursor K T).ended = false := decide_eq_false (Nat.not_le.mpr inside)
  rw [each,notEnded]
  rfl

private theorem each_from {f : S → K → Option S}
    (ok : Chains h chains) (static : ∀ s key, body h s key = (f s key).map fun s => (h,s)) : ∀ (m i node : Nat) (before after : List Nat),
    i < h.size → chains i = before ++ node :: after → (after ++ nodesFrom h chains (i + 1)).length = m →
    ∀ turns, m + 2 ≤ turns → ∀ s, each body turns ⟨h,i,some node⟩ s =
      (((node :: (after ++ nodesFrom h chains (i + 1))).map h.key).foldlM f s).map fun s => (h,s) := by
  intro m
  induction m with
  | zero =>
    intro i node before after inside split size turns enough s
    obtain ⟨turns,rfl⟩ := Nat.exists_eq_add_of_le' (le_trans (Nat.le_add_left 1 1) enough)
    rw [each_node inside,static,List.eq_nil_of_length_eq_zero size]
    rcases next_spec ok inside split with ⟨c,next,ended,table,-⟩ | ⟨j,second,before',after',-,-,-,rest⟩
    · cases found : f s (h.key node) with
      | none => simp [found]
      | some s' => simp [found,next,each_ended ended (show 0 < turns by omega),table]
    · rw [rest] at size
      simp at size
  | succ m ih =>
    intro i node before after inside split size turns enough s
    obtain ⟨turns,rfl⟩ := Nat.exists_eq_add_of_le' (le_trans (Nat.le_add_left 1 (m + 2)) enough)
    rw [each_node inside,static]
    rcases next_spec ok inside split with ⟨c,-,-,-,rest⟩ | ⟨j,second,before',after',next,insideJ,splitJ,rest⟩
    · rw [rest] at size
      simp at size
    · rw [rest] at size ⊢
      cases found : f s (h.key node) with
      | none => simp [found]
      | some s' =>
        have later := ih j second before' after' insideJ splitJ (by simpa using size) turns (by omega) s'
        rw [List.map_cons,List.foldlM_cons,found]
        simp only [Option.map_some,Option.bind_some,next]
        exact later

theorem each_static {f : S → K → Option S}
    (ok : Chains h chains) (static : ∀ s key, body h s key = (f s key).map fun s => (h,s)) {turns : Nat}
    (enough : (keys h).length < turns) (s : S) :
    each body turns (start h) s = ((keys h).foldlM f s).map fun s => (h,s) := by
  have all : keys h = (nodesFrom h chains 0).map h.key := by rw [ok.keys_eq,nodesFrom,Nat.sub_zero,List.range_eq_range']
  rw [start]
  rcases step_spec ok _ 0 rfl with ⟨ended,none⟩ | ⟨j,node,rest,stepped,inside,nodes,perm⟩
  · rw [each_ended ended (Nat.zero_lt_of_lt enough),step_table,all,none]
    rfl
  · rw [all,List.length_map,perm,List.length_cons] at enough
    rw [stepped,all,perm]
    exact each_from ok static _ j node [] rest inside nodes rfl turns enough s

theorem Maps.mem_keys (lawful : H.Lawful) (maps : Maps H h content) : key ∈ keys h ↔ ∃ value, content key = some value := by
  obtain ⟨chains,placed,known⟩ := maps
  rw [placed.keys_eq,← known]
  simp only [List.mem_map,List.mem_flatMap,List.mem_range,Option.map_eq_some_iff]
  constructor
  · rintro ⟨n,⟨i,inside,member⟩,rfl⟩
    have here := placed.own i inside n member
    exact ⟨_,n,(placed.foundIn_iff lawful).mpr ⟨by rwa [here],rfl⟩,rfl⟩
  · rintro ⟨-,n,found,-⟩
    obtain ⟨member,same⟩ := (placed.foundIn_iff lawful).mp found
    exact ⟨n,⟨_,placed.inside key,member⟩,same⟩

/-- What a body does with a key: it leaves the table or looks the key up, which it does once for a key. -/
structure Settles (H : Hash K) (content : K → Option T) (inv : S → Prop) (done : S → K → Bool)
    (body : HashTable K T → S → K → Option (HashTable K T × S)) : Prop where
  step : ∀ h s key, Maps H h content → inv s → ∃ h' s', body h s key = some (h',s') ∧ inv s' ∧
    (∀ k, done s k = true → done s' k = true) ∧
    (h' = h ∨ done s key = false ∧ done s' key = true ∧ ∃ found, find H h key = some (found,h'))

/-- The nodes whose keys are to be settled yet. -/
def missing (h : HashTable K T) (chains : Nat → List Nat) (done : K → Bool) : Nat :=
  (nodesFrom h chains 0).countP fun n => !done (h.key n)

private theorem countP_left {done done' : K → Bool} (more : ∀ k, done k = true → done' k = true) (l : List Nat) :
    (l.countP fun n => !done' (h.key n)) ≤ l.countP fun n => !done (h.key n) := by
  refine List.countP_mono_left fun n _ left => ?_
  cases before : done (h.key n) with
  | false => rfl
  | true => simp [more _ before] at left

theorem missing_mono {done done' : K → Bool} (more : ∀ k, done k = true → done' k = true) :
    missing h chains done' ≤ missing h chains done := countP_left more _

theorem missing_lt {done done' : K → Bool} (more : ∀ k, done k = true → done' k = true) {n : Nat}
    (member : n ∈ nodesFrom h chains 0) (was : done (h.key n) = false) (is : done' (h.key n) = true) :
    missing h chains done' < missing h chains done := by
  obtain ⟨before,after,split⟩ := List.append_of_mem member
  have first := countP_left (h := h) more before
  have last := countP_left (h := h) more after
  rw [missing,missing,split,List.countP_append,List.countP_append,List.countP_cons_of_neg (by simp [is]),
    List.countP_cons_of_pos (by simp [was])]
  omega

theorem mem_nodesFrom {i n : Nat} (inside : i < h.size) (member : n ∈ chains i) : n ∈ nodesFrom h chains 0 := by
  rw [nodesFrom,Nat.sub_zero]
  exact List.mem_flatMap.mpr ⟨i,by simp [inside],member⟩

theorem length_behind {i node : Nat} {before after : List Nat} (inside : i < h.size) (split : chains i = before ++ node :: after) :
    (after ++ nodesFrom h chains (i + 1)).length ≤ (nodesFrom h chains 0).length := by
  have parts : List.range' 0 h.size = List.range' 0 i ++ i :: List.range' (i + 1) (h.size - (i + 1)) := by
    have joined := List.range'_append_1 (s := 0) (m := i) (n := h.size - (i + 1) + 1)
    rw [Nat.zero_add,List.range'_succ] at joined
    rw [joined]
    congr 1
    omega
  rw [nodesFrom,nodesFrom,Nat.sub_zero,parts]
  simp [split]
  omega

private theorem ends_from {inv : S → Prop} {done : S → K → Bool}
    (lawful : H.Lawful) (settles : Settles H content inv done body) : ∀ (w : Nat) (h : HashTable K T) (chains : Nat → List Nat)
    (i node : Nat) (before after : List Nat) (s : S), Placed H h chains →
    (∀ key, (foundIn H h key (chains (H.hash key % h.size))).map h.value = content key) → i < h.size →
    chains i = before ++ node :: after → inv s →
    missing h chains (done s) * ((nodesFrom h chains 0).length + 1) + (after ++ nodesFrom h chains (i + 1)).length = w →
    ∃ k h' s', (∀ turns, k ≤ turns → each body turns ⟨h,i,some node⟩ s = some (h',s')) ∧ Maps H h' content ∧ inv s' := by
  intro w
  induction w using Nat.strongRecOn with
  | ind w ih =>
    intro h chains i node before after s placed known inside split start size
    obtain ⟨h₁,s₁,ran,inv₁,more,moved⟩ := settles.step h s (h.key node) ⟨chains,placed,known⟩ start
    -- where the iterator is after the body, with less to come
    have turn : ∃ chains₁ before₁ after₁, Placed H h₁ chains₁ ∧
        (∀ key, (foundIn H h₁ key (chains₁ (H.hash key % h₁.size))).map h₁.value = content key) ∧ i < h₁.size ∧
        chains₁ i = before₁ ++ node :: after₁ ∧
        missing h₁ chains₁ (done s₁) * ((nodesFrom h₁ chains₁ 0).length + 1) +
          (after₁ ++ nodesFrom h₁ chains₁ (i + 1)).length ≤ w := by
      rcases moved with rfl | ⟨was,is,found,looked⟩
      · refine ⟨chains,before,after,placed,known,inside,split,?_⟩
        have fewer : missing h₁ chains (done s₁) ≤ missing h₁ chains (done s) := missing_mono more
        have product := Nat.mul_le_mul_right ((nodesFrom h₁ chains 0).length + 1) fewer
        omega
      · have member : node ∈ chains i := by rw [split]; simp
        have place := placed.own i inside node member
        obtain ⟨h₂,chains₂,looked₂,placed₂,same,values,moves⟩ := placed.find (h.key node)
        obtain ⟨-,rfl⟩ := Prod.mk.inj (Option.some.inj (looked.symm.trans looked₂))
        have own : foundIn H h (h.key node) (chains (H.hash (h.key node) % h.size)) = some node :=
          (placed.foundIn_iff lawful).mpr ⟨by rwa [place],rfl⟩
        have nodup := placed.nodup i inside
        rw [split] at nodup
        have new : node ∉ before := fun early => (List.disjoint_of_nodup_append nodup) early (by simp)
        rw [own,place,toFront,split,erase_middle new] at moves
        have splits : chains₂ i = [] ++ node :: (before ++ after) := by rw [moves,Function.update_self]; rfl
        have inside₂ : i < h₁.size := same.size ▸ inside
        refine ⟨chains₂,[],before ++ after,placed₂,fun key => ?_,inside₂,splits,?_⟩
        · rw [same.maps lawful placed placed₂ values]
          exact known key
        · have fewer : missing h₁ chains₂ (done s₁) < missing h chains (done s) := by
            refine lt_of_eq_of_lt ?_ (missing_lt more (mem_nodesFrom inside member) was is)
            rw [missing,missing,same.key]
            exact (same.nodesFrom 0).countP_eq _
          have behind := length_behind inside₂ splits
          have all := (same.nodesFrom 0).length_eq
          have product := Nat.mul_le_mul_right ((nodesFrom h chains 0).length + 1) fewer
          rw [Nat.succ_mul] at product
          rw [all] at behind ⊢
          omega
    obtain ⟨chains₁,before₁,after₁,placed₁,known₁,inside₁,split₁,less⟩ := turn
    rcases next_spec placed₁.toChains inside₁ split₁ with ⟨c,next,ended,table,-⟩ | ⟨j,second,before₂,after₂,next,insideJ,splitJ,rest⟩
    · refine ⟨2,h₁,s₁,fun turns enough => ?_,⟨chains₁,placed₁,known₁⟩,inv₁⟩
      obtain ⟨turns,rfl⟩ := Nat.exists_eq_add_of_le' (le_trans (Nat.le_add_left 1 1) enough)
      rw [each_node inside,ran,Option.bind_some]
      dsimp only
      rw [next,Option.bind_some,each_ended ended (by omega),table]
    · rw [rest,List.length_cons] at less
      obtain ⟨k,h',s',runs,maps,last⟩ := ih _ (by omega) h₁ chains₁ j second before₂ after₂ s₁ placed₁ known₁ insideJ splitJ inv₁ rfl
      refine ⟨k + 1,h',s',fun turns enough => ?_,maps,last⟩
      obtain ⟨turns,rfl⟩ := Nat.exists_eq_add_of_le' (le_trans (Nat.le_add_left 1 k) enough)
      rw [each_node inside,ran,Option.bind_some]
      dsimp only
      rw [next,Option.bind_some]
      exact runs turns (by omega)

/-- A loop whose body looks up each key at most once ends, even in the table that it goes through. -/
theorem each_ends {inv : S → Prop} {done : S → K → Bool}
    (lawful : H.Lawful) (settles : Settles H content inv done body) (maps : Maps H h content) {s : S} (holds : inv s) :
    ∃ k h' s', (∀ turns, k ≤ turns → each body turns (start h) s = some (h',s')) ∧ Maps H h' content ∧ inv s' := by
  obtain ⟨chains,placed,known⟩ := maps
  rw [start]
  rcases step_spec placed.toChains _ 0 rfl with ⟨ended,-⟩ | ⟨j,node,rest,stepped,inside,nodes,-⟩
  · refine ⟨1,h,s,fun turns enough => ?_,⟨chains,placed,known⟩,holds⟩
    rw [each_ended ended enough,step_table]
  · rw [stepped]
    exact ends_from lawful settles _ h chains j node [] rest s placed known inside nodes holds rfl

end

end Otawa.Hashing
