import Mathlib.Data.List.Basic
import Mathlib.Data.Option.Basic

/-!
Trees whose nodes have a key and some data, gone down by a path of keys. To alter the
data at the end of a path builds the nodes it lacks. After a run of alterations from a
root alone, the nodes are the prefixes of the paths, and each has got the alterations of
its own path.
-/
namespace Otawa

inductive KeyTree (K D : Type) where
  | node (key : K) (data : D) (children : List (KeyTree K D))

namespace KeyTree

variable {K D : Type}

def key : KeyTree K D → K
  | .node key _ _ => key

def data : KeyTree K D → D
  | .node _ data _ => data

def children : KeyTree K D → List (KeyTree K D)
  | .node _ _ children => children

def leaf (k : K) (d : D) : KeyTree K D := .node k d []

@[simp] theorem key_node (k : K) (d : D) (cs : List (KeyTree K D)) : (node k d cs).key = k := rfl
@[simp] theorem data_node (k : K) (d : D) (cs : List (KeyTree K D)) : (node k d cs).data = d := rfl
@[simp] theorem children_node (k : K) (d : D) (cs : List (KeyTree K D)) : (node k d cs).children = cs := rfl
@[simp] theorem key_leaf (k : K) (d : D) : (leaf k d).key = k := rfl
@[simp] theorem data_leaf (k : K) (d : D) : (leaf k d).data = d := rfl
@[simp] theorem children_leaf (k : K) (d : D) : (leaf k d).children = [] := rfl

variable [DecidableEq K]

def child (t : KeyTree K D) (k : K) : Option (KeyTree K D) := t.children.find? fun c => c.key = k

def sub (t : KeyTree K D) : List K → Option (KeyTree K D)
  | [] => some t
  | k :: path => (t.child k).bind fun c => c.sub path

@[simp] theorem sub_nil (t : KeyTree K D) : t.sub [] = some t := rfl
variable (t : KeyTree K D) {g : KeyTree K D → KeyTree K D}

theorem sub_cons (k : K) (path : List K) : t.sub (k :: path) = (t.child k).bind fun c => c.sub path := rfl

theorem child_key {t c : KeyTree K D} {k : K} (found : t.child k = some c) : c.key = k := by
  simpa using List.find?_some found

theorem child_mem {t c : KeyTree K D} {k : K} (found : t.child k = some c) : c ∈ t.children := List.mem_of_find?_eq_some found

@[simp] theorem child_leaf (k k' : K) (d : D) : (leaf k d).child k' = none := rfl

theorem sub_prefix {t : KeyTree K D} {path path' : List K} (start : path <+: path') (found : (t.sub path').isSome) :
    (t.sub path).isSome := by
  induction path generalizing t path' with
  | nil => rfl
  | cons k path ih =>
    obtain ⟨more,rfl⟩ := start
    rw [List.cons_append,sub_cons] at found
    rw [sub_cons]
    cases down : t.child k with
    | none => simp [down] at found
    | some c =>
      rw [down] at found
      exact ih ⟨more,rfl⟩ found

/-- Alters the first child that has the key. -/
def adjust (k : K) (g : KeyTree K D → KeyTree K D) : List (KeyTree K D) → Option (List (KeyTree K D))
  | [] => none
  | c :: rest => if c.key = k then some (g c :: rest) else (adjust k g rest).map (c :: ·)

def upsert (new : D) (k : K) (g : KeyTree K D → KeyTree K D) (children : List (KeyTree K D)) : List (KeyTree K D) :=
  (adjust k g children).getD (g (leaf k new) :: children)

def alter (new : D) (f : D → D) : KeyTree K D → List K → KeyTree K D
  | .node key data children, [] => .node key (f data) children
  | .node key data children, k :: path => .node key data (upsert new k (fun c => c.alter new f path) children)

variable {new : D} {f : D → D}

@[simp] theorem key_alter (path : List K) : (t.alter new f path).key = t.key := by
  cases t
  cases path <;> rfl

theorem adjust_none {k : K} {g : KeyTree K D → KeyTree K D} {cs : List (KeyTree K D)}
    (absent : cs.find? (fun c => c.key = k) = none) : adjust k g cs = none := by
  induction cs with
  | nil => rfl
  | cons c cs ih =>
    obtain ⟨other,rest⟩ : ¬ c.key = k ∧ cs.find? (fun c => c.key = k) = none := by simpa using absent
    rw [adjust,if_neg other,ih rest]
    rfl

theorem adjust_some {k : K} {g : KeyTree K D → KeyTree K D} (keeps : ∀ c, (g c).key = c.key) {c : KeyTree K D}
    {cs : List (KeyTree K D)} (found : cs.find? (fun c => c.key = k) = some c) :
    ∃ cs', adjust k g cs = some cs' ∧ cs'.map key = cs.map key ∧
      ∀ k', cs'.find? (fun c => c.key = k') = if k' = k then some (g c) else cs.find? fun c => c.key = k' := by
  induction cs with
  | nil => cases found
  | cons first cs ih =>
    rw [adjust]
    by_cases here : first.key = k
    · obtain rfl : first = c := by simpa [here] using found
      refine ⟨g first :: cs,if_pos here,by simp [keeps],fun k' => ?_⟩
      by_cases same : k' = k
      · simp [same,here,keeps]
      · simp [same,here,keeps,Ne.symm same]
    · obtain ⟨cs',adjusted,keys,children⟩ := ih (by simpa [here] using found)
      refine ⟨first :: cs',by rw [if_neg here,adjusted]; rfl,by simp [keys],fun k' => ?_⟩
      by_cases same : k' = k
      · simp [same,here,children k]
      · by_cases other : first.key = k'
        · simp [other,same]
        · simp [other,same,children k']

theorem find?_upsert {k : K} {g : KeyTree K D → KeyTree K D} (keeps : ∀ c, (g c).key = c.key) (k' : K)
    (cs : List (KeyTree K D)) : (upsert new k g cs).find? (fun c => c.key = k') =
      if k' = k then some (g ((cs.find? fun c => c.key = k).getD (leaf k new))) else cs.find? fun c => c.key = k' := by
  rw [upsert]
  cases found : cs.find? (fun c => c.key = k) with
  | none =>
    rw [adjust_none found,Option.getD_none,Option.getD_none]
    by_cases same : k' = k
    · simp [same,keeps]
    · simp [same,keeps,Ne.symm same]
  | some c =>
    obtain ⟨cs',adjusted,_,children⟩ := adjust_some keeps found
    rw [adjusted,Option.getD_some,Option.getD_some,children]

theorem child_alter (k k' : K) (path : List K) : (t.alter new f (k :: path)).child k' =
    if k' = k then some (((t.child k).getD (leaf k new)).alter new f path) else t.child k' := by
  cases t
  exact find?_upsert (fun c => key_alter c path) k' _

def dataAt (t : KeyTree K D) (path : List K) : Option D := (t.sub path).map data

theorem dataAt_cons (k : K) (path : List K) :
    t.dataAt (k :: path) = (t.child k).bind fun c => c.dataAt path := by
  rw [dataAt,sub_cons,Option.map_bind]
  rfl

theorem isSome_dataAt (path : List K) : (t.dataAt path).isSome = (t.sub path).isSome := Option.isSome_map

theorem dataAt_alter (path path' : List K) : (t.alter new f path).dataAt path' =
    if path' = path then some (f ((t.dataAt path').getD new))
    else if path' <+: path then some ((t.dataAt path').getD new)
    else t.dataAt path' := by
  induction path generalizing t path' with
  | nil =>
    cases t with
    | node key data children =>
      cases path' with
      | nil => rfl
      | cons k' path' => rfl
  | cons k path ih =>
    cases path' with
    | nil =>
      cases t with
      | node key data children => rfl
    | cons k' path' =>
      rw [dataAt_cons,child_alter,dataAt_cons]
      by_cases same : k' = k
      · subst same
        rw [if_pos rfl,Option.bind_some,ih]
        simp only [List.cons.injEq,true_and,List.cons_prefix_cons]
        cases found : t.child k' with
        | some c => rfl
        | none =>
          cases path' with
          | nil => simp [dataAt]
          | cons k'' path' => simp [dataAt,sub_cons]
      · simp [same]

def Distinct (t : KeyTree K D) : Prop := ∀ path c, t.sub path = some c → (c.children.map key).Nodup

theorem distinct_leaf (k : K) (d : D) : (leaf k d).Distinct := by
  intro path c found
  cases path with
  | nil =>
    obtain rfl := Option.some.inj found
    exact List.nodup_nil
  | cons k' path => cases found

theorem Distinct.child {t c : KeyTree K D} {k : K} (distinct : t.Distinct) (found : t.child k = some c) : c.Distinct :=
  fun path c' down => distinct (k :: path) c' (by rw [sub_cons,found]; exact down)

theorem Distinct.child_of_mem {t c : KeyTree K D} (distinct : t.Distinct) (member : c ∈ t.children) :
    t.child c.key = some c := by
  have nodup := distinct [] t rfl
  unfold KeyTree.child
  generalize t.children = cs at member nodup
  induction cs with
  | nil => cases member
  | cons first cs ih =>
    obtain ⟨absent,nodup⟩ := List.nodup_cons.mp nodup
    rcases List.mem_cons.mp member with rfl | member
    · simp
    · have other : first.key ≠ c.key := fun same => absent (same ▸ List.mem_map_of_mem member)
      simpa [other] using ih member nodup

private theorem nodup_upsert {k : K} (keeps : ∀ c, (g c).key = c.key)
    {cs : List (KeyTree K D)} (nodup : (cs.map key).Nodup) : ((upsert new k g cs).map key).Nodup := by
  rw [upsert]
  cases found : cs.find? (fun c => c.key = k) with
  | none =>
    rw [adjust_none found,Option.getD_none,List.map_cons,keeps,key_leaf]
    refine List.nodup_cons.mpr ⟨fun member => ?_,nodup⟩
    obtain ⟨c,inside,same⟩ := List.mem_map.mp member
    simpa [same] using List.find?_eq_none.mp found c inside
  | some c =>
    obtain ⟨cs',adjusted,keys,_⟩ := adjust_some keeps found
    rw [adjusted,Option.getD_some,keys]
    exact nodup

theorem Distinct.alter {t : KeyTree K D} (distinct : t.Distinct) (path : List K) : (t.alter new f path).Distinct := by
  induction path generalizing t with
  | nil =>
    intro path' c found
    cases t with
    | node key data children =>
      cases path' with
      | nil =>
        obtain rfl := Option.some.inj found
        exact distinct [] (node key data children) rfl
      | cons k' path' => exact distinct (k' :: path') c found
  | cons k path ih =>
    intro path' c found
    cases path' with
    | nil =>
      obtain rfl := Option.some.inj found
      cases t with
      | node key data children => exact nodup_upsert (fun c => key_alter c path) (distinct [] _ rfl)
    | cons k' path' =>
      rw [sub_cons,child_alter] at found
      by_cases same : k' = k
      · rw [if_pos same,Option.bind_some] at found
        refine ih ?_ path' c found
        cases down : t.child k with
        | none => exact distinct_leaf k new
        | some first => exact distinct.child down
      · rw [if_neg same] at found
        exact distinct (k' :: path') c found

def alters (new : D) (t : KeyTree K D) (ops : List (List K × (D → D))) : KeyTree K D :=
  ops.foldl (fun t op => t.alter new op.2 op.1) t

def altered (path : List K) (d : D) (ops : List (List K × (D → D))) : D :=
  (ops.filter fun op => op.1 = path).foldl (fun d op => op.2 d) d

@[simp] theorem altered_nil (path : List K) (d : D) : altered path d [] = d := rfl

theorem altered_cons (path : List K) (d : D) (op : List K × (D → D)) (ops : List (List K × (D → D))) :
    altered path d (op :: ops) = altered path (if op.1 = path then op.2 d else d) ops := by
  by_cases own : op.1 = path
  · simp [altered,own]
  · simp [altered,own]

theorem dataAt_alters (ops : List (List K × (D → D))) (path : List K) :
    (alters new t ops).dataAt path =
      if (t.dataAt path).isSome ∨ ∃ op ∈ ops, path <+: op.1 then some (altered path ((t.dataAt path).getD new) ops)
      else none := by
  induction ops generalizing t with
  | nil => cases found : t.dataAt path <;> simp [alters,altered,found]
  | cons op ops ih =>
    show (alters new (t.alter new op.2 op.1) ops).dataAt path = _
    rw [ih,dataAt_alter]
    by_cases own : path = op.1
    · subst own
      simp [altered_cons]
    · rw [altered_cons,if_neg (Ne.symm own),if_neg own]
      by_cases through : path <+: op.1
      · simp [through]
      · rw [if_neg through]
        exact if_congr (by simp [through]) rfl rfl

theorem dataAt_alters_leaf (k : K) (d : D) (ops : List (List K × (D → D))) (path : List K) :
    (alters new (leaf k d) ops).dataAt path =
      if path = [] ∨ ∃ op ∈ ops, path <+: op.1 then some (altered path (if path = [] then d else new) ops) else none := by
  rw [dataAt_alters]
  cases path with
  | nil => simp [dataAt]
  | cons k' path =>
    have none : (leaf k d).dataAt (k' :: path) = none := rfl
    simp only [none,Option.isSome_none,Option.getD_none,Bool.false_eq_true,false_or,reduceCtorEq,if_false]

end KeyTree

end Otawa
