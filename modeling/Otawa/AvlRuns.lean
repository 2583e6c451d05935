import Otawa.AvlInsert
import Mathlib.Data.List.Induction

/-!
Searches, iteration and whole runs of `add` and `set`. The iterator keeps the nodes on the
way to the current one, which stands twice on its stack; the stack holds one node more than
the arrays of directions, so that a tree of more than 32 levels overflows it.
-/
namespace Otawa.Avl

universe u
variable {α : Type u} {κ : Type*} [LinearOrder κ]

section Find
variable {key : α → κ} {k : κ} {t : Tree α} {x : α}

theorem find_sound (found : find key k t = some x) : x ∈ t.items ∧ key x = k := by
  induction t with
  | leaf => cases found
  | node l b y r left right =>
    rw [find] at found
    split at found
    next =>
      obtain ⟨member,same⟩ := left found
      exact ⟨by simp [Tree.items,member],same⟩
    next notLess =>
      split at found
      next =>
        obtain ⟨member,same⟩ := right found
        exact ⟨by simp [Tree.items,member],same⟩
      next notGreater =>
        cases found
        exact ⟨by simp [Tree.items],le_antisymm (not_lt.mp notLess) (not_lt.mp notGreater)⟩

theorem find_complete (sorted : Ordered key t) (member : x ∈ t.items) (same : key x = k) : (find key k t).isSome := by
  induction t with
  | leaf => cases member
  | node l b y r left right =>
    obtain ⟨sortedL,sortedR,order⟩ := List.pairwise_append.mp sorted
    obtain ⟨after,sortedR⟩ := List.pairwise_cons.mp sortedR
    rw [find]
    rcases List.mem_append.mp member with before | here
    · have le : key x ≤ key y := order x before y List.mem_cons_self
      split
      next => exact left sortedL before
      next notLess => rw [if_neg (same ▸ le).not_gt]; rfl
    · rcases List.mem_cons.mp here with rfl | beyond
      · rw [if_neg (same ▸ lt_irrefl _),if_neg (same ▸ lt_irrefl _)]; rfl
      · have le : key y ≤ key x := after x beyond
        rw [if_neg (same ▸ le).not_gt]
        split
        next => exact right sortedR beyond
        next => rfl

end Find

/-- A pointer to a node: its path from the root names it. -/
structure NodePtr (α : Type u) where
  path : List Bool
  left : Tree α
  data : α
  right : Tree α

/-- The name of the node at a link, none for a null pointer. -/
def address (path : List Bool) : Tree α → Option (List Bool)
  | .leaf => none
  | .node _ _ _ _ => some path

/-- `push`; `none` when the stack is full. -/
def push (stack : List (NodePtr α)) (node : NodePtr α) : Option (List (NodePtr α)) :=
  if stack.length < MAX_HEIGHT + 1 then some (node :: stack) else none

/-- The pushes of `visit` along the left links. -/
def pushLeft : List Bool → Tree α → List (NodePtr α) → Option (List (NodePtr α))
  | _,.leaf,stack => some stack
  | path,.node l _ x r,stack => (push stack ⟨path,l,x,r⟩).bind (pushLeft (false :: path) l)

def pushTop : List (NodePtr α) → Option (List (NodePtr α))
  | [] => none
  | top :: rest => push (top :: rest) top

def visit (path : List Bool) (t : Tree α) (stack : List (NodePtr α)) : Option (List (NodePtr α)) :=
  match t with
  | .leaf => some stack
  | .node _ _ _ _ => (pushLeft path t stack).bind pushTop

/-- `next`: after a left child comes its parent, after a node its right subtree, and
    otherwise the search goes on above. -/
def next : List (NodePtr α) → Option (List (NodePtr α))
  | [] => none
  | [_] => some []
  | last :: top :: rest =>
    if address (false :: top.path) top.left = some last.path then pushTop (top :: rest)
    else if last.path = top.path ∧ address (true :: top.path) top.right ≠ none then
      visit (true :: top.path) top.right (top :: rest)
    else next (top :: rest)

def collect : Nat → List (NodePtr α) → Option (List α)
  | _,[] => some []
  | 0,_ :: _ => none
  | n + 1,top :: rest => (next (top :: rest)).bind fun stack => (collect n stack).map (top.data :: ·)

def iterate (t : Tree α) : Option (List α) := (visit [] t []).bind (collect t.items.length)

section Iterator
variable {path : List Bool} {l r : Tree α} {b : Int} {x : α} {above : List (NodePtr α)}

theorem pushTop_cons (top : NodePtr α) :
    pushTop (top :: above) = if above.length + 1 < MAX_HEIGHT + 1 then some (top :: top :: above) else none := rfl

theorem visit_node : visit path (.node l b x r) above =
    (push above ⟨path,l,x,r⟩).bind fun stack =>
      match l with
      | .leaf => pushTop stack
      | .node _ _ _ _ => visit (false :: path) l stack := by
  rw [visit,pushLeft,Option.bind_assoc]
  cases l with
  | leaf => rfl
  | node => rfl

/-- The end of the left subtree leads to its parent. -/
theorem next_left (last : NodePtr α) (filled : address (false :: path) l = some last.path) :
    next (last :: ⟨path,l,x,r⟩ :: above) = pushTop (⟨path,l,x,r⟩ :: above) := by
  rw [next,if_pos filled]

theorem next_right (last : NodePtr α) (right : last.path = true :: path) :
    next (last :: ⟨path,l,x,r⟩ :: above) = next (⟨path,l,x,r⟩ :: above) := by
  rw [next,if_neg,if_neg]
  · rintro ⟨same,_⟩
    exact List.cons_ne_self _ _ (right.symm.trans same)
  · rw [right]
    cases l <;> simp [address]

theorem next_self : next (⟨path,l,x,r⟩ :: ⟨path,l,x,r⟩ :: above) =
    match r with
    | .leaf => next (⟨path,l,x,r⟩ :: above)
    | .node _ _ _ _ => visit (true :: path) r (⟨path,l,x,r⟩ :: above) := by
  rw [next,if_neg (by cases l <;> simp [address])]
  cases r <;> simp [address]

/-- What the iteration of a subtree below `above` gives: its items in order, and then what
    comes above it, unless the subtree is too high for the stack. -/
def Iterates (t : Tree α) : Prop :=
  ∀ l b x r, t = .node l b x r → ∀ (path : List Bool) (above : List (NodePtr α)) (k : Nat),
    (visit path t above).bind (collect (t.items.length + k)) =
      if above.length + t.height ≤ MAX_HEIGHT then
        (next (⟨path,l,x,r⟩ :: above)).bind fun stack => (collect k stack).map (t.items ++ ·)
      else none

theorem collect_self (right : Iterates r) (room : above.length + 1 ≤ MAX_HEIGHT) (k : Nat) :
    collect (r.items.length + k + 1) (⟨path,l,x,r⟩ :: ⟨path,l,x,r⟩ :: above) =
      if above.length + 1 + r.height ≤ MAX_HEIGHT then
        (next (⟨path,l,x,r⟩ :: above)).bind fun stack => (collect k stack).map (x :: r.items ++ ·)
      else none := by
  rw [collect,next_self]
  cases r with
  | leaf => simp [room]
  | node l' b' x' r' =>
    have below := right l' b' x' r' rfl (true :: path) (⟨path,l,x,.node l' b' x' r'⟩ :: above) k
    rw [next_right _ rfl,List.length_cons] at below
    have here := congrArg (Option.map (x :: ·)) below
    rw [Option.map_bind] at here
    refine here.trans ?_
    split
    next => rw [Option.map_bind]; simp [Function.comp_def]
    next => rfl

theorem iterates (t : Tree α) : Iterates t := by
  induction t with
  | leaf => rintro _ _ _ _ ⟨⟩
  | node l b x r left right =>
    rintro _ _ _ _ ⟨⟩ path above k
    have size : (Tree.node l b x r).items.length + k = l.items.length + (r.items.length + k + 1) := by
      simp [Tree.items]
      omega
    rw [size,visit_node,push]
    cases l with
    | leaf =>
      simp only [Tree.height,Tree.items,List.length_nil,Nat.zero_add,List.nil_append,Nat.zero_max]
      by_cases room : above.length + 1 ≤ MAX_HEIGHT
      · rw [if_pos (by omega),Option.bind_some,pushTop_cons,if_pos (by omega),Option.bind_some,collect_self right room]
        exact if_congr (by omega) rfl rfl
      · rw [if_neg (by omega : ¬above.length + (r.height + 1) ≤ MAX_HEIGHT)]
        split
        next => rw [Option.bind_some,pushTop_cons,if_neg (by omega)]; rfl
        next => rfl
    | node l' b' x' r' =>
      by_cases space : above.length < MAX_HEIGHT + 1
      · rw [if_pos space,Option.bind_some,left l' b' x' r' rfl (false :: path) (⟨path,_,x,r⟩ :: above),List.length_cons,
          next_left _ rfl,pushTop_cons]
        by_cases fits : above.length + 1 + (Tree.node l' b' x' r').height ≤ MAX_HEIGHT
        · have deep : 0 < (Tree.node l' b' x' r').height := Nat.succ_pos _
          rw [if_pos fits,if_pos (by omega),Option.bind_some,collect_self right (by omega)]
          split
          next =>
            rw [if_pos (by rw [Tree.height]; omega),Option.map_bind]
            simp [Tree.items,Function.comp_def]
          next =>
            rw [if_neg (by rw [Tree.height]; omega)]
            rfl
        · rw [if_neg fits,if_neg (by rw [Tree.height]; omega)]
      · rw [if_neg space,if_neg (by rw [Tree.height]; omega)]
        rfl

/-- The iterator meets the items in order, once each, when the tree has at most 32 levels;
    otherwise its stack overflows. -/
theorem iterate_eq (t : Tree α) : iterate t = if t.height ≤ MAX_HEIGHT then some t.items else none := by
  cases t with
  | leaf => rfl
  | node l b x r =>
    have whole := iterates (.node l b x r) l b x r rfl [] [] 0
    rw [Nat.add_zero,List.length_nil,Nat.zero_add] at whole
    refine whole.trans ?_
    split
    next => simp [next,collect]
    next => rfl

end Iterator

/-- A call of `add` or of `set`. -/
inductive Op (α : Type u) where
  | add (item : α)
  | set (item : α)

def Op.item : Op α → α
  | add item | set item => item

def Op.apply (key : α → κ) (t : GenTree α) : Op α → Option (GenTree α)
  | add item => Avl.add key t item
  | set item => Avl.set key t item

/-- The calls in turn, from the empty tree. -/
def run (key : α → κ) (ops : List (Op α)) : Option (GenTree α) := ops.foldlM (Op.apply key) ⟨.leaf,0⟩

def Op.Effect (key : α → κ) (old new : List α) : Op α → Prop
  | add item => new = old.orderedInsert (KeyLE key) item
  | set item => Sets key item old new

/-- The tree is as it should be after the calls: balanced and ordered, with the count of its
    items, exactly the keys inserted, and an iterator that meets each item once in order. -/
structure Right (key : α → κ) (ops : List (Op α)) (t : GenTree α) : Prop where
  valid : Valid key t
  found : ∀ k, (find key k t.root).isSome ↔ ∃ op ∈ ops, key op.item = k
  iterated : iterate t.root = some t.root.items

/-- Every state of a run is right, and each call does what it should. -/
def RunsRight (key : α → κ) (ops : List (Op α)) : Prop :=
  ∀ done rest, ops = done ++ rest → ∃ t, run key done = some t ∧ Right key done t ∧
    ∀ op rest', rest = op :: rest' → ∃ t', op.apply key t = some t' ∧ op.Effect key t.root.items t'.root.items

/-- The count stays an `int` when a call inserts its item. -/
def Op.Room (key : α → κ) (t : GenTree α) : Op α → Prop
  | add _ => t.cnt < maxInt
  | set item => (∀ x ∈ t.root.items, key x ≠ key item) → t.cnt < maxInt

section Runs
variable {key : α → κ} {t t' : GenTree α} {op : Op α} {ops : List (Op α)}

theorem run_snoc (ops : List (Op α)) (op : Op α) : run key (ops ++ [op]) = (run key ops).bind fun t => op.apply key t := by
  rw [run,List.foldlM_append,run]
  cases ops.foldlM (Op.apply key) ⟨.leaf,0⟩ with
  | none => rfl
  | some t => simp

theorem apply_spec (valid : Valid key t) (low : t.root.height ≤ MAX_HEIGHT) (room : op.Room key t) :
    ∃ t', op.apply key t = some t' ∧ Valid key t' ∧ op.Effect key t.root.items t'.root.items := by
  cases op with
  | add item => exact add_spec valid low room
  | set item => exact set_spec valid low room

theorem Op.Effect.keys {old new : List α} (effect : op.Effect key old new) (k : κ) :
    (∃ x ∈ new, key x = k) ↔ (∃ x ∈ old, key x = k) ∨ key op.item = k := by
  have inserted (item : α) : (∃ x ∈ old.orderedInsert (KeyLE key) item, key x = k) ↔
      (∃ x ∈ old, key x = k) ∨ key item = k := by
    simp only [List.mem_orderedInsert,or_and_right,exists_or,exists_eq_left,or_comm]
  cases op with
  | add item => rw [show new = _ from effect]; exact inserted item
  | set item =>
    rw [Op.Effect,Sets] at effect
    split at effect
    next =>
      obtain ⟨before,x,after,rfl,same,rfl⟩ := effect
      simp only [Op.item,List.mem_append,List.mem_cons,or_and_right,exists_or,exists_eq_left,same]
      exact ⟨.inl,fun either => either.elim id fun here => .inr (.inl here)⟩
    next => rw [effect]; exact inserted item

theorem find_iff (valid : Valid key t) (k : κ) : (find key k t.root).isSome ↔ ∃ x ∈ t.root.items, key x = k := by
  refine ⟨fun found => ?_,fun ⟨x,member,same⟩ => find_complete valid.ordered member same⟩
  obtain ⟨x,found⟩ := Option.isSome_iff_exists.mp found
  exact ⟨x,find_sound found⟩

theorem insert_none (full : ¬t.cnt < maxInt) (item : α) (last : Last α) : insert t item last = none := if_neg full

theorem room_of_apply (low : t.root.height ≤ MAX_HEIGHT) (applied : op.apply key t = some t') : op.Room key t := by
  cases op with
  | add item =>
    by_contra full
    rw [Op.apply,add,search_free false t.root [] ⟨[],t.root,[]⟩ low low (by simp)] at applied
    exact Option.some_ne_none _ (applied.symm.trans (insert_none full item _))
  | set item =>
    intro absent
    by_contra full
    rw [Op.apply,set,search_free true t.root [] ⟨[],t.root,[]⟩ low low fun _ => absent] at applied
    exact Option.some_ne_none _ (applied.symm.trans (insert_none full item _))

/-- The states of a run are right, and so are its calls, exactly as long as no tree has more
    than 32 levels and the count fits. -/
theorem runs_right_iff (key : α → κ) (ops : List (Op α)) :
    RunsRight key ops ↔ ∀ done rest, ops = done ++ rest → ∀ t, run key done = some t →
      t.root.height ≤ MAX_HEIGHT ∧ ∀ op rest', rest = op :: rest' → op.Room key t := by
  refine ⟨fun right done rest split t reached => ?_,fun low done => ?_⟩
  · obtain ⟨_,reached',now,step⟩ := right done rest split
    obtain rfl := Option.some.inj (reached.symm.trans reached')
    have levels : t.root.height ≤ MAX_HEIGHT := by
      have iterated := now.iterated
      rw [iterate_eq] at iterated
      split at iterated
      next levels => exact levels
      next => cases iterated
    refine ⟨levels,fun op rest' next => ?_⟩
    obtain ⟨t',applied,_⟩ := step op rest' next
    exact room_of_apply levels applied
  · induction done using List.reverseRecOn with
    | nil =>
      intro rest split
      have valid : Valid key (⟨.leaf,0⟩ : GenTree α) := ⟨trivial,List.Pairwise.nil,rfl⟩
      refine ⟨⟨.leaf,0⟩,rfl,⟨valid,fun k => by simp [find],rfl⟩,fun op rest' next => ?_⟩
      obtain ⟨levels,room⟩ := low [] rest split _ rfl
      obtain ⟨t',applied,_,effect⟩ := apply_spec valid levels (room op rest' next)
      exact ⟨t',applied,effect⟩
    | append_singleton done op ih =>
      intro rest split
      rw [List.append_assoc] at split
      obtain ⟨t,reached,now,step⟩ := ih (op :: rest) split
      obtain ⟨levels,room⟩ := low done (op :: rest) split t reached
      obtain ⟨t',applied,valid',effect⟩ := apply_spec now.valid levels (room op rest rfl)
      have reached' : run key (done ++ [op]) = some t' := by rw [run_snoc,reached,Option.bind_some,applied]
      obtain ⟨levels',room'⟩ := low (done ++ [op]) rest (by rw [split,List.append_assoc]) t' reached'
      refine ⟨t',reached',⟨valid',fun k => ?_,by rw [iterate_eq,if_pos levels']⟩,fun op' rest' next => ?_⟩
      · rw [find_iff valid',effect.keys,← find_iff now.valid,now.found]
        simp [or_and_right,exists_or]
      · obtain ⟨t'',applied',_,effect'⟩ := apply_spec valid' levels' (room' op' rest' next)
        exact ⟨t'',applied',effect'⟩

theorem cnt_insert {item : α} {last : Last α} (inserted : insert t item last = some t') :
    t.cnt < maxInt ∧ t'.cnt = t.cnt + 1 := by
  unfold insert at inserted
  split at inserted
  next room =>
    refine ⟨room,?_⟩
    split at inserted
    next => cases inserted; rfl
    next =>
      obtain ⟨w,_,rfl⟩ := Option.map_eq_some_iff.mp inserted
      rfl
  next => cases inserted

theorem cnt_run_add (items : List α) (reached : run key (items.map .add) = some t) :
    t.cnt = items.length ∧ t.cnt ≤ maxInt := by
  induction items using List.reverseRecOn generalizing t with
  | nil => cases reached; exact ⟨rfl,Int.natCast_nonneg _⟩
  | append_singleton items item ih =>
    rw [List.map_append,List.map_singleton,run_snoc] at reached
    obtain ⟨t₀,before,applied⟩ := Option.bind_eq_some_iff.mp reached
    obtain ⟨count,_⟩ := ih before
    obtain ⟨place,_,inserted⟩ := Option.bind_eq_some_iff.mp applied
    cases place with
    | found above p => cases inserted
    | free last =>
      obtain ⟨room,one⟩ := cnt_insert inserted
      rw [List.length_append,List.length_singleton]
      omega

end Runs

/-- No tree holds 2^31 items: the count of the items, an `int`, overflows. -/
theorem runs_overflow : ¬∀ ops : List (Op Nat), RunsRight id ops := by
  intro right
  let items := List.range (2 ^ 31)
  obtain ⟨t,reached,_⟩ := right (items.map .add) (items.map .add) [] (List.append_nil _).symm
  obtain ⟨count,bounded⟩ := cnt_run_add items reached
  rw [count,List.length_range] at bounded
  exact absurd bounded (by decide)

end Otawa.Avl
