import Otawa.AvlTree

/-!
Insertion in an AVL tree (`GenTree::add` and `set`). The descent remembers the last node
that is not even: only the balance fields from it on change, and only it may need a
rotation. The directions are kept in an array of 32 entries.
-/
namespace Otawa.Avl

universe u
variable {α : Type u} {κ : Type*} [LinearOrder κ]

/-- `GenTree`: the root and the number of items. -/
structure GenTree (α : Type u) where
  root : Tree α
  cnt : Int

/-- The size of the arrays of directions and of nodes. -/
def MAX_HEIGHT : Nat := 32

/-- The greatest `int`. -/
def maxInt : Int := 2147483647

def find (key : α → κ) (k : κ) : Tree α → Option α
  | .leaf => none
  | .node l _ x r => if k < key x then find key k l else if key x < k then find key k r else some x

/-- The last node that is not even, `y` under the frames of `z`, and the directions from it. -/
structure Last (α : Type u) where
  z : List (Frame α)
  y : Tree α
  da : List Bool

/-- The end of a descent: a node with the same key, or a null link. -/
inductive Place (α : Type u) where
  | found (above : List (Frame α)) (p : Tree α)
  | free (last : Last α)

/-- The loop of `add`, and of `set` with its test of equality (`same`); `none` when the
    array of directions is full. -/
def search (key : α → κ) (same : Bool) (item : α) : List (Frame α) → Tree α → Last α → Option (Place α)
  | _,.leaf,last => some (.free last)
  | above,.node l b x r,last =>
    if same = true ∧ key item = key x then some (.found above (.node l b x r))
    else
      let last := if b ≠ 0 then ⟨above,.node l b x r,[]⟩ else last
      if last.da.length < MAX_HEIGHT then
        if key x < key item then search key same item (⟨true,b,x,l⟩ :: above) r { last with da := last.da ++ [true] }
        else search key same item (⟨false,b,x,r⟩ :: above) l { last with da := last.da ++ [false] }
      else none

/-- The node linked at the end of the directions, and the balance fields on the way. -/
def grow (item : α) : Tree α → List Bool → Tree α
  | .leaf,_ => .node .leaf 0 item .leaf
  | .node l b x r,true :: da => .node l (b + 1) x (grow item r da)
  | .node l b x r,false :: da => .node (grow item l da) (b - 1) x r
  | .node l b x r,[] => .node l b x r

/-- The rotations at `y`, too high at the link of index `dir`. -/
def rotate (dir : Bool) (x : Tree α) (yData : α) (yFar : Tree α) : Option (Tree α) :=
  (x.view dir).bind fun (xNear,xBalance,xData,xFar) =>
    if xBalance = sign dir then some (Tree.make dir xNear 0 xData (Tree.make dir xFar 0 yData yFar))
    else Tree.rotateTwice dir xNear xData xFar yData yFar

/-- The rebalancing of `y`. -/
def rebalance : Tree α → Option (Tree α)
  | .leaf => some .leaf
  | .node l b x r =>
    if b = -2 then rotate false l x r
    else if b = 2 then rotate true r x l
    else some (.node l b x r)

/-- `AbstractTree::insert`; `none` when the count overflows. -/
def insert (t : GenTree α) (item : α) (last : Last α) : Option (GenTree α) :=
  if t.cnt < maxInt then
    match last.y with
    | .leaf => some ⟨plug last.z (.node .leaf 0 item .leaf),t.cnt + 1⟩
    | .node l b x r => (rebalance (grow item (.node l b x r) last.da)).map fun w => ⟨plug last.z w,t.cnt + 1⟩
  else none

def add (key : α → κ) (t : GenTree α) (item : α) : Option (GenTree α) :=
  (search key false item [] t.root ⟨[],t.root,[]⟩).bind fun
    | .found _ _ => none
    | .free last => insert t item last

/-- `p->data = item`. -/
def Tree.setData (item : α) : Tree α → Tree α
  | leaf => leaf
  | node l b _ r => node l b item r

def set (key : α → κ) (t : GenTree α) (item : α) : Option (GenTree α) :=
  (search key true item [] t.root ⟨[],t.root,[]⟩).bind fun
    | .found above p => some ⟨plug above (p.setData item),t.cnt⟩
    | .free last => insert t item last

/-- Items compare as their keys do. -/
def KeyLE (key : α → κ) (a b : α) : Prop := key a ≤ key b

instance (key : α → κ) : DecidableRel (KeyLE key) := fun a b => inferInstanceAs (Decidable (key a ≤ key b))
instance (key : α → κ) : IsTrans α (KeyLE key) := ⟨fun _ _ _ => le_trans (α := κ)⟩
instance (key : α → κ) : Std.Total (KeyLE key) := ⟨fun a b => le_total (key a) (key b)⟩

def Ordered (key : α → κ) (t : Tree α) : Prop := t.items.Pairwise (KeyLE key)

section Order
variable {key : α → κ} {item x : α} {left right : List α}

private theorem insert_right (sorted : (left ++ x :: right).Pairwise (KeyLE key)) (greater : key x < key item) :
    (left ++ x :: right).orderedInsert (KeyLE key) item = left ++ x :: right.orderedInsert (KeyLE key) item := by
  induction left with
  | nil => exact List.orderedInsert_of_not_le _ _ greater.not_ge
  | cons a left ih =>
    obtain ⟨first,rest⟩ := List.pairwise_cons.mp sorted
    have smaller : ¬KeyLE key item a := fun le =>
      absurd (le_trans (α := κ) le (first x (by simp))) greater.not_ge
    rw [List.cons_append,List.orderedInsert_of_not_le _ _ smaller,ih rest,List.cons_append]

private theorem insert_left (notGreater : ¬key x < key item) :
    (left ++ x :: right).orderedInsert (KeyLE key) item = left.orderedInsert (KeyLE key) item ++ x :: right := by
  induction left with
  | nil => exact List.orderedInsert_cons_of_le _ _ (not_lt.mp notGreater)
  | cons a left ih =>
    rw [List.cons_append,List.orderedInsert_cons,List.orderedInsert_cons,ih]
    split <;> rfl

theorem insert_make {dir : Bool} {near near' far : Tree α} {b b' : Int}
    (sorted : Ordered key (Tree.make dir near b x far)) (goes : dir = decide (key x < key item))
    (inserted : near'.items = near.items.orderedInsert (KeyLE key) item) :
    (Tree.make dir near' b' x far).items =
      (Tree.make dir near b x far).items.orderedInsert (KeyLE key) item := by
  simp only [Ordered,Tree.items_make] at sorted ⊢
  cases dir with
  | false =>
    simp only [Bool.false_eq_true,if_false] at sorted ⊢
    rw [insert_left (of_decide_eq_false goes.symm),inserted]
  | true =>
    simp only [if_true] at sorted ⊢
    rw [insert_right sorted (of_decide_eq_true goes.symm),inserted]

theorem ordered_near {dir : Bool} {near far : Tree α} {b : Int} (sorted : Ordered key (Tree.make dir near b x far)) :
    Ordered key near := by
  simp only [Ordered,Tree.items_make] at sorted ⊢
  cases dir with
  | false => exact (List.pairwise_append.mp sorted).1
  | true => exact (List.pairwise_append.mp sorted).2.1.of_cons

theorem present_near {dir : Bool} {near far : Tree α} {b : Int} {k : κ}
    (sorted : Ordered key (Tree.make dir near b x far)) (goes : dir = decide (key x < k))
    (present : ∃ y ∈ (Tree.make dir near b x far).items, key y = k) (other : k ≠ key x) :
    ∃ y ∈ near.items, key y = k := by
  obtain ⟨y,member,same⟩ := present
  refine ⟨y,?_,same⟩
  simp only [Ordered,Tree.items_make] at sorted member
  cases dir with
  | false =>
    simp only [Bool.false_eq_true,if_false,List.mem_append,List.mem_cons] at sorted member
    rcases member with inside | rfl | beyond
    · exact inside
    · exact absurd same.symm other
    · have order : key x ≤ key y := List.rel_of_pairwise_cons (List.pairwise_append.mp sorted).2.1 beyond
      have notGreater := not_lt.mp (of_decide_eq_false goes.symm)
      exact absurd (le_antisymm notGreater (same ▸ order)) other
  | true =>
    simp only [if_true,List.mem_append,List.mem_cons] at sorted member
    rcases member with before | rfl | inside
    · have order : key y ≤ key x := (List.pairwise_append.mp sorted).2.2 y before x List.mem_cons_self
      have greater := of_decide_eq_true goes.symm
      exact absurd greater (same ▸ order).not_gt
    · exact absurd same.symm other
    · exact inside

end Order

section Descent
variable {key : α → κ} {item : α}

theorem descent_induction (key : α → κ) (k : κ) {motive : Tree α → Prop} (leaf : motive .leaf)
    (node : ∀ dir near b x far, dir = decide (key x < k) → motive near → motive (Tree.make dir near b x far))
    (t : Tree α) : motive t := by
  induction t with
  | leaf => exact leaf
  | node l b x r left right =>
    by_cases greater : key x < k
    · exact node true r b x l (decide_eq_true greater).symm right
    · exact node false l b x r (decide_eq_false greater).symm left

/-- The directions to the place of an item. -/
def path (key : α → κ) (item : α) : Tree α → List Bool
  | .leaf => []
  | .node l _ x r => if key x < key item then true :: path key item r else false :: path key item l

/-- The last node of the descent that is not even. -/
def uneven (key : α → κ) (item : α) : Tree α → Option (List (Frame α) × Tree α)
  | .leaf => none
  | .node l b x r =>
    let below := if key x < key item then (uneven key item r).map fun u => (u.1 ++ [⟨true,b,x,l⟩],u.2)
      else (uneven key item l).map fun u => (u.1 ++ [⟨false,b,x,r⟩],u.2)
    below.or (if b ≠ 0 then some ([],.node l b x r) else none)

variable {dir same : Bool} {near far p : Tree α} {b : Int} {x : α} {above : List (Frame α)} {last : Last α}
variable (goes : dir = decide (key x < key item))
include goes

theorem path_make : path key item (Tree.make dir near b x far) = dir :: path key item near := by
  cases dir with
  | false => exact if_neg (of_decide_eq_false goes.symm)
  | true => exact if_pos (of_decide_eq_true goes.symm)

theorem uneven_make : uneven key item (Tree.make dir near b x far) =
    ((uneven key item near).map fun u => (u.1 ++ [⟨dir,b,x,far⟩],u.2)).or
      (if b ≠ 0 then some ([],Tree.make dir near b x far) else none) := by
  cases dir with
  | false =>
    show Option.or _ _ = _
    rw [if_neg (of_decide_eq_false goes.symm)]
    rfl
  | true =>
    show Option.or _ _ = _
    rw [if_pos (of_decide_eq_true goes.symm)]
    rfl

omit goes in
theorem grow_make (da : List Bool) : grow item (Tree.make dir near b x far) (dir :: da) =
    Tree.make dir (grow item near da) (b + sign dir) x far := by
  cases dir <;> rfl

theorem search_make : search key same item above (Tree.make dir near b x far) last =
    if same = true ∧ key item = key x then some (.found above (Tree.make dir near b x far))
    else
      let last := if b ≠ 0 then ⟨above,Tree.make dir near b x far,[]⟩ else last
      if last.da.length < MAX_HEIGHT then
        search key same item (⟨dir,b,x,far⟩ :: above) near { last with da := last.da ++ [dir] }
      else none := by
  cases dir with
  | false => simp only [Tree.make,Bool.false_eq_true,if_false,search,of_decide_eq_false goes.symm]
  | true => simp only [Tree.make,if_true,search,of_decide_eq_true goes.symm]

end Descent

section Search
variable {key : α → κ} {item : α}

/-- The place of the search in terms of the last node that is not even. -/
def lastOf (key : α → κ) (item : α) (above : List (Frame α)) (p : Tree α) (last : Last α) : Last α :=
  match uneven key item p with
  | none => { last with da := last.da ++ path key item p }
  | some (frames,u) => ⟨frames ++ above,u,path key item u⟩

theorem search_free (same : Bool) (p : Tree α) (above : List (Frame α)) (last : Last α)
    (room : p.height + last.da.length ≤ MAX_HEIGHT) (low : p.height ≤ MAX_HEIGHT)
    (absent : same = true → ∀ x ∈ p.items, key x ≠ key item) :
    search key same item above p last = some (.free (lastOf key item above p last)) := by
  induction p using descent_induction key (key item) generalizing above last with
  | leaf => simp [search,lastOf,uneven,path]
  | node dir near b x far goes ih =>
    have other : ¬(same = true ∧ key item = key x) := fun found =>
      absent found.1 x (by cases dir <;> simp [Tree.items_make]) found.2.symm
    have absent' : same = true → ∀ y ∈ near.items, key y ≠ key item := fun exact_ y member =>
      absent exact_ y (by cases dir <;> simp [Tree.items_make,member])
    rw [Tree.height_make] at room low
    have nearLow : near.height + 1 ≤ MAX_HEIGHT := by omega
    rw [search_make goes,if_neg other]
    by_cases even : b = 0
    · have space : last.da.length < MAX_HEIGHT := by omega
      simp only [even,ne_eq,not_true,if_false,space,if_true]
      rw [ih _ _ (by simp; omega) (by omega) absent']
      simp only [lastOf,uneven_make goes,path_make goes]
      cases uneven key item near with
      | none => simp
      | some u => simp
    · simp only [even,ne_eq,not_false_iff,if_true,List.length_nil,List.nil_append]
      rw [if_pos (by omega),ih _ _ (by simp; omega) (by omega) absent']
      simp only [lastOf,uneven_make goes,path_make goes]
      cases uneven key item near with
      | none => simp [even,path_make goes]
      | some u => simp

end Search

section Insertion
variable {key : α → κ} {item : α} {p : Tree α}

variable (item) in
theorem items_grow (sorted : Ordered key p) :
    (grow item p (path key item p)).items = p.items.orderedInsert (KeyLE key) item := by
  induction p using descent_induction key (key item) with
  | leaf => rfl
  | node dir near b x far goes ih =>
    rw [path_make goes,grow_make]
    exact insert_make sorted goes (ih (ordered_near sorted))

theorem grow_even (balanced : p.Balanced) (even : uneven key item p = none) :
    (grow item p (path key item p)).Balanced ∧ (grow item p (path key item p)).height = p.height + 1 := by
  induction p using descent_induction key (key item) with
  | leaf => simp [grow,Tree.Balanced,Tree.height]
  | node dir near b x far goes ih =>
    obtain ⟨balancedN,balancedF,field,_,_⟩ := Tree.balanced_make.mp balanced
    rw [uneven_make goes,Option.or_eq_none_iff,Option.map_eq_none_iff] at even
    obtain ⟨below,here⟩ := even
    obtain ⟨balanced',higher⟩ := ih balancedN below
    have zero : b = 0 := by simpa using here
    rw [path_make goes,grow_make,Tree.balanced_make,Tree.height_make,Tree.height_make,higher]
    have equal : near.height = far.height := by cases dir <;> simp [sign] at field <;> omega
    refine ⟨⟨balanced',balancedF,?_,?_,?_⟩,?_⟩
    · simp only [zero,equal]
      cases dir <;> simp only [sign,Bool.false_eq_true,if_true,if_false] <;> omega
    all_goals cases dir <;> simp [sign,zero,equal]

theorem grow_leans (balanced : p.Balanced) (even : uneven key item p = none) (filled : 0 < p.height) :
    ∃ dir near x far, grow item p (path key item p) = Tree.make dir near (sign dir) x far := by
  induction p using descent_induction key (key item) with
  | leaf => simp at filled
  | node dir near b x far goes _ =>
    rw [uneven_make goes,Option.or_eq_none_iff] at even
    have zero : b = 0 := by simpa using even.2
    rw [path_make goes,grow_make,zero,Int.zero_add]
    exact ⟨dir,_,x,far,rfl⟩

/-- A rotation repairs a node that is two levels too high at a leaning subtree. -/
theorem rotate_spec (dir : Bool) (yData : α) {lean : Bool} {near xFar far : Tree α} {xData : α}
    (balancedX : (Tree.make lean near (sign lean) xData xFar).Balanced) (balancedF : far.Balanced)
    (higher : (Tree.make lean near (sign lean) xData xFar).height = far.height + 2) (b : Int) :
    ∃ w, rotate dir (Tree.make lean near (sign lean) xData xFar) yData far = some w ∧ w.Balanced ∧
      w.height = far.height + 2 ∧
      w.items = (Tree.make dir (Tree.make lean near (sign lean) xData xFar) b yData far).items := by
  obtain ⟨balancedN,balancedX',field,_,_⟩ := Tree.balanced_make.mp balancedX
  rw [Tree.height_make] at higher
  have lower : near.height = xFar.height + 1 := by cases lean <;> simp [sign] at field <;> omega
  rcases Bool.eq_or_eq_not lean dir with rfl | rfl
  · refine ⟨_,by simp only [rotate,Tree.view_make,Option.bind_some]; exact if_pos trivial,?_,?_,Tree.items_rotate⟩
    · simp only [Tree.balanced_make,Tree.height_make,balancedN,balancedX',balancedF,true_and]
      cases lean <;> simp only [sign,Bool.false_eq_true,if_true,if_false] <;> omega
    · simp only [Tree.height_make]
      omega
  · obtain ⟨w,rotated,balancedW,heightW,itemsW⟩ := Tree.rotateTwice_spec dir xData yData
      balancedX' balancedN balancedF (by omega) (by omega) (sign (!dir)) b
    have swapped : Tree.make (!dir) near (sign !dir) xData xFar = Tree.make dir xFar (sign !dir) xData near := by
      cases dir <;> rfl
    have other : sign (!dir) ≠ sign dir := by cases dir <;> simp [sign]
    rw [swapped]
    exact ⟨w,by simp only [rotate,Tree.view_make,Option.bind_some,other,if_false]; exact rotated,balancedW,heightW,itemsW⟩

theorem rebalance_of_balanced (balanced : p.Balanced) : rebalance p = some p := by
  cases p with
  | leaf => rfl
  | node l b x r =>
    obtain ⟨_,_,_,_,_⟩ := balanced
    rw [rebalance,if_neg (by omega),if_neg (by omega)]

theorem rebalance_make {dir : Bool} {near far : Tree α} {x : α} :
    rebalance (Tree.make dir near (2 * sign dir) x far) = rotate dir near x far := by
  cases dir <;> rfl

theorem insert_below {dir : Bool} {near far : Tree α} {b : Int} {x : α}
    (balanced : (Tree.make dir near b x far).Balanced) (even : uneven key item near = none) (leans : b ≠ 0) :
    ∃ w, rebalance (Tree.make dir (grow item near (path key item near)) (b + sign dir) x far) = some w ∧ w.Balanced ∧
      w.height = (Tree.make dir near b x far).height ∧
      w.items = (Tree.make dir (grow item near (path key item near)) b x far).items := by
  obtain ⟨balancedN,balancedF,field,low,high⟩ := Tree.balanced_make.mp balanced
  obtain ⟨balanced',higher⟩ := grow_even balancedN even
  by_cases toward : b = sign dir
  · have taller : near.height = far.height + 1 := by cases dir <;> simp [sign] at field toward <;> omega
    obtain ⟨lean,near',x',far',grown⟩ := grow_leans balancedN even (by omega)
    rw [grown] at balanced' higher ⊢
    obtain ⟨w,rotated,balancedW,heightW,itemsW⟩ := rotate_spec dir x balanced' balancedF (by omega) b
    refine ⟨w,?_,balancedW,by rw [heightW,Tree.height_make]; omega,itemsW⟩
    rw [(by omega : b + sign dir = 2 * sign dir),rebalance_make,rotated]
  · have away : b + sign dir = 0 := by cases dir <;> simp [sign] at toward ⊢ <;> omega
    have equal : near.height + 1 = far.height := by cases dir <;> simp [sign] at field away <;> omega
    have repaired : (Tree.make dir (grow item near (path key item near)) 0 x far).Balanced := by
      rw [Tree.balanced_make,higher]
      refine ⟨balanced',balancedF,?_,by omega,by omega⟩
      cases dir <;> simp [sign,← equal]
    rw [away]
    refine ⟨_,rebalance_of_balanced repaired,repaired,?_,?_⟩
    · rw [Tree.height_make,Tree.height_make,higher]
      omega
    · cases dir <;> rfl

theorem insert_uneven (balanced : p.Balanced) (sorted : Ordered key p) {frames : List (Frame α)} {u : Tree α}
    (found : uneven key item p = some (frames,u)) :
    u ≠ .leaf ∧ ∃ w, rebalance (grow item u (path key item u)) = some w ∧ (plug frames w).Balanced ∧
      (plug frames w).height = p.height ∧ (plug frames w).items = p.items.orderedInsert (KeyLE key) item := by
  induction p using descent_induction key (key item) generalizing frames u with
  | leaf => simp [uneven] at found
  | node dir near b x far goes ih =>
    obtain ⟨balancedN,balancedF,field,low,high⟩ := Tree.balanced_make.mp balanced
    rw [uneven_make goes] at found
    cases below : uneven key item near with
    | none =>
      rw [below,Option.map_none,Option.none_or] at found
      split at found
      next leans =>
        cases found
        obtain ⟨w,repaired,balancedW,heightW,itemsW⟩ := insert_below balanced below leans
        refine ⟨by cases dir <;> simp [Tree.make],w,?_,balancedW,heightW,?_⟩
        · rw [path_make goes,grow_make,repaired]
        · rw [plug_nil,itemsW]
          exact insert_make sorted goes (items_grow item (ordered_near sorted))
      next => cases found
    | some last =>
      rw [below,Option.map_some,Option.some_or] at found
      cases found
      obtain ⟨filled,w,repaired,balancedW,heightW,itemsW⟩ := ih balancedN (ordered_near sorted) below
      refine ⟨filled,w,repaired,?_,?_,?_⟩
      · rw [plug_append,plug_cons,plug_nil,Frame.attach,Tree.balanced_make,heightW]
        exact ⟨balancedW,balancedF,field,low,high⟩
      · rw [plug_append,plug_cons,plug_nil,Frame.attach,Tree.height_make,Tree.height_make,heightW]
      · rw [plug_append,plug_cons,plug_nil,Frame.attach]
        exact insert_make sorted goes itemsW

end Insertion

/-- A search tree with right balance fields and the number of its items. -/
structure Valid (key : α → κ) (t : GenTree α) : Prop where
  balanced : t.root.Balanced
  ordered : Ordered key t.root
  count : t.cnt = t.root.items.length

section Operations
variable {key : α → κ} {t : GenTree α} {item : α}

variable (item) in
theorem insert_spec (valid : Valid key t) (count : t.cnt < maxInt) :
    ∃ t', insert t item (lastOf key item [] t.root ⟨[],t.root,[]⟩) = some t' ∧ Valid key t' ∧
      t'.root.items = t.root.items.orderedInsert (KeyLE key) item := by
  obtain ⟨balanced,ordered,size⟩ := valid
  have grown {t' : GenTree α} (balanced' : t'.root.Balanced) (one : t'.cnt = t.cnt + 1)
      (items : t'.root.items = t.root.items.orderedInsert (KeyLE key) item) : Valid key t' :=
    ⟨balanced',by rw [Ordered,items]; exact ordered.orderedInsert item _,by
      rw [one,items,List.orderedInsert_length,size]; rfl⟩
  cases last : uneven key item t.root with
  | none =>
    obtain ⟨balanced',_⟩ := grow_even balanced last
    have items := items_grow item ordered
    refine ⟨⟨grow item t.root (path key item t.root),t.cnt + 1⟩,?_,grown balanced' rfl items,items⟩
    simp only [insert,count,if_true,lastOf,last,List.nil_append]
    cases root : t.root with
    | leaf => rfl
    | node l b x r =>
      rw [root] at balanced'
      simp only [rebalance_of_balanced balanced',Option.map_some,plug_nil]
  | some found =>
    obtain ⟨frames,u⟩ := found
    obtain ⟨filled,w,repaired,balanced',_,items⟩ := insert_uneven balanced ordered last
    refine ⟨⟨plug frames w,t.cnt + 1⟩,?_,grown balanced' rfl items,items⟩
    simp only [insert,count,if_true,lastOf,last,List.append_nil]
    cases u with
    | leaf => exact absurd rfl filled
    | node l b x r => simp only [repaired,Option.map_some]

theorem add_spec (valid : Valid key t) (low : t.root.height ≤ MAX_HEIGHT) (count : t.cnt < maxInt) :
    ∃ t', add key t item = some t' ∧ Valid key t' ∧
      t'.root.items = t.root.items.orderedInsert (KeyLE key) item := by
  obtain ⟨t',inserted,valid',items⟩ := insert_spec item valid count
  refine ⟨t',?_,valid',items⟩
  rw [add,search_free false t.root [] ⟨[],t.root,[]⟩ low low (by simp)]
  exact inserted

theorem search_found (p : Tree α) (above : List (Frame α)) (last : Last α) (sorted : Ordered key p)
    (room : p.height + last.da.length ≤ MAX_HEIGHT) (low : p.height ≤ MAX_HEIGHT)
    (present : ∃ x ∈ p.items, key x = key item) :
    ∃ frames l b x r, search key true item above p last = some (.found (frames ++ above) (.node l b x r)) ∧
      key item = key x ∧ plug frames (.node l b x r) = p := by
  induction p using descent_induction key (key item) generalizing above last with
  | leaf => simp at present
  | node dir near b x far goes ih =>
    rw [search_make goes]
    by_cases here : key item = key x
    · rw [if_pos ⟨rfl,here⟩]
      cases dir with
      | false => exact ⟨[],near,b,x,far,rfl,here,rfl⟩
      | true => exact ⟨[],far,b,x,near,rfl,here,rfl⟩
    · have inside := present_near sorted goes present here
      rw [Tree.height_make] at room low
      rw [if_neg fun found => here found.2]
      have descend (last' : Last α) (room' : near.height + (last'.da ++ [dir]).length ≤ MAX_HEIGHT) :
          ∃ frames l b' x' r, search key true item (⟨dir,b,x,far⟩ :: above) near { last' with da := last'.da ++ [dir] } =
            some (.found (frames ++ above) (.node l b' x' r)) ∧ key item = key x' ∧
            plug frames (.node l b' x' r) = Tree.make dir near b x far := by
        obtain ⟨frames,l,b',x',r,found,same,rebuilt⟩ := ih (⟨dir,b,x,far⟩ :: above) { last' with da := last'.da ++ [dir] }
          (ordered_near sorted) room' (by omega) inside
        refine ⟨frames ++ [⟨dir,b,x,far⟩],l,b',x',r,by simpa using found,same,?_⟩
        rw [plug_append,rebuilt]
        rfl
      by_cases even : b = 0
      · simp only [even,ne_eq,not_true,if_false]
        rw [if_pos (by omega)]
        exact even ▸ descend last (by simp; omega)
      · simp only [even,ne_eq,not_false_iff,if_true,List.length_nil]
        rw [if_pos (by omega)]
        exact descend ⟨above,Tree.make dir near b x far,[]⟩ (by simp; omega)

/-- What `set` does to the items: it replaces one with the same key, or inserts the item. -/
def Sets (key : α → κ) (item : α) (old new : List α) : Prop :=
  if ∃ x ∈ old, key x = key item then
    ∃ before x after, old = before ++ x :: after ∧ key item = key x ∧ new = before ++ item :: after
  else new = old.orderedInsert (KeyLE key) item

theorem set_spec (valid : Valid key t) (low : t.root.height ≤ MAX_HEIGHT)
    (count : (∀ x ∈ t.root.items, key x ≠ key item) → t.cnt < maxInt) :
    ∃ t', set key t item = some t' ∧ Valid key t' ∧ Sets key item t.root.items t'.root.items := by
  by_cases present : ∃ x ∈ t.root.items, key x = key item
  · obtain ⟨frames,l,b,x,r,found,same,rebuilt⟩ := search_found t.root [] ⟨[],t.root,[]⟩ valid.ordered low low present
    obtain ⟨before,after,around⟩ := items_plug frames
    have old : t.root.items = (before ++ l.items) ++ x :: (r.items ++ after) := by
      rw [← rebuilt,around]
      simp [Tree.items]
    have new : (plug frames (.node l b item r)).items = (before ++ l.items) ++ item :: (r.items ++ after) := by
      rw [around]
      simp [Tree.items]
    have balanced := valid.balanced
    rw [← rebuilt] at balanced
    refine ⟨⟨plug frames (.node l b item r),t.cnt⟩,?_,⟨?_,?_,?_⟩,?_⟩
    · rw [set,found]
      simp only [List.append_nil,Option.bind_some,Tree.setData]
    · have inner : (Tree.node l b x r).Balanced := balanced_of_plug balanced
      exact (@balanced_plug _ frames (.node l b x r) (.node l b item r) balanced inner rfl).1
    · have ordered := valid.ordered
      rw [Ordered,old,List.pairwise_append,List.pairwise_cons] at ordered
      rw [Ordered,new,List.pairwise_append,List.pairwise_cons]
      simpa only [List.mem_cons,forall_eq_or_imp,KeyLE,same] using ordered
    · rw [valid.count,old,new]
      simp
    · rw [Sets,if_pos present]
      exact ⟨_,x,_,old,same,new⟩
  · have absent (x : α) (member : x ∈ t.root.items) : key x ≠ key item := fun same => present ⟨x,member,same⟩
    obtain ⟨t',inserted,valid',items⟩ := insert_spec item valid (count absent)
    refine ⟨t',?_,valid',by rwa [Sets,if_neg present]⟩
    rw [set,search_free true t.root [] ⟨[],t.root,[]⟩ low low fun _ => absent]
    exact inserted

end Operations
end Otawa.Avl
