import Otawa.AvlInsert

/-!
Removal from an AVL tree (`GenTree::remove`). The path starts at the root itself: there is no
entry for its parent, the loop that rebalances stops before it, and the assertion of the
descent is reversed. The removal is right exactly when a node below the root absorbs it.
-/
namespace Otawa.Avl

universe u
variable {α : Type u} {κ : Type*} [LinearOrder κ]

def Tree.balance : Tree α → Int
  | leaf => 0
  | node _ b _ _ => b

/-! ### The code -/

/-- The descent of `remove`; `none` when the arrays are full, when a null pointer is read, and,
    where assertions are compiled (`checked`), when the pointer is not null. -/
def locate (checked : Bool) (key : α → κ) (k : κ) : List (Frame α) → Tree α → Option (List (Frame α) × Tree α)
  | _,.leaf => none
  | above,.node l b x r =>
    if k = key x then some (above,.node l b x r)
    else if above.length < MAX_HEIGHT then
      if key x < k then
        if checked = true ∧ r.height ≠ 0 then none else locate checked key k (⟨true,b,x,l⟩ :: above) r
      else if checked = true ∧ l.height ≠ 0 then none
      else locate checked key k (⟨false,b,x,r⟩ :: above) l
    else none

/-- The path from a node along its left links, with the data and the right subtree of the
    last node, which is left out. -/
def leftmost : Tree α → Int → α → Tree α → List (Frame α) → List (Frame α) × α × Tree α
  | .leaf,_,x,r,path => (path,x,r)
  | .node l' b' x' r',b,x,r,path => leftmost l' b' x' r' (⟨false,b,x,r⟩ :: path)

/-- The way up: each node gets its balance field right, down to the one below the root. The
    loop ends when a height does not change. -/
def rebalanceUp : List (Frame α) → Tree α → Option (Tree α)
  | [],t => some t
  | [f],t => some (f.attach t)
  | ⟨dir,balance,data,sibling⟩ :: g :: above,t =>
    let b := balance - sign dir
    if b = -sign dir then some (plug (g :: above) (Tree.make dir t b data sibling))
    else if b = -(2 * sign dir) then
      (sibling.view !dir).bind fun (xNear,xBalance,xData,xFar) =>
        if xBalance = sign dir then (Tree.rotateTwice (!dir) xNear xData xFar data t).bind (rebalanceUp (g :: above))
        else if xBalance = 0 then
          some (plug (g :: above) (Tree.make (!dir) xNear (sign dir) xData (Tree.make (!dir) xFar (-sign dir) data t)))
        else rebalanceUp (g :: above) (Tree.make (!dir) xNear 0 xData (Tree.make (!dir) xFar 0 data t))
    else rebalanceUp (g :: above) (Tree.make dir t b data sibling)

/-- `AbstractTree::remove`: the leftmost node of the right subtree takes the place of the
    removed one, whose parent is read even when it is the root. -/
def removeNode (above : List (Frame α)) (l : Tree α) (b : Int) : Tree α → Option (Tree α)
  | .leaf => rebalanceUp above l
  | .node rl rb rx rr =>
    let (path,data,right) := leftmost rl rb rx rr []
    let whole := path ++ ⟨true,b,data,l⟩ :: above
    if above ≠ [] ∧ whole.length ≤ MAX_HEIGHT then rebalanceUp whole right else none

def remove (checked : Bool) (key : α → κ) (t : GenTree α) (k : κ) : Option (GenTree α) :=
  (locate checked key k [] t.root).bind fun
    | (_,.leaf) => none
    | (above,.node l b _ r) => (removeNode above l b r).map fun root => ⟨root,t.cnt - 1⟩

/-- A node of the path keeps its height when its child gets lower: it was even, or it leaned
    to the other side where the child is even. -/
def Absorbs (f : Frame α) : Prop := f.balance = 0 ∨ f.balance = -sign f.dir ∧ f.sibling.balance = 0

section Up
variable {dir : Bool} {near far sibling t t' : Tree α} {b : Int} {x data : α}

theorem balance_make : (Tree.make dir near b x far).balance = b := by cases dir <;> rfl

theorem sign_not (dir : Bool) : sign (!dir) = -sign dir := by cases dir <;> rfl

theorem sign_cases (dir : Bool) : sign dir = -1 ∨ sign dir = 1 := by cases dir <;> simp [sign]

theorem items_plug_congr (above : List (Frame α)) (same : t.items = t'.items) :
    (plug above t).items = (plug above t').items := by
  obtain ⟨before,after,around⟩ := items_plug above
  rw [around,around,same]

theorem items_make_congr {dir : Bool} {near near' far : Tree α} {b b' : Int} (same : near.items = near'.items) :
    (Tree.make dir near b x far).items = (Tree.make dir near' b' x far).items := by
  simp only [Tree.items_make,same]

theorem rotate_away (dir : Bool) (b : Int) (balancedS : sibling.Balanced) (balancedT : t.Balanced) (higher : sibling.height = t.height + 2)
    (data : α) :
    ∃ xNear xBalance xData xFar, sibling = Tree.make (!dir) xNear xBalance xData xFar ∧
      (xBalance = sign dir → ∃ w, Tree.rotateTwice (!dir) xNear xData xFar data t = some w ∧ w.Balanced ∧
        w.height = t.height + 2 ∧ w.items = (Tree.make dir t b data sibling).items) ∧
      (xBalance = 0 → ∃ w, Tree.make (!dir) xNear (sign dir) xData (Tree.make (!dir) xFar (-sign dir) data t) = w ∧
        w.Balanced ∧ w.height = t.height + 3 ∧ w.items = (Tree.make dir t b data sibling).items) ∧
      (xBalance ≠ sign dir → xBalance ≠ 0 →
        ∃ w, Tree.make (!dir) xNear 0 xData (Tree.make (!dir) xFar 0 data t) = w ∧
        w.Balanced ∧ w.height = t.height + 2 ∧ w.items = (Tree.make dir t b data sibling).items) := by
  rcases Tree.eq_leaf_or_make (!dir) sibling with rfl | ⟨xNear,xBalance,xData,xFar,rfl⟩
  · simp at higher
  · obtain ⟨balancedN,balancedF,field,low,high⟩ := Tree.balanced_make.mp balancedS
    rw [Tree.height_make] at higher
    have swapped (near : Tree α) (b : Int) : Tree.make dir t b data near = Tree.make (!dir) near b data t := by
      cases dir <;> rfl
    have signs := sign_cases dir
    rw [sign_not] at field
    refine ⟨xNear,xBalance,xData,xFar,rfl,fun inner => ?_,fun even => ?_,fun notInner notEven => ?_⟩
    · have taller : xFar.height = xNear.height + 1 := by rcases signs with one | one <;> rw [one] at field inner <;> omega
      rw [swapped]
      exact Tree.rotateTwice_spec (!dir) _ _ balancedN balancedF balancedT (by omega) (by omega) xBalance b
    · have equal : xFar.height = xNear.height := by rcases signs with one | one <;> rw [one] at field <;> omega
      refine ⟨_,rfl,?_,?_,?_⟩
      · simp only [Tree.balanced_make,Tree.height_make,sign_not,balancedN,balancedF,balancedT,true_and]
        rcases signs with one | one <;> rw [one] <;> omega
      · simp only [Tree.height_make]
        omega
      · rw [swapped,Tree.items_rotate]
    · have taller : xNear.height = xFar.height + 1 := by
        rcases signs with one | one <;> rw [one] at field notInner <;> omega
      refine ⟨_,rfl,?_,?_,?_⟩
      · simp only [Tree.balanced_make,Tree.height_make,sign_not,balancedN,balancedF,balancedT,true_and]
        rcases signs with one | one <;> rw [one] <;> omega
      · simp only [Tree.height_make]
        omega
      · rw [swapped,Tree.items_rotate]

theorem rebalanceUp_spec (path : List (Frame α)) {t t' : Tree α} (balanced : (plug path t).Balanced)
    (balanced' : t'.Balanced) (lower : t.height = t'.height + 1) :
    ∃ whole, rebalanceUp path t' = some whole ∧ whole.items = (plug path t').items ∧
      (whole.Balanced ↔ path = [] ∨ ∃ f ∈ path.dropLast, Absorbs f) := by
  induction path generalizing t t' with
  | nil => exact ⟨t',rfl,rfl,by simp [balanced']⟩
  | cons f path ih =>
    have node := balanced_of_plug (t := f.attach t) balanced
    have signs := sign_cases f.dir
    cases path with
    | nil =>
      obtain ⟨_,_,field,_⟩ := Tree.balanced_make.mp node
      refine ⟨_,rfl,rfl,?_⟩
      simp only [Frame.attach,Tree.balanced_make,List.dropLast_singleton,List.not_mem_nil,false_and,exists_false,
        reduceCtorEq,or_false,iff_false]
      rintro ⟨_,_,field',_⟩
      rcases signs with one | one <;> simp only [one] at field field' <;> omega
    | cons g above =>
      have drop : (f :: g :: above).dropLast = f :: (g :: above).dropLast := rfl
      -- a subtree as high as before ends the loop
      have ends {w : Tree α} (balancedW : w.Balanced) (same : w.height = (f.attach t).height)
          (items : w.items = (f.attach t').items) (absorbs : Absorbs f) :
          ∃ whole, some (plug (g :: above) w) = some whole ∧ whole.items = (plug (f :: g :: above) t').items ∧
            (whole.Balanced ↔ f :: g :: above = [] ∨ ∃ f' ∈ (f :: g :: above).dropLast, Absorbs f') := by
        refine ⟨_,rfl,items_plug_congr (g :: above) items,⟨fun _ => .inr ?_,fun _ => ?_⟩⟩
        · exact ⟨f,drop ▸ List.mem_cons_self,absorbs⟩
        · exact (@balanced_plug _ (g :: above) (f.attach t) w balanced balancedW same).1
      -- a lower one goes on
      have goesOn {w : Tree α} (balancedW : w.Balanced) (below : (f.attach t).height = w.height + 1)
          (items : w.items = (f.attach t').items) (notAbsorbs : ¬Absorbs f) :
          ∃ whole, rebalanceUp (g :: above) w = some whole ∧ whole.items = (plug (f :: g :: above) t').items ∧
            (whole.Balanced ↔ f :: g :: above = [] ∨ ∃ f' ∈ (f :: g :: above).dropLast, Absorbs f') := by
        obtain ⟨whole,up,items',right⟩ := ih (t := f.attach t) balanced balancedW below
        refine ⟨whole,up,items'.trans (items_plug_congr (g :: above) items),right.trans ?_⟩
        rw [drop]
        simp [notAbsorbs]
      obtain ⟨dir,b,data,sibling⟩ := f
      obtain ⟨_,balancedS,field,low,high⟩ := Tree.balanced_make.mp node
      simp only [Frame.attach,Tree.height_make] at ends goesOn
      simp only at signs field balancedS low high
      rw [rebalanceUp]
      by_cases even : b = 0
      · rw [if_pos (by omega)]
        have equal : t.height = sibling.height := by rcases signs with one | one <;> rw [one] at field <;> omega
        refine ends ?_ ?_ (items_make_congr rfl) (.inl even)
        · simp only [Tree.balanced_make,balanced',balancedS,true_and]
          rcases signs with one | one <;> rw [one] <;> omega
        · rw [Tree.height_make]
          omega
      · by_cases away : b = -sign dir
        · rw [if_neg (by omega),if_pos (by omega)]
          have higher : sibling.height = t'.height + 2 := by
            rcases signs with one | one <;> rw [one] at field away <;> omega
          obtain ⟨xNear,xBalance,xData,xFar,rfl,inner,equal,outer⟩ := rotate_away dir b balancedS balanced' higher data
          simp only [Tree.view_make,Option.bind_some]
          by_cases turned : xBalance = sign dir
          · obtain ⟨w,rotated,balancedW,heightW,itemsW⟩ := inner turned
            clear inner equal outer
            rw [if_pos turned,rotated,Option.bind_some]
            refine goesOn balancedW (by omega) itemsW ?_
            simp only [Absorbs,balance_make]
            omega
          · rw [if_neg turned]
            by_cases level : xBalance = 0
            · obtain ⟨w,rfl,balancedW,heightW,itemsW⟩ := equal level
              rw [if_pos level]
              exact ends balancedW (by omega) itemsW (.inr ⟨away,by rw [balance_make,level]⟩)
            · obtain ⟨w,rfl,balancedW,heightW,itemsW⟩ := outer turned level
              clear inner equal outer
              rw [if_neg level]
              refine goesOn balancedW (by omega) itemsW ?_
              simp only [Absorbs,balance_make]
              omega
        · have toward : b = sign dir := by omega
          rw [if_neg (by omega),if_neg (by omega)]
          have equal : t'.height = sibling.height := by rcases signs with one | one <;> rw [one] at field toward <;> omega
          refine goesOn ?_ ?_ (items_make_congr rfl) ?_
          · simp only [Tree.balanced_make,balanced',balancedS,true_and]
            rcases signs with one | one <;> rw [one] at toward ⊢ <;> omega
          · rw [Tree.height_make]
            omega
          · simp only [Absorbs]
            omega

end Up

/-! ### The removed node -/

section Node
variable {l r : Tree α} {b : Int} {x : α} {acc : List (Frame α)}

/-- The path along the left links leads to a node without left child, the first one of the
    subtree. -/
theorem leftmost_spec : ∃ lefts b' after,
    (leftmost l b x r acc).1 = lefts ++ acc ∧
    plug lefts (.node .leaf b' (leftmost l b x r acc).2.1 (leftmost l b x r acc).2.2) = .node l b x r ∧
    ∀ t, (plug lefts t).items = t.items ++ after := by
  induction l generalizing b x r acc with
  | leaf => exact ⟨[],b,[],rfl,rfl,by simp⟩
  | node l' b' x' r' left _ =>
    obtain ⟨lefts,b'',after,path,rebuilt,around⟩ := @left r' b' x' (⟨false,b,x,r⟩ :: acc)
    refine ⟨lefts ++ [⟨false,b,x,r⟩],b'',after ++ x :: r.items,by rw [leftmost,path,List.append_assoc]; rfl,?_,fun t => ?_⟩
    · rw [plug_append,leftmost,rebuilt]
      rfl
    · rw [plug_append,plug_cons,plug_nil,Frame.attach,Tree.items_make,around]
      simp

end Node

/-- The path of the nodes whose balance field a removal reads, the deepest one first. -/
def spine (above : List (Frame α)) (l : Tree α) (b : Int) : Tree α → List (Frame α)
  | .leaf => above
  | .node rl rb rx rr => (leftmost rl rb rx rr []).1 ++ ⟨true,b,(leftmost rl rb rx rr []).2.1,l⟩ :: above

section Remove
variable {key : α → κ} {k : κ} {t : GenTree α} {above : List (Frame α)} {l r p : Tree α} {b : Int} {x : α}

theorem removeNode_spec (balanced : (plug above (.node l b x r)).Balanced) (room : above.length ≤ MAX_HEIGHT) :
    ((above = [] → r = .leaf) ∧ (spine above l b r).length ≤ MAX_HEIGHT →
      ∃ whole before after, removeNode above l b r = some whole ∧
        (plug above (.node l b x r)).items = before ++ x :: after ∧ whole.items = before ++ after ∧
        (whole.Balanced ↔ above = [] ∨ ∃ f ∈ (spine above l b r).dropLast, Absorbs f)) ∧
    (¬((above = [] → r = .leaf) ∧ (spine above l b r).length ≤ MAX_HEIGHT) → removeNode above l b r = none) := by
  obtain ⟨before,after,around⟩ := items_plug above
  have node := balanced_of_plug balanced
  obtain ⟨balancedL,balancedR,field,low,high⟩ := node
  cases r with
  | leaf =>
    refine ⟨fun _ => ?_,fun wrong => absurd ⟨fun _ => rfl,room⟩ wrong⟩
    obtain ⟨whole,up,items,right⟩ := rebalanceUp_spec above balanced balancedL (by
      simp only [Tree.height] at field ⊢
      omega)
    refine ⟨whole,before ++ l.items,after,up,?_,?_,right⟩
    · rw [around]
      simp [Tree.items]
    · rw [items,around]
  | node rl rb rx rr =>
    obtain ⟨lefts,b',rest,path,rebuilt,start⟩ := @leftmost_spec _ rl rr rb rx []
    rw [List.append_nil] at path
    have code : removeNode above l b (.node rl rb rx rr) =
        if above ≠ [] ∧ (spine above l b (.node rl rb rx rr)).length ≤ MAX_HEIGHT then
          rebalanceUp (spine above l b (.node rl rb rx rr)) (leftmost rl rb rx rr []).2.2
        else none := rfl
    have whole : spine above l b (.node rl rb rx rr) = lefts ++ ⟨true,b,(leftmost rl rb rx rr []).2.1,l⟩ :: above := by
      rw [spine,path]
    generalize leftmost rl rb rx rr [] = found at whole rebuilt code
    obtain ⟨_,data,right⟩ := found
    rw [whole] at code ⊢
    refine ⟨fun both => ?_,fun wrong => ?_⟩
    · obtain ⟨inner,fits⟩ := both
      have parent : above ≠ [] := fun root => by cases inner root
      have balanced' : (plug (lefts ++ ⟨true,b,data,l⟩ :: above) (.node .leaf b' data right)).Balanced := by
        rw [plug_append,rebuilt]
        have same : (Tree.node l b data (.node rl rb rx rr)).Balanced := ⟨balancedL,balancedR,field,low,high⟩
        exact (@balanced_plug _ above (.node l b x (.node rl rb rx rr)) _ balanced same rfl).1
      have last := balanced_of_plug balanced'
      obtain ⟨top,up,items,right'⟩ := rebalanceUp_spec _ balanced' last.2.1 (by simp [Tree.height])
      refine ⟨top,before ++ l.items,data :: right.items ++ rest ++ after,?_,?_,?_,?_⟩
      · rw [code,if_pos ⟨parent,fits⟩,up]
      · rw [around,Tree.items,← rebuilt,start]
        simp [Tree.items]
      · rw [items,plug_append,plug_cons,around,Frame.attach,Tree.items_make,start]
        simp
      · rw [right']
        simp [parent]
    · rw [code,if_neg fun both => wrong ⟨fun root => absurd root both.1,both.2⟩]

def target (key : α → κ) (k : κ) : List (Frame α) → Tree α → List (Frame α) × Tree α
  | above,.leaf => (above,.leaf)
  | above,.node l b x r =>
    if k = key x then (above,.node l b x r)
    else if key x < k then target key k (⟨true,b,x,l⟩ :: above) r
    else target key k (⟨false,b,x,r⟩ :: above) l

theorem target_make {dir : Bool} {near far : Tree α} (goes : dir = decide (key x < k)) :
    target key k above (Tree.make dir near b x far) =
      if k = key x then (above,Tree.make dir near b x far) else target key k (⟨dir,b,x,far⟩ :: above) near := by
  cases dir with
  | false => simp only [Tree.make,Bool.false_eq_true,if_false,target,of_decide_eq_false goes.symm]
  | true => simp only [Tree.make,if_true,target,of_decide_eq_true goes.symm]

theorem locate_make {checked dir : Bool} {near far : Tree α} (goes : dir = decide (key x < k)) :
    locate checked key k above (Tree.make dir near b x far) =
      if k = key x then some (above,Tree.make dir near b x far)
      else if above.length < MAX_HEIGHT then
        if checked = true ∧ near.height ≠ 0 then none else locate checked key k (⟨dir,b,x,far⟩ :: above) near
      else none := by
  cases dir with
  | false => simp only [Tree.make,Bool.false_eq_true,if_false,locate,of_decide_eq_false goes.symm]
  | true => simp only [Tree.make,if_true,locate,of_decide_eq_true goes.symm]

/-- The descent ends at a node of the key. It succeeds when the arrays are long enough and, if
    assertions are compiled, when that node is where it started. -/
theorem locate_spec (checked : Bool) (sorted : Ordered key p) (present : ∃ x ∈ p.items, key x = k)
    (above : List (Frame α)) :
    ∃ path l b x r, target key k above p = (path ++ above,.node l b x r) ∧ k = key x ∧
      plug path (.node l b x r) = p ∧
      (above.length ≤ MAX_HEIGHT → locate checked key k above p =
        if (checked = true → path = []) ∧ (path ++ above).length ≤ MAX_HEIGHT then some (path ++ above,.node l b x r)
        else none) := by
  induction p using descent_induction key k generalizing above with
  | leaf => simp at present
  | node dir near b x far goes ih =>
    rw [target_make goes,locate_make goes]
    by_cases here : k = key x
    · rw [if_pos here,if_pos here]
      obtain ⟨l,r,node⟩ : ∃ l r, Tree.make dir near b x far = .node l b x r := by
        cases dir with
        | false => exact ⟨near,far,rfl⟩
        | true => exact ⟨far,near,rfl⟩
      rw [node]
      exact ⟨[],l,b,x,r,rfl,here,rfl,fun room => (if_pos ⟨fun _ => rfl,room⟩).symm⟩
    · have inside := present_near sorted goes present here
      have filled : near.height ≠ 0 := fun empty => by
        rw [Tree.eq_leaf_of_height empty] at inside
        simp at inside
      obtain ⟨path,l,b',x',r,found,same,rebuilt,located⟩ := ih (ordered_near sorted) inside (⟨dir,b,x,far⟩ :: above)
      rw [if_neg here,if_neg here]
      refine ⟨path ++ [⟨dir,b,x,far⟩],l,b',x',r,by rw [found,List.append_assoc]; rfl,same,?_,fun _ => ?_⟩
      · rw [plug_append,rebuilt]
        rfl
      · by_cases space : above.length < MAX_HEIGHT
        · rw [if_pos space,located space,List.append_assoc,List.singleton_append]
          cases checked <;> simp [filled]
        · rw [if_neg space,if_neg]
          simp
          omega

/-- A removal that cannot go wrong: the removed node has a parent unless its right subtree is
    empty, the path fits in the arrays, a node below the root absorbs the loss of height, and no
    assertion is met. -/
def Removable (checked : Bool) (key : α → κ) (k : κ) (t : Tree α) : Prop :=
  match target key k [] t with
  | (_,.leaf) => False
  | (above,.node l b _ r) =>
    (checked = true → above = []) ∧ (above = [] → r = .leaf) ∧ (spine above l b r).length ≤ MAX_HEIGHT ∧
      (above = [] ∨ ∃ f ∈ (spine above l b r).dropLast, Absorbs f)

def Removes (checked : Bool) (key : α → κ) (k : κ) (t : GenTree α) : Prop :=
  ∃ t', remove checked key t k = some t' ∧ Valid key t' ∧
    ∃ before x after, t.root.items = before ++ x :: after ∧ key x = k ∧ t'.root.items = before ++ after

private theorem length_le_spine : above.length ≤ (spine above l b r).length := by
  cases r with
  | leaf => exact le_rfl
  | node => simp [spine]; omega

/-- A removal of an item is right in exactly these cases. -/
theorem removes_iff (checked : Bool) (valid : Valid key t) (present : ∃ x ∈ t.root.items, key x = k) :
    Removes checked key k t ↔ Removable checked key k t.root := by
  obtain ⟨balanced,ordered,count⟩ := valid
  obtain ⟨above,l,b,x,r,found,same,rebuilt,located⟩ := locate_spec checked ordered present []
  rw [List.append_nil] at found located
  have located := located (Nat.zero_le _)
  rw [← rebuilt] at balanced
  rw [Removable,found]
  unfold Removes remove
  rw [located]
  by_cases reached : (checked = true → above = []) ∧ above.length ≤ MAX_HEIGHT
  · rw [if_pos reached,Option.bind_some]
    obtain ⟨done,failed⟩ := removeNode_spec balanced reached.2
    by_cases fits : (above = [] → r = .leaf) ∧ (spine above l b r).length ≤ MAX_HEIGHT
    · obtain ⟨whole,before,after,removed,old,new,right⟩ := done fits
      rw [rebuilt] at old
      simp only [removed,Option.map_some,Option.some.injEq,exists_eq_left']
      have absorbed : whole.Balanced ↔ above = [] ∨ ∃ f ∈ (spine above l b r).dropLast, Absorbs f := right
      refine ⟨fun ⟨valid',_⟩ => ⟨reached.1,fits.1,fits.2,absorbed.mp valid'.balanced⟩,fun ⟨_,_,_,absorbs⟩ =>
        ⟨⟨absorbed.mpr absorbs,?_,?_⟩,before,x,after,old,same.symm,new⟩⟩
      · rw [Ordered,old] at ordered
        rw [Ordered,new]
        exact ordered.sublist ((List.Sublist.refl before).append (List.sublist_cons_self x after))
      · rw [count,old,new]
        simp
        omega
    · simp only [failed fits,Option.map_none,reduceCtorEq,false_and,exists_false,false_iff]
      exact fun ⟨_,root,length,_⟩ => fits ⟨root,length⟩
  · rw [if_neg reached]
    simp only [Option.bind_none,reduceCtorEq,false_and,exists_false,false_iff]
    exact fun ⟨assertion,_,length,_⟩ => reached ⟨assertion,length_le_spine.trans length⟩

end Remove

def single (x : Nat) : Tree Nat := .node .leaf 0 x .leaf

/-- The even node 2 absorbs the removal of its child 1. -/
theorem removes_child :
    Removes false id 1 (⟨.node (.node (single 1) 0 2 (single 3)) (-1) 4 (single 6),5⟩ : GenTree Nat) :=
  (removes_iff false ⟨by simp [Tree.Balanced,Tree.height,single],by simp [Ordered,Tree.items,single,KeyLE],rfl⟩
    ⟨1,by simp [Tree.items,single],rfl⟩).mpr
      ⟨nofun,fun _ => rfl,by decide,.inr ⟨⟨false,0,2,single 3⟩,List.mem_cons_self,.inl rfl⟩⟩

/-- The root 1 of the items 0, 1 and 2 has a right child: its parent is looked for before the
    start of the path. -/
theorem remove_root_fails :
    ¬∀ (t : GenTree Nat) (k : Nat), Valid id t → (∃ x ∈ t.root.items, id x = k) → Removes false id k t := by
  intro removes
  obtain ⟨t',removed,_⟩ := removes ⟨.node (single 0) 0 1 (single 2),3⟩ 1
    ⟨by simp [Tree.Balanced,Tree.height,single],by simp [Ordered,Tree.items,single,KeyLE],rfl⟩
    ⟨1,by simp [Tree.items,single],rfl⟩
  cases removed

end Otawa.Avl
