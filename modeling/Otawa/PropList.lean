import Otawa.KeyedStacks
import Otawa.LinkedList
import Otawa.Runs
import Mathlib.Data.List.Perm.Subperm
import Mathlib.Data.List.Range

/-!
The property lists and the iteration on the properties of one identifier. Even a
read moves the property that it finds to the head of the list. For each
identifier the properties make a stack that only the operations on this
identifier change, and an iteration finds each of its properties once, whatever
is read on the way.
-/
namespace Otawa.Properties

open LinkedList KeyedStacks Runs

/-! ### Lists -/

structure Property (I V : Type) where
  id : I
  value : V
  next : Option Nat

/-- The properties that exist, by their addresses, and the head of the list; an address is not used twice. -/
structure PropList (I V : Type) where
  head : Option Nat
  heap : Nat → Option (Property I V)
  made : Nat

section
variable {I V : Type} [DecidableEq I]

namespace PropList

def empty : PropList I V := ⟨none,fun _ => none,0⟩

variable (props : PropList I V)

def make (id : I) (value : V) : PropList I V :=
  {props with heap := Function.update props.heap props.made (some ⟨id,value,none⟩), made := props.made + 1}

/-- An assignment of `_next`. -/
def setNext (prop : Nat) (link : Option Nat) : Option (PropList I V) :=
  (props.heap prop).map fun p => {props with heap := Function.update props.heap prop (some {p with next := link})}

def delete (prop : Nat) : PropList I V := {props with heap := Function.update props.heap prop none}

/-- The loop that looks for an identifier: the property with the one before it, for some turns. -/
def search (id : I) : Nat → Option Nat → Option Nat → Option (Option (Nat × Option Nat))
  | 0,_,_ => none
  | _ + 1,none,_ => some none
  | turns + 1,some cur,prev =>
    (props.heap cur).bind fun p => if p.id = id then some (some (cur,prev)) else search id turns p.next (some cur)

def unlink (cur : Nat) (prev : Option Nat) : Option (PropList I V) :=
  (props.heap cur).bind fun p =>
    match prev with
    | some prev => props.setNext prev p.next
    | none => some {props with head := p.next}

def addProp (prop : Nat) : Option (PropList I V) := (props.setNext prop props.head).map fun props => {props with head := some prop}

def getProp (id : I) : Option (Option Nat × PropList I V) :=
  (props.search id (props.made + 1) props.head none).bind fun
    | none => some (none,props)
    | some (cur,none) => some (some cur,props)
    | some (cur,some prev) => do
      let p ← props.heap cur
      let props ← props.setNext prev p.next
      let props ← props.setNext cur props.head
      some (some cur,{props with head := some cur})

def setProp (prop : Nat) : Option (PropList I V) := do
  let new ← props.heap prop
  let found ← props.search new.id (props.made + 1) props.head none
  let props ←
    match found with
    | none => some props
    | some (cur,prev) => (props.unlink cur prev).map fun props => props.delete cur
  props.addProp prop

def removeProp (id : I) : Option (PropList I V) :=
  (props.search id (props.made + 1) props.head none).bind fun
    | none => some props
    | some (cur,prev) => (props.unlink cur prev).map fun props => props.delete cur

def extractProp (id : I) : Option (Option Nat × PropList I V) :=
  (props.search id (props.made + 1) props.head none).bind fun
    | none => some (none,props)
    | some (cur,prev) => (props.unlink cur prev).map fun props => (some cur,props)

/-- The link to what follows a property, or the head. -/
def behind (prv : Option Nat) : Option (Option Nat) :=
  match prv with
  | some prv => (props.heap prv).map Property.next
  | none => some props.head

/-- The loop of `removeAllProp`, for some turns. -/
def removeAll (id : I) : Nat → Option Nat → Option Nat → PropList I V → Option (PropList I V)
  | 0,_,_,_ => none
  | _ + 1,_,none,props => some props
  | turns + 1,prv,some cur,props => do
    let p ← props.heap cur
    if p.id ≠ id then
      removeAll id turns (some cur) p.next props
    else
      let props ← props.unlink cur prv
      let props := props.delete cur
      let link ← props.behind prv
      removeAll id turns prv link props

def removeAllProp (id : I) : Option (PropList I V) := removeAll id (props.made + 1) none props.head props

/-- `look`: the next property of the identifier, for some turns. -/
def look (id : I) : Nat → Option Nat → Option (Option Nat)
  | 0,_ => none
  | _ + 1,none => some none
  | turns + 1,some cur => (props.heap cur).bind fun p => if p.id = id then some (some cur) else look id turns p.next

/-- The first property of `Getter`. -/
def getter (id : I) : Option (Option Nat) := props.look id (props.made + 1) props.head

/-- `Getter::next`, whose assertion fails at the end. -/
def getterNext (id : I) (iter : Option Nat) : Option (Option Nat) :=
  iter.bind fun cur => (props.heap cur).bind fun p => props.look id (props.made + 1) p.next

end PropList

inductive Move (I : Type)
  | getProp (id : I)
  | next

def Move.isNext : Move I → Bool
  | .getProp _ => false
  | .next => true

/-- The properties to which an iterator comes, and where it is in the end. -/
def moves (id : I) : List (Move I) → PropList I V → Option Nat → Option (List Nat × Option Nat)
  | [],_,iter => some ([],iter)
  | .getProp other :: rest,props,iter => (props.getProp other).bind fun result => moves id rest result.2 iter
  | .next :: rest,props,iter => do
    let iter ← props.getterNext id iter
    let (visited,last) ← moves id rest props iter
    some (iter.toList ++ visited,last)

def visits (props : PropList I V) (id : I) (steps : List (Move I)) : Option (List Nat × Option Nat) := do
  let iter ← props.getter id
  let (visited,last) ← moves id steps props iter
  some (iter.toList ++ visited,last)

inductive Op (I V : Type)
  | addProp (id : I) (value : V)
  | setProp (id : I) (value : V)
  | getProp (id : I)
  | removeProp (id : I)
  | extractProp (id : I)
  | removeAllProp (id : I)

def answer (result : Option (Option Nat × PropList I V)) : Option (Option V × PropList I V) :=
  result.map fun (found,props) => (found.bind fun prop => (props.heap prop).map Property.value,props)

def PropList.step (props : PropList I V) : Op I V → Option (Option V × PropList I V)
  | .addProp id value => ((props.make id value).addProp props.made).map fun props => (none,props)
  | .setProp id value => ((props.make id value).setProp props.made).map fun props => (none,props)
  | .getProp id => answer (props.getProp id)
  | .removeProp id => (props.removeProp id).map fun props => (none,props)
  | .extractProp id => answer (props.extractProp id)
  | .removeAllProp id => (props.removeAllProp id).map fun props => (none,props)

def stackStep (held : I → List V) : Op I V → Option V × (I → List V)
  | .addProp id value => (none,Function.update held id (value :: held id))
  | .setProp id value => (none,Function.update held id (value :: (held id).tail))
  | .getProp id => ((held id).head?,held)
  | .removeProp id => (none,Function.update held id (held id).tail)
  | .extractProp id => ((held id).head?,Function.update held id (held id).tail)
  | .removeAllProp id => (none,Function.update held id [])

namespace PropList
variable (props : PropList I V)

def next (prop : Nat) : Option Nat := (props.heap prop).bind Property.next

def cells : List Nat := walk props.next props.made props.head

/-- The addresses of the properties of an identifier, and their values. -/
def found (id : I) : List Nat := props.cells.filter fun prop => ((props.heap prop).map Property.id) = some id

def values (id : I) : List V := (props.found id).filterMap fun prop => (props.heap prop).map Property.value

end PropList

structure Item (I V : Type) where
  cell : Nat
  id : I
  value : V

/-- The property without its link. -/
def Property.item (cell : Nat) (p : Property I V) : Item I V := ⟨cell,p.id,p.value⟩

structure Holds (props : PropList I V) (items : List (Item I V)) : Prop where
  linked : Chain props.next props.head (items.map Item.cell)
  nodup : (items.map Item.cell).Nodup
  stored : ∀ item ∈ items, (props.heap item.cell).map (Property.item item.cell) = some item
  old : ∀ prop, (props.heap prop).isSome → prop < props.made

section
variable {props : PropList I V} {items before after : List (Item I V)} {item : Item I V} {id : I}

omit [DecidableEq I] in
theorem Holds.heap_eq (holds : Holds props items) (member : item ∈ items) :
    props.heap item.cell = some ⟨item.id,item.value,props.next item.cell⟩ := by
  obtain ⟨p,here,eq⟩ := Option.map_eq_some_iff.mp (holds.stored item member)
  have id : p.id = item.id := congrArg Item.id eq
  have value : p.value = item.value := congrArg Item.value eq
  rw [PropList.next,here,← id,← value]
  rfl

omit [DecidableEq I] in
theorem Holds.room (holds : Holds props items) : items.length ≤ props.made := by
  have subset : items.map Item.cell ⊆ List.range props.made := by
    intro cell member
    obtain ⟨item,inside,rfl⟩ := List.mem_map.mp member
    exact List.mem_range.mpr (holds.old _ (by rw [holds.heap_eq inside]; rfl))
  have few := (holds.nodup.subperm subset).length_le
  rwa [List.length_range,List.length_map] at few

theorem search_spec (holds : Holds props items) (turns : Nat) (link prev : Option Nat) {part : List (Item I V)} (within : ∀ item ∈ part, item ∈ items)
    (linked : Chain props.next link (part.map Item.cell)) (enough : part.length < turns) :
    (∀ item ∈ part, item.id ≠ id) ∧ props.search id turns link prev = some none ∨
      ∃ before item after, part = before ++ item :: after ∧ item.id = id ∧ (∀ b ∈ before, b.id ≠ item.id) ∧
        props.search id turns link prev = some (some (item.cell,((before.getLast?).map Item.cell).or prev)) := by
  induction part generalizing turns link prev with
  | nil =>
    obtain ⟨turns,rfl⟩ := Nat.exists_eq_succ_of_ne_zero (Nat.ne_zero_of_lt enough)
    obtain rfl : link = none := linked
    exact .inl ⟨by simp,rfl⟩
  | cons first rest ih =>
    obtain ⟨turns,rfl⟩ := Nat.exists_eq_succ_of_ne_zero (Nat.ne_zero_of_lt enough)
    obtain ⟨rfl,linked⟩ := linked
    rw [PropList.search,holds.heap_eq (within first List.mem_cons_self),Option.bind_some]
    by_cases same : first.id = id
    · rw [if_pos same]
      exact .inr ⟨[],first,rest,rfl,same,by simp,rfl⟩
    · rw [if_neg same]
      rcases ih turns _ (some first.cell) (fun item member => within item (List.mem_cons_of_mem first member)) linked (Nat.lt_of_succ_lt_succ enough) with
        ⟨absent,searched⟩ | ⟨before,item,after,rfl,here,new,searched⟩
      · exact .inl ⟨List.forall_mem_cons.mpr ⟨same,absent⟩,searched⟩
      · refine .inr ⟨first :: before,item,after,rfl,here,List.forall_mem_cons.mpr ⟨here ▸ same,new⟩,searched.trans ?_⟩
        cases before with
        | nil => rfl
        | cons second before =>
          obtain ⟨last,ends⟩ := Option.isSome_iff_exists.mp (List.getLast?_isSome.mpr (List.cons_ne_nil second before))
          simp [List.getLast?_cons,ends]

theorem search_list (holds : Holds props items) (id : I) :
    (∀ item ∈ items, item.id ≠ id) ∧ props.search id (props.made + 1) props.head none = some none ∨
      ∃ before item after, items = before ++ item :: after ∧ item.id = id ∧ (∀ b ∈ before, b.id ≠ item.id) ∧
        props.search id (props.made + 1) props.head none = some (some (item.cell,(before.getLast?).map Item.cell)) := by
  rcases search_spec holds (props.made + 1) props.head none (fun _ member => member) holds.linked (Nat.lt_succ_of_le holds.room) with
    absent | ⟨before,item,after,split,here,first,searched⟩
  · exact .inl absent
  · exact .inr ⟨before,item,after,split,here,first,by rw [searched,Option.or_none]⟩

/-! ### Changes of links -/

omit [DecidableEq I] in
theorem setNext_spec {prop : Nat} {p : Property I V} (here : props.heap prop = some p) (link : Option Nat) :
    ∃ after, props.setNext prop link = some after ∧ after.head = props.head ∧ after.made = props.made ∧
      after.next = Function.update props.next prop link ∧ (∀ c, (after.heap c).map (Property.item c) = (props.heap c).map (Property.item c)) := by
  refine ⟨{props with heap := Function.update props.heap prop (some {p with next := link})},by rw [PropList.setNext,here,Option.map_some],rfl,rfl,?_,
    fun c => ?_⟩
  · funext c
    by_cases same : c = prop
    · subst same
      simp [PropList.next]
    · simp [PropList.next,same]
  · by_cases same : c = prop
    · subst same
      simp [here,Property.item]
    · simp [same]

omit [DecidableEq I] in
theorem alive_of_same {after : PropList I V} {c : Nat} (same : (after.heap c).map (Property.item c) = (props.heap c).map (Property.item c))
    (alive : (after.heap c).isSome = true) : (props.heap c).isSome = true := by
  have exist := congrArg Option.isSome same
  rwa [Option.isSome_map,Option.isSome_map,eq_comm,alive] at exist

omit [DecidableEq I] in
theorem Holds.change {after : PropList I V} {items' : List (Item I V)} (holds : Holds props items)
    (same : ∀ c, (after.heap c).map (Property.item c) = (props.heap c).map (Property.item c)) (made : after.made = props.made)
    (linked : Chain after.next after.head (items'.map Item.cell)) (nodup : (items'.map Item.cell).Nodup) (within : ∀ item ∈ items', item ∈ items) :
    Holds after items' := by
  refine ⟨linked,nodup,fun item member => (same _).trans (holds.stored item (within item member)),fun prop alive => ?_⟩
  rw [made]
  exact holds.old prop (alive_of_same (same prop) alive)

structure Relinked (props after : PropList I V) : Prop where
  same : ∀ c, (after.heap c).map (Property.item c) = (props.heap c).map (Property.item c)
  made : after.made = props.made

omit [DecidableEq I] in
theorem unlink_spec (holds : Holds props (before ++ item :: after)) :
    ∃ props', props.unlink item.cell ((before.getLast?).map Item.cell) = some props' ∧ Holds props' (before ++ after) ∧ Relinked props props' := by
  have here : props.heap item.cell = some ⟨item.id,item.value,props.next item.cell⟩ := holds.heap_eq (by simp)
  have linked := holds.linked
  have nodup := holds.nodup
  have within (x : Item I V) (member : x ∈ before ++ after) : x ∈ before ++ item :: after := by
    simp only [List.mem_append,List.mem_cons] at member ⊢
    tauto
  rw [PropList.unlink,here,Option.bind_some]
  rcases List.eq_nil_or_concat' before with rfl | ⟨front,prev,rfl⟩
  · refine ⟨_,rfl,holds.change (fun _ => rfl) rfl ?_ ?_ within,fun _ => rfl,rfl⟩
    · exact linked.2
    · exact (List.nodup_cons.mp nodup).2
  · have prevHere : props.heap prev.cell = some ⟨prev.id,prev.value,props.next prev.cell⟩ := holds.heap_eq (by simp)
    obtain ⟨props',done,head,made,next,same⟩ := setNext_spec prevHere (props.next item.cell)
    simp only [List.getLast?_append,List.getLast?_singleton,Option.some_or,Option.map_some]
    refine ⟨props',done,holds.change same made ?_ ?_ within,same,made⟩
    · rw [head,next]
      simp only [List.map_append,List.map_cons,List.append_assoc,List.singleton_append] at linked nodup ⊢
      exact linked.unlink nodup
    · refine nodup.sublist (List.Sublist.map Item.cell ?_)
      exact List.Sublist.append_left (List.sublist_cons_self item after) _

theorem getProp_spec (holds : Holds props items) (id : I) :
    (∀ item ∈ items, item.id ≠ id) ∧ props.getProp id = some (none,props) ∨
      ∃ before item after props', items = before ++ item :: after ∧ item.id = id ∧ (∀ b ∈ before, b.id ≠ item.id) ∧
        props.getProp id = some (some item.cell,props') ∧ Holds props' (item :: (before ++ after)) ∧ Relinked props props' := by
  rcases search_list holds id with ⟨absent,searched⟩ | ⟨before,item,after,rfl,rfl,first,searched⟩
  · exact .inl ⟨absent,by rw [PropList.getProp,searched]; rfl⟩
  refine .inr ⟨before,item,after,?_⟩
  have here : props.heap item.cell = some ⟨item.id,item.value,props.next item.cell⟩ := holds.heap_eq (by simp)
  have linked := holds.linked
  have nodup := holds.nodup
  rcases List.eq_nil_or_concat' before with rfl | ⟨front,prev,rfl⟩
  · exact ⟨props,rfl,rfl,first,by rw [PropList.getProp,searched]; rfl,holds,fun _ => rfl,rfl⟩
  · have prevHere : props.heap prev.cell = some ⟨prev.id,prev.value,props.next prev.cell⟩ := holds.heap_eq (by simp)
    obtain ⟨props1,done1,head1,made1,next1,same1⟩ := setNext_spec prevHere (props.next item.cell)
    obtain ⟨p,alive⟩ : ∃ p, props1.heap item.cell = some p := by
      have := same1 item.cell
      rw [here] at this
      obtain ⟨p,alive,-⟩ := Option.map_eq_some_iff.mp this
      exact ⟨p,alive⟩
    obtain ⟨props2,done2,head2,made2,next2,same2⟩ := setNext_spec alive props1.head
    have same (c : Nat) : (props2.heap c).map (Property.item c) = (props.heap c).map (Property.item c) := (same2 c).trans (same1 c)
    have last : ((front ++ [prev]).getLast?).map Item.cell = some prev.cell := by simp
    have moved : props.getProp item.id = some (some item.cell,{props2 with head := some item.cell}) := by
      rw [PropList.getProp,searched,last]
      simp only [Option.bind_some,here,Option.bind_eq_bind,done1,done2]
    refine ⟨{props2 with head := some item.cell},rfl,rfl,first,moved,holds.change same (made2.trans made1) ?_ ?_ ?_,same,made2.trans made1⟩
    · simp only [List.map_append,List.map_cons,List.append_assoc,List.singleton_append] at linked nodup ⊢
      have moved := linked.front nodup
      rw [← next1,← head1,← next2] at moved
      exact moved
    · have order : (item :: (front ++ [prev] ++ after)).Perm (front ++ [prev] ++ item :: after) := List.perm_middle.symm
      exact (order.map Item.cell).nodup_iff.mpr nodup
    · intro x member
      simp only [List.mem_append,List.mem_cons] at member ⊢
      tauto

omit [DecidableEq I] in
theorem addProp_spec (holds : Holds props items) {prop : Nat} {p : Property I V} (alive : props.heap prop = some p) (absent : prop ∉ items.map Item.cell) :
    ∃ props', props.addProp prop = some props' ∧ Holds props' (p.item prop :: items) ∧ Relinked props props' := by
  obtain ⟨props1,done,head,made,next,same⟩ := setNext_spec alive props.head
  refine ⟨{props1 with head := some prop},by rw [PropList.addProp,done,Option.map_some],⟨⟨rfl,?_⟩,?_,?_,?_⟩,same,made⟩
  · change Chain props1.next (props1.next prop) _
    rw [next,Function.update_self]
    exact holds.linked.update absent _
  · exact List.nodup_cons.mpr ⟨absent,holds.nodup⟩
  · intro item member
    refine (same item.cell).trans ?_
    rcases List.mem_cons.mp member with rfl | member
    · exact congrArg (Option.map _) alive
    · exact holds.stored item member
  · intro c alive
    exact made ▸ holds.old c (alive_of_same (same c) alive)

omit [DecidableEq I] in
theorem delete_spec (holds : Holds props items) {prop : Nat} (absent : prop ∉ items.map Item.cell) : Holds (props.delete prop) items := by
  refine ⟨holds.linked.congr fun c member => ?_,holds.nodup,fun item member => ?_,fun c alive => holds.old c ?_⟩
  · have other : c ≠ prop := ne_of_mem_of_not_mem member absent
    simp [PropList.next,PropList.delete,other]
  · have other : item.cell ≠ prop := ne_of_mem_of_not_mem (List.mem_map_of_mem member) absent
    simp only [PropList.delete,Function.update_of_ne other]
    exact holds.stored item member
  · by_cases same : c = prop
    · subst same
      simp [PropList.delete] at alive
    · simpa [PropList.delete,same] using alive

omit [DecidableEq I] in
theorem make_spec (holds : Holds props items) (id : I) (value : V) :
    Holds (props.make id value) items ∧ (props.make id value).heap props.made = some ⟨id,value,none⟩ ∧ props.made ∉ items.map Item.cell := by
  have absent : props.made ∉ items.map Item.cell := by
    intro member
    obtain ⟨item,inside,same⟩ := List.mem_map.mp member
    have := holds.old item.cell (by rw [holds.heap_eq inside]; rfl)
    omega
  refine ⟨⟨holds.linked.congr fun c member => ?_,holds.nodup,fun item member => ?_,fun c alive => ?_⟩,Function.update_self ..,absent⟩
  · have other : c ≠ props.made := ne_of_mem_of_not_mem member absent
    simp [PropList.next,PropList.make,other]
  · have other : item.cell ≠ props.made := ne_of_mem_of_not_mem (List.mem_map_of_mem member) absent
    simp only [PropList.make,Function.update_of_ne other]
    exact holds.stored item member
  · change c < props.made + 1
    by_cases same : c = props.made
    · omega
    · have := holds.old c (by simpa [PropList.make,same] using alive)
      omega

omit [DecidableEq I] in
theorem drop_spec (holds : Holds props (before ++ item :: after)) :
    ∃ props', (props.unlink item.cell ((before.getLast?).map Item.cell)).map (fun props => props.delete item.cell) = some props' ∧
      Holds props' (before ++ after) ∧ ∀ c, c ≠ item.cell → (props'.heap c).map (Property.item c) = (props.heap c).map (Property.item c) := by
  obtain ⟨props1,done,holds1,relinked⟩ := unlink_spec holds
  have absent : item.cell ∉ (before ++ after).map Item.cell := by
    have nodup := holds.nodup
    rw [List.map_append,List.map_cons] at nodup
    have order := List.perm_middle.nodup_iff.mp nodup
    rw [List.map_append]
    exact (List.nodup_cons.mp order).1
  refine ⟨props1.delete item.cell,by rw [done,Option.map_some],delete_spec holds1 absent,fun c other => ?_⟩
  simp only [PropList.delete,Function.update_of_ne other]
  exact relinked.same c

theorem removeProp_spec (holds : Holds props items) (id : I) :
    (∀ item ∈ items, item.id ≠ id) ∧ props.removeProp id = some props ∨
      ∃ before item after props', items = before ++ item :: after ∧ item.id = id ∧ (∀ b ∈ before, b.id ≠ item.id) ∧
        props.removeProp id = some props' ∧ Holds props' (before ++ after) := by
  rcases search_list holds id with ⟨absent,searched⟩ | ⟨before,item,after,rfl,rfl,first,searched⟩
  · exact .inl ⟨absent,by rw [PropList.removeProp,searched]; rfl⟩
  · obtain ⟨props',done,holds',-⟩ := drop_spec holds
    exact .inr ⟨before,item,after,props',rfl,rfl,first,by rw [PropList.removeProp,searched]; exact done,holds'⟩

theorem extractProp_spec (holds : Holds props items) (id : I) :
    (∀ item ∈ items, item.id ≠ id) ∧ props.extractProp id = some (none,props) ∨
      ∃ before item after props', items = before ++ item :: after ∧ item.id = id ∧ (∀ b ∈ before, b.id ≠ item.id) ∧
        props.extractProp id = some (some item.cell,props') ∧ Holds props' (before ++ after) ∧ Relinked props props' := by
  rcases search_list holds id with ⟨absent,searched⟩ | ⟨before,item,after,rfl,rfl,first,searched⟩
  · exact .inl ⟨absent,by rw [PropList.extractProp,searched]; rfl⟩
  · obtain ⟨props',done,holds',relinked⟩ := unlink_spec holds
    exact .inr ⟨before,item,after,props',rfl,rfl,first,by rw [PropList.extractProp,searched,Option.bind_some]; simp only [done]; rfl,holds',relinked⟩

/-- A property that is not in the list takes the place of the first one of its identifier, at the head. -/
theorem setProp_spec (holds : Holds props items) {prop : Nat} {p : Property I V} (alive : props.heap prop = some p) (outside : prop ∉ items.map Item.cell) :
    ∃ props', props.setProp prop = some props' ∧
      ((∀ item ∈ items, item.id ≠ p.id) ∧ Holds props' (p.item prop :: items) ∨
        ∃ before item after, items = before ++ item :: after ∧ item.id = p.id ∧ (∀ b ∈ before, b.id ≠ item.id) ∧ Holds props' (p.item prop :: (before ++ after))) := by
  rcases search_list holds p.id with ⟨absent,searched⟩ | ⟨before,item,after,rfl,same,first,searched⟩
  · obtain ⟨props',done,holds',-⟩ := addProp_spec holds alive outside
    refine ⟨props',?_,.inl ⟨absent,holds'⟩⟩
    rw [PropList.setProp,alive]
    simp only [Option.bind_eq_bind,Option.bind_some,searched]
    exact done
  · obtain ⟨props1,dropped,holds1,others⟩ := drop_spec holds
    have other : prop ≠ item.cell := by
      rintro rfl
      exact outside (List.mem_map_of_mem (by simp))
    have data := others prop other
    rw [alive,Option.map_some] at data
    obtain ⟨p1,alive1,data⟩ := Option.map_eq_some_iff.mp data
    have outside1 : prop ∉ (before ++ after).map Item.cell := by
      intro member
      refine outside ?_
      simp only [List.map_append,List.map_cons,List.mem_append,List.mem_cons] at member ⊢
      tauto
    obtain ⟨props',done,holds',-⟩ := addProp_spec holds1 alive1 outside1
    rw [data] at holds'
    refine ⟨props',?_,.inr ⟨before,item,after,rfl,same,first,holds'⟩⟩
    rw [PropList.setProp,alive]
    simp only [Option.bind_eq_bind,Option.bind_some,searched,dropped]
    exact done

omit [DecidableEq I] in
theorem Holds.link {rest : List (Item I V)} (holds : Holds props (before ++ rest)) :
    ∃ link, props.behind ((before.getLast?).map Item.cell) = some link ∧ Chain props.next link (rest.map Item.cell) := by
  have linked := holds.linked
  rcases List.eq_nil_or_concat' before with rfl | ⟨front,prev,rfl⟩
  · exact ⟨props.head,rfl,linked⟩
  · have here : props.heap prev.cell = some ⟨prev.id,prev.value,props.next prev.cell⟩ := holds.heap_eq (by simp)
    refine ⟨props.next prev.cell,by simp [PropList.behind,here],?_⟩
    simp only [List.map_append,List.map_cons,List.append_assoc,List.cons_append,List.nil_append] at linked
    exact linked.suffix

theorem removeAll_spec {id : I} {rest : List (Item I V)} (turns : Nat) (link : Option Nat) (holds : Holds props (before ++ rest))
    (linked : Chain props.next link (rest.map Item.cell)) (enough : rest.length < turns) :
    ∃ props', PropList.removeAll id turns ((before.getLast?).map Item.cell) link props = some props' ∧
      Holds props' (before ++ rest.filter fun item => item.id ≠ id) := by
  induction rest generalizing props before turns link with
  | nil =>
    obtain ⟨turns,rfl⟩ := Nat.exists_eq_succ_of_ne_zero (Nat.ne_zero_of_lt enough)
    obtain rfl : link = none := linked
    exact ⟨props,rfl,holds⟩
  | cons item rest ih =>
    obtain ⟨turns,rfl⟩ := Nat.exists_eq_succ_of_ne_zero (Nat.ne_zero_of_lt enough)
    obtain ⟨rfl,linked⟩ := linked
    have here : props.heap item.cell = some ⟨item.id,item.value,props.next item.cell⟩ := holds.heap_eq (by simp)
    rw [PropList.removeAll,here]
    simp only [Option.bind_eq_bind,Option.bind_some]
    by_cases same : item.id = id
    · obtain ⟨props1,dropped,holds1,-⟩ := drop_spec holds
      obtain ⟨unlinked,done,eq⟩ := Option.map_eq_some_iff.mp dropped
      obtain ⟨next,follows,linked1⟩ := holds1.link
      obtain ⟨props',removed,holds'⟩ := ih turns next holds1 linked1 (Nat.lt_of_succ_lt_succ enough)
      refine ⟨props',?_,by rw [List.filter_cons_of_neg (by simpa using same)]; exact holds'⟩
      rw [if_neg (not_not_intro same)]
      simp only [done,Option.bind_some,eq,follows]
      exact removed
    · have split : before ++ item :: rest = (before ++ [item]) ++ rest := by simp
      rw [split] at holds
      obtain ⟨props',removed,holds'⟩ := ih turns _ holds linked (Nat.lt_of_succ_lt_succ enough)
      refine ⟨props',?_,by rw [List.filter_cons_of_pos (by simpa using same)]; simpa using holds'⟩
      rw [if_pos same]
      simpa using removed

def Stacked (props : PropList I V) (held : I → List V) : Prop :=
  ∃ items, Holds props items ∧ ∀ id, (stack Item.id id items).map Item.value = held id

variable {held : I → List V}

omit [DecidableEq I] in
theorem value_of_same {after : PropList I V} {c : Nat} (same : (after.heap c).map (Property.item c) = (props.heap c).map (Property.item c))
    (stored : (props.heap c).map (Property.item c) = some item) : (after.heap c).map Property.value = some item.value := by
  obtain ⟨p,here,rfl⟩ := Option.map_eq_some_iff.mp (same.trans stored)
  rw [here]
  rfl

theorem top_of_split (values : ∀ id, (stack Item.id id (before ++ item :: after)).map Item.value = held id) (first : ∀ b ∈ before, b.id ≠ item.id) :
    (held item.id).head? = some item.value := by
  rw [← values,List.head?_map,head?_stack,find?_first first]
  rfl

theorem top_of_absent (values : ∀ id, (stack Item.id id items).map Item.value = held id) (absent : ∀ item ∈ items, item.id ≠ id) : held id = [] := by
  rw [← values,stack_eq_nil absent,List.map_nil]

theorem popped_absent (values : ∀ id, (stack Item.id id items).map Item.value = held id) (absent : ∀ item ∈ items, item.id ≠ id) :
    Function.update held id (held id).tail = held := by
  rw [Function.update_eq_self_iff,top_of_absent values absent,List.tail_nil]

theorem popped (values : ∀ id, (stack Item.id id (before ++ item :: after)).map Item.value = held id) (first : ∀ b ∈ before, b.id ≠ item.id) (id : I) :
    (stack Item.id id (before ++ after)).map Item.value = Function.update held item.id (held item.id).tail id := by
  rw [stack_pop first]
  by_cases same : id = item.id
  · subst same
    rw [if_pos rfl,Function.update_self,← values,List.map_tail]
  · rw [if_neg same,Function.update_of_ne same,values]

theorem pushed {p : Property I V} (values : ∀ id, (stack Item.id id items).map Item.value = held id) (prop : Nat) (id : I) :
    (stack Item.id id (p.item prop :: items)).map Item.value = Function.update held p.id (p.value :: held p.id) id := by
  by_cases same : id = p.id
  · subst same
    rw [Function.update_self,← values,stack_cons,if_pos (show (p.item prop).id = p.id from rfl)]
    rfl
  · have other : (p.item prop).id ≠ id := Ne.symm same
    rw [Function.update_of_ne same,← values,stack_cons,if_neg other]

theorem step_spec (op : Op I V) (stacked : Stacked props held) :
    ∃ props', props.step op = some ((stackStep held op).1,props') ∧ Stacked props' (stackStep held op).2 := by
  obtain ⟨items,holds,values⟩ := stacked
  cases op with
  | addProp id value =>
    obtain ⟨holds1,alive,outside⟩ := make_spec holds id value
    obtain ⟨props',done,holds',-⟩ := addProp_spec holds1 alive outside
    exact ⟨props',by simp only [PropList.step,done]; rfl,_,holds',pushed values _⟩
  | setProp id value =>
    obtain ⟨holds1,alive,outside⟩ := make_spec holds id value
    obtain ⟨props',done,⟨absent,holds'⟩ | ⟨before,item,after,rfl,rfl,first,holds'⟩⟩ := setProp_spec holds1 alive outside
    · refine ⟨props',by simp only [PropList.step,done]; rfl,_,holds',fun id' => ?_⟩
      rw [pushed values]
      simp [stackStep,top_of_absent values absent]
    · refine ⟨props',by simp only [PropList.step,done]; rfl,_,holds',fun id' => ?_⟩
      rw [pushed (popped values first)]
      simp [stackStep]
  | getProp id =>
    rcases getProp_spec holds id with ⟨absent,read⟩ | ⟨before,item,after,props',rfl,rfl,first,read,holds',relinked⟩
    · refine ⟨props,?_,items,holds,values⟩
      rw [PropList.step,read,stackStep,top_of_absent values absent]
      rfl
    · refine ⟨props',?_,_,holds',fun id => by rw [stack_front first]; exact values id⟩
      rw [PropList.step,read,stackStep,top_of_split values first]
      simp only [answer,Option.map_some,Option.bind_some,value_of_same (relinked.same _) (holds.stored item (by simp))]
  | removeProp id =>
    rcases removeProp_spec holds id with ⟨absent,removed⟩ | ⟨before,item,after,props',rfl,rfl,first,removed,holds'⟩
    · refine ⟨props,by simp only [PropList.step,removed]; rfl,items,holds,fun id' => ?_⟩
      rw [stackStep,popped_absent values absent]
      exact values id'
    · exact ⟨props',by simp only [PropList.step,removed]; rfl,_,holds',popped values first⟩
  | extractProp id =>
    rcases extractProp_spec holds id with ⟨absent,extracted⟩ | ⟨before,item,after,props',rfl,rfl,first,extracted,holds',relinked⟩
    · refine ⟨props,?_,items,holds,fun id' => ?_⟩
      · rw [PropList.step,extracted,stackStep,top_of_absent values absent]
        rfl
      · rw [stackStep,popped_absent values absent]
        exact values id'
    · refine ⟨props',?_,_,holds',popped values first⟩
      rw [PropList.step,extracted,stackStep,top_of_split values first]
      simp only [answer,Option.map_some,Option.bind_some,value_of_same (relinked.same _) (holds.stored item (by simp))]
  | removeAllProp id =>
    obtain ⟨props',removed,holds'⟩ := @removeAll_spec I V _ props [] id items (props.made + 1) props.head holds holds.linked (Nat.lt_succ_of_le holds.room)
    refine ⟨props',?_,_,holds',fun id' => ?_⟩
    · have removed : props.removeAllProp id = some props' := removed
      simp only [PropList.step,removed]
      rfl
    · rw [List.nil_append,stack_clear]
      by_cases same : id' = id
      · subst same
        simp [stackStep]
      · simp [stackStep,same,values]

def At (items : List (Item I V)) (id : I) (todo : List (Item I V)) (iter : Option Nat) : Prop :=
  iter = none ∧ todo = [] ∨ ∃ before item after, items = before ++ item :: after ∧ iter = some item.cell ∧ item.id = id ∧ todo = stack Item.id id after

theorem look_spec (holds : Holds props items) (id : I) {before rest : List (Item I V)} (turns : Nat) (link : Option Nat) (split : items = before ++ rest)
    (linked : Chain props.next link (rest.map Item.cell)) (enough : rest.length < turns) :
    ∃ iter todo, props.look id turns link = some iter ∧ At items id todo iter ∧
      (stack Item.id id rest).map Item.cell = iter.toList ++ todo.map Item.cell := by
  induction rest generalizing turns link before with
  | nil =>
    obtain ⟨turns,rfl⟩ := Nat.exists_eq_succ_of_ne_zero (Nat.ne_zero_of_lt enough)
    obtain rfl : link = none := linked
    exact ⟨none,[],rfl,.inl ⟨rfl,rfl⟩,rfl⟩
  | cons item rest ih =>
    obtain ⟨turns,rfl⟩ := Nat.exists_eq_succ_of_ne_zero (Nat.ne_zero_of_lt enough)
    obtain ⟨rfl,linked⟩ := linked
    have here : props.heap item.cell = some ⟨item.id,item.value,props.next item.cell⟩ := holds.heap_eq (by simp [split])
    rw [PropList.look,here,Option.bind_some]
    by_cases same : item.id = id
    · subst same
      refine ⟨some item.cell,stack Item.id item.id rest,by rw [if_pos rfl],.inr ⟨before,item,rest,split,rfl,rfl,rfl⟩,?_⟩
      rw [stack_cons_self]
      rfl
    · have split' : items = (before ++ [item]) ++ rest := by simp [split]
      rw [if_neg same,stack_cons,if_neg same]
      exact ih turns _ split' linked (Nat.lt_of_succ_lt_succ enough)

theorem getter_spec (holds : Holds props items) (id : I) :
    ∃ iter todo, props.getter id = some iter ∧ At items id todo iter ∧ (stack Item.id id items).map Item.cell = iter.toList ++ todo.map Item.cell := by
  have split : items = [] ++ items := rfl
  exact look_spec holds id (props.made + 1) props.head split holds.linked (Nat.lt_succ_of_le holds.room)

theorem getterNext_spec (holds : Holds props items) {cur : Nat} {todo : List (Item I V)} (here : At items id todo (some cur)) :
    ∃ iter todo', props.getterNext id (some cur) = some iter ∧ At items id todo' iter ∧ todo.map Item.cell = iter.toList ++ todo'.map Item.cell := by
  rcases here with ⟨absurd',-⟩ | ⟨before,item,after,rfl,eq,rfl,rfl⟩
  · exact absurd absurd' nofun
  · obtain rfl := Option.some.inj eq
    have found : props.heap item.cell = some ⟨item.id,item.value,props.next item.cell⟩ := holds.heap_eq (by simp)
    have linked := holds.linked
    rw [List.map_append,List.map_cons] at linked
    have split : before ++ item :: after = (before ++ [item]) ++ after := by simp
    have few := holds.room
    rw [List.length_append,List.length_cons] at few
    rw [PropList.getterNext,Option.bind_some,found,Option.bind_some]
    exact look_spec holds item.id (props.made + 1) _ split linked.suffix (by omega)

theorem At.moved {todo : List (Item I V)} {iter : Option Nat} (here : At (before ++ item :: after) id todo iter) (first : ∀ b ∈ before, b.id ≠ item.id) :
    At (item :: (before ++ after)) id todo iter := by
  rcases here with ended | ⟨earlier,cur,later,split,rfl,rfl,rfl⟩
  · exact .inl ended
  · obtain ⟨earlier',later',split',same⟩ := left_front first split
    exact .inr ⟨earlier',cur,later',split',rfl,rfl,same.symm⟩

theorem getProp_moved (holds : Holds props items) {todo : List (Item I V)} {iter : Option Nat} (here : At items id todo iter) (other : I) :
    ∃ found props' items', props.getProp other = some (found,props') ∧ Holds props' items' ∧ At items' id todo iter := by
  rcases getProp_spec holds other with ⟨-,read⟩ | ⟨before,item,after,props',rfl,-,first,read,holds',-⟩
  · exact ⟨none,props,items,read,holds,here⟩
  · exact ⟨_,props',_,read,holds',here.moved first⟩

def toEnd (todo : List (Item I V)) : Option Nat → Nat
  | none => 0
  | some _ => todo.length + 1

theorem moves_spec {steps : List (Move I)} {todo : List (Item I V)} {iter : Option Nat} (holds : Holds props items) (here : At items id todo iter) :
    (∀ visited, moves id steps props iter = some (visited,none) → visited = todo.map Item.cell) ∧
      (steps.countP Move.isNext = toEnd todo iter → moves id steps props iter = some (todo.map Item.cell,none)) := by
  induction steps generalizing props items todo iter with
  | nil =>
    rw [moves]
    rcases here with ⟨rfl,rfl⟩ | ⟨before,item,after,split,rfl,-,-⟩
    · exact ⟨fun visited eq => (Prod.ext_iff.mp (Option.some.inj eq)).1.symm,fun _ => rfl⟩
    · exact ⟨fun visited eq => absurd (Prod.ext_iff.mp (Option.some.inj eq)).2 nofun,fun none => absurd none (by simp [toEnd])⟩
  | cons move rest ih =>
    cases move with
    | getProp other =>
      obtain ⟨found,props',items',read,holds',here'⟩ := getProp_moved holds here other
      obtain ⟨order,ends⟩ := ih holds' here'
      rw [moves,read,Option.bind_some]
      exact ⟨order,fun count => ends (by simpa [Move.isNext] using count)⟩
    | next =>
      cases iter with
      | none => exact ⟨fun visited eq => absurd eq nofun,fun count => absurd count (by simp [toEnd,Move.isNext])⟩
      | some cur =>
        obtain ⟨iter,todo',advanced,here',eq⟩ := getterNext_spec holds here
        obtain ⟨order,ends⟩ := ih holds here'
        simp only [moves,advanced,Option.bind_eq_bind,Option.bind_some]
        constructor
        · intro visited moved
          obtain ⟨⟨more,last⟩,moved',same⟩ := Option.bind_eq_some_iff.mp moved
          obtain ⟨rfl,rfl⟩ := Prod.mk.inj (Option.some.inj same)
          rw [eq,order more moved']
        · intro count
          have left : toEnd todo' iter = todo.length := by
            have := congrArg List.length eq
            cases iter with
            | none =>
              rcases here' with ⟨-,rfl⟩ | ⟨before,item,after,split,absurd',same⟩
              · simpa [toEnd] using this.symm
              · exact absurd absurd' nofun
            | some cur => simpa [toEnd] using this.symm
          rw [List.countP_cons_of_pos rfl] at count
          rw [ends (left ▸ Nat.succ.inj count),Option.bind_some,eq]

omit [DecidableEq I] in
theorem Holds.cells_eq (holds : Holds props items) : props.cells = items.map Item.cell :=
  holds.linked.walk_eq (by rw [List.length_map]; exact holds.room)

theorem Holds.found_eq (holds : Holds props items) (id : I) : props.found id = (stack Item.id id items).map Item.cell := by
  rw [PropList.found,holds.cells_eq,List.filter_map]
  refine congrArg (List.map Item.cell) (List.filter_congr fun item member => ?_)
  simp [holds.heap_eq member]

theorem Holds.values_eq (holds : Holds props items) (id : I) : props.values id = (stack Item.id id items).map Item.value := by
  have stored (part : List (Item I V)) (within : ∀ item ∈ part, item ∈ items) :
      (part.map Item.cell).filterMap (fun prop => (props.heap prop).map Property.value) = part.map Item.value := by
    induction part with
    | nil => rfl
    | cons item part ih =>
      rw [List.map_cons,List.filterMap_cons,holds.heap_eq (within item List.mem_cons_self),ih fun x member => within x (List.mem_cons_of_mem item member)]
      rfl
  rw [PropList.values,holds.found_eq]
  exact stored _ fun item member => (mem_stack.mp member).1

omit [DecidableEq I] in
theorem holds_empty : Holds (PropList.empty : PropList I V) [] := ⟨rfl,.nil,nofun,nofun⟩

theorem visits_spec (holds : Holds props items) (id : I) (steps : List (Move I)) :
    (∀ visited, visits props id steps = some (visited,none) → visited = props.found id) ∧
      (steps.countP Move.isNext = (props.found id).length → visits props id steps = some (props.found id,none)) := by
  obtain ⟨iter,todo,first,here,eq⟩ := getter_spec holds id
  obtain ⟨order,ends⟩ := @moves_spec I V _ props items id steps todo iter holds here
  rw [holds.found_eq,eq]
  simp only [visits,first,Option.bind_eq_bind,Option.bind_some]
  constructor
  · intro visited moved
    obtain ⟨⟨more,last⟩,moved',same⟩ := Option.bind_eq_some_iff.mp moved
    obtain ⟨rfl,rfl⟩ := Prod.mk.inj (Option.some.inj same)
    rw [order more moved']
  · intro count
    rw [ends]
    · rfl
    · rcases here with ⟨rfl,rfl⟩ | ⟨before,item,after,-,rfl,-,rfl⟩
      · simpa [toEnd] using count
      · simpa [toEnd] using count

/-- After any operations, the values of each identifier are the stack that its own operations make, and the reads have
    returned the tops of the stacks; and an iteration on an identifier visits each of its properties once, in order,
    whatever is read on the way. -/
theorem propList_right (ops : List (Op I V)) :
    ∃ props : PropList I V, ops.foldlM (fun props op => (props.step op).map Prod.snd) PropList.empty = some props ∧
      attempts PropList.step PropList.empty ops = some (answers stackStep (fun _ => []) ops) ∧
      (∀ id, props.values id = ops.foldl (fun held op => (stackStep held op).2) (fun _ => []) id) ∧
      ∀ id, (props.found id).Nodup ∧ ∀ steps,
        (∀ visited, visits props id steps = some (visited,none) → visited = props.found id) ∧
          (steps.countP Move.isNext = (props.found id).length → visits props id steps = some (props.found id,none)) := by
  have start : Stacked (PropList.empty : PropList I V) fun _ => [] := ⟨[],holds_empty,fun _ => rfl⟩
  have run (ops : List (Op I V)) (props : PropList I V) (held : I → List V) (stacked : Stacked props held) :
      ∃ props', ops.foldlM (fun props op => (props.step op).map Prod.snd) props = some props' ∧
        Stacked props' (ops.foldl (fun held op => (stackStep held op).2) held) := by
    induction ops generalizing props held with
    | nil => exact ⟨props,rfl,stacked⟩
    | cons op ops ih =>
      obtain ⟨next,stepped,stacked'⟩ := step_spec op stacked
      obtain ⟨last,ran,final⟩ := ih next _ stacked'
      exact ⟨last,by rw [List.foldlM_cons,stepped]; exact ran,final⟩
  obtain ⟨props,ran,items,holds,values⟩ := run ops _ _ start
  refine ⟨props,ran,?_,fun id => (holds.values_eq id).trans (values id),fun id => ⟨?_,visits_spec holds id⟩⟩
  · have always : ∀ op ∈ ops, (fun _ : Op I V => True) op := fun _ _ => trivial
    exact attempts_eq Stacked (fun _ _ op stacked _ _ => step_spec op stacked) start always always
  · rw [holds.found_eq]
    exact holds.nodup.sublist (List.Sublist.map _ List.filter_sublist)

end

end

end Otawa.Properties
