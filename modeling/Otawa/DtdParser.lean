import Mathlib.Data.List.DropRight
import Mathlib.Data.List.Infix
import Mathlib.Tactic.Common

/-!
The parser of content models (`dtd::Parser` and the classes of `dtd::Content`) that reads CFGs from XML.
An element is always entered in the first child of its parent, an attribute that fails leaves the parser
in its element, a repetition ends at its first success, and sequences and alternatives fail at the last
child: the models and the trees on which every call is right are those without these cases (`sound_iff`).
-/
namespace Otawa.Dtd

/-! ### Trees and content models -/

inductive Node
  | text (text : String)
  | element (name : String) (attributes : List (String × String)) (children : List Node)
  | other

def isEmpty : Node → Bool
  | .text text => text.toList.all fun c => c = ' ' || c = '\t' || c = '\x0b' || c = '\n'
  | _ => false

structure Attribute where
  name : String
  required : Bool
  process : String → Bool

/-- `Attribute::parse`, with the attributes of the current element. -/
def Attribute.parse (attr : Attribute) (attributes : List (String × String)) : Bool :=
  match attributes.lookup attr.name with
  | some value => attr.process value
  | none => !attr.required

inductive Content
  | empty
  | element (name : String) (attrs : List Attribute) (content : Content)
  | optional (con : Content)
  | alt (con1 con2 : Content)
  | seq (con1 con2 : Content) (crop : Bool)
  | repetition (con : Content) (crop : Bool)

structure Context where
  i : Nat
  attributes : List (String × String)
  children : List Node

structure Parser where
  cur : Context
  stack : List Context

namespace Parser
variable (p : Parser)

def rest : List Node := p.cur.children.drop p.cur.i

def ended : Bool := p.cur.i ≥ p.cur.children.length
def item : Option Node := p.cur.children[p.cur.i]?
def next : Parser := { p with cur := { p.cur with i := p.cur.i + 1 } }
def backtrack (mark : Nat) : Parser := { p with cur := { p.cur with i := mark } }

/-- `push`: the index is cleared before the item is read. A node that is not an element cannot be entered. -/
def push : Option Parser :=
  let cur : Context := { p.cur with i := 0 }
  match cur.children[cur.i]? with
  | some (.element _ attributes children) => some ⟨⟨0,attributes,children⟩,p.cur :: p.stack⟩
  | _ => none

def pop : Option Parser :=
  match p.stack with
  | [] => none
  | cur :: stack => some ⟨cur,stack⟩

def blanks (i : Nat) : List Node → Nat
  | [] => i
  | node :: rest => if isEmpty node then blanks (i + 1) rest else i

def crop : Parser := { p with cur := { p.cur with i := blanks p.cur.i p.rest } }

def cropIf (crop : Bool) : Parser := if crop then p.crop else p

end Parser

/-- The loop of `Repeat`, for at most k turns. -/
def repeatLoop (crop : Bool) (con : Parser → Option (Bool × Parser)) : Nat → Parser → Option Parser
  | 0, _ => none
  | k + 1, p =>
    let p := p.cropIf crop
    if crop && p.ended then some p
    else (con p).bind fun (success,p) => if success then some p else repeatLoop crop con k p

/-- `Content::parse`, with at most k turns for each repetition. -/
def parse (k : Nat) : Content → Parser → Option (Bool × Parser)
  | .empty, p =>
    let p' := p.crop
    if p'.ended then some (true,p') else some (false,p'.backtrack p.cur.i)
  | .element name attrs content, p =>
    if p.ended then some (false,p)
    else
      match p.item with
      | some (.element local_ _ _) =>
        if local_ ≠ name then some (false,p)
        else p.push.bind fun p =>
          if attrs.all fun attr => attr.parse p.cur.attributes then
            (parse k content p).bind fun (success,p) =>
              p.pop.map fun p => if success then (true,p.next) else (false,p)
          else some (false,p)
      | _ => some (false,p)
  | .optional con, p => if p.ended then some (true,p) else (parse k con p).map fun (_,p) => (true,p)
  | .alt con1 con2, p =>
    if p.ended then some (false,p)
    else (parse k con1 p).bind fun (success,p) => if success then some (true,p) else parse k con2 p
  | .seq con1 con2 crop, p =>
    let mark := p.cur.i
    if p.ended then some (false,p)
    else
      let p := p.cropIf crop
      if crop && p.ended then some (false,p.backtrack mark)
      else (parse k con1 p).bind fun (success,p) =>
        if !success then some (false,p.backtrack mark)
        else
          let p := p.cropIf crop
          if crop && p.ended then some (false,p.backtrack mark)
          else (parse k con2 p).bind fun (success,p) =>
            if !success then some (false,p.backtrack mark) else some (true,p.cropIf crop)
  | .repetition con crop, p => (repeatLoop crop (parse k con) k p).map fun p => (true,p)

def skip (crop : Bool) (rest : List Node) : List Node := if crop then rest.dropWhile isEmpty else rest

def many (crop : Bool) (con : List Node → Option (List Node)) : Nat → List Node → List Node
  | 0, rest => skip crop rest
  | n + 1, rest =>
    let rest := skip crop rest
    match con rest with
    | some rest' => if rest'.length < rest.length then many crop con n rest' else rest
    | none => rest

def Content.matching : Content → List Node → Option (List Node)
  | .empty, rest => if rest.all isEmpty then some [] else none
  | .element name attrs content, rest =>
    match rest with
    | .element local_ attributes children :: rest =>
      if local_ = name ∧ attrs.all (fun attr => attr.parse attributes) ∧ (content.matching children).isSome then some rest else none
    | _ => none
  | .optional con, rest => some ((con.matching rest).getD rest)
  | .alt con1 con2, rest => (con1.matching rest).or (con2.matching rest)
  | .seq con1 con2 crop, rest =>
    ((con1.matching (skip crop rest)).bind fun rest => con2.matching (skip crop rest)).map (skip crop)
  | .repetition con crop, rest => some (many crop con.matching rest.length rest)

/-- The parser with other children that remain. -/
def Parser.after (p : Parser) (rest : List Node) : Parser :=
  { p with cur := { p.cur with i := p.cur.i + (p.rest.length - rest.length) } }

/-- What a call promises: a match is consumed, and without a match the parser is where it was. -/
def Content.expected (con : Content) (p : Parser) : Bool × Parser :=
  match con.matching p.rest with
  | some rest => (true,p.after rest)
  | none => (false,p)

/-- A call ends, with the result expected. -/
def Meets (con : Content) (p : Parser) : Prop := ∃ k, parse k con p = some (con.expected p)

theorem repeatLoop_mono {crop : Bool} {con con' : Parser → Option (Bool × Parser)}
    (more : ∀ p r, con p = some r → con' p = some r) {k k' : Nat} (le : k ≤ k') {p p' : Parser}
    (ran : repeatLoop crop con k p = some p') : repeatLoop crop con' k' p = some p' := by
  induction k generalizing k' p with
  | zero => cases ran
  | succ k ih =>
    obtain ⟨k',rfl⟩ : ∃ k'', k' = k'' + 1 := ⟨k' - 1,by omega⟩
    rw [repeatLoop] at ran ⊢
    dsimp only at ran ⊢
    split at ran
    case isTrue stops => rwa [if_pos stops]
    case isFalse goes =>
      rw [if_neg goes]
      obtain ⟨⟨success,q⟩,called,ran⟩ := Option.bind_eq_some_iff.1 ran
      rw [more _ _ called,Option.bind_some]
      cases success with
      | true => exact ran
      | false => exact ih (by omega) ran

/-- A result that is reached within some turns is the one reached with more turns. -/
theorem parse_mono {k k' : Nat} (le : k ≤ k') {con : Content} {p : Parser} {r : Bool × Parser} (ran : parse k con p = some r) :
    parse k' con p = some r := by
  induction con generalizing p r with
  | empty => exact ran
  | element name attrs content ih =>
    rw [parse] at ran ⊢
    split at ran
    case isTrue over_ => rwa [if_pos over_]
    case isFalse inside =>
      rw [if_neg inside]
      split at ran
      case h_2 other => simpa [other] using ran
      case h_1 local_ attributes children item =>
        dsimp only at ran ⊢
        split at ran
        case isTrue differs => rwa [if_pos differs]
        case isFalse same =>
          rw [if_neg same]
          obtain ⟨q,pushed,ran⟩ := Option.bind_eq_some_iff.1 ran
          rw [pushed,Option.bind_some]
          split at ran
          case isFalse fails => rwa [if_neg fails]
          case isTrue passes =>
            rw [if_pos passes]
            obtain ⟨result,called,ran⟩ := Option.bind_eq_some_iff.1 ran
            rw [ih called,Option.bind_some]
            exact ran
  | optional con ih =>
    rw [parse] at ran ⊢
    split at ran
    case isTrue over_ => rwa [if_pos over_]
    case isFalse inside =>
      rw [if_neg inside]
      obtain ⟨result,called,ran⟩ := Option.map_eq_some_iff.1 ran
      rw [ih called,← ran]
      rfl
  | alt con1 con2 ih1 ih2 =>
    rw [parse] at ran ⊢
    split at ran
    case isTrue over_ => rwa [if_pos over_]
    case isFalse inside =>
      rw [if_neg inside]
      obtain ⟨⟨success,q⟩,called,ran⟩ := Option.bind_eq_some_iff.1 ran
      rw [ih1 called,Option.bind_some]
      cases success with
      | true => exact ran
      | false => exact ih2 ran
  | seq con1 con2 crop ih1 ih2 =>
    rw [parse] at ran ⊢
    dsimp only at ran ⊢
    split at ran
    case isTrue over_ => rwa [if_pos over_]
    case isFalse inside =>
      rw [if_neg inside]
      split at ran
      case isTrue stops => rwa [if_pos stops]
      case isFalse goes =>
        rw [if_neg goes]
        obtain ⟨⟨success,q⟩,called,ran⟩ := Option.bind_eq_some_iff.1 ran
        rw [ih1 called,Option.bind_some]
        cases success with
        | false => exact ran
        | true =>
          simp only [Bool.not_true,Bool.false_eq_true,if_false] at ran ⊢
          split at ran
          case isTrue stops' => rwa [if_pos stops']
          case isFalse goes' =>
            rw [if_neg goes']
            obtain ⟨⟨success,q'⟩,called',ran⟩ := Option.bind_eq_some_iff.1 ran
            rw [ih2 called',Option.bind_some]
            exact ran
  | repetition con crop ih =>
    rw [parse] at ran ⊢
    obtain ⟨q,loop,ran⟩ := Option.map_eq_some_iff.1 ran
    rw [repeatLoop_mono (fun p r => ih) le loop,← ran]
    rfl

theorem Meets.eq_expected {con : Content} {p : Parser} {k : Nat} {r : Bool × Parser} (meets : Meets con p) (ran : parse k con p = some r) :
    r = con.expected p := by
  obtain ⟨k',ran'⟩ := meets
  have more := parse_mono (le_max_left k k') ran
  have more' := parse_mono (le_max_right k k') ran'
  exact Option.some.inj (more.symm.trans more')

section
variable {p : Parser} {rest rest' : List Node} {node : Node}

@[simp] theorem after_children (p : Parser) (rest : List Node) : (p.after rest).cur.children = p.cur.children := rfl

theorem rest_after (suffix : rest <:+ p.rest) : (p.after rest).rest = rest := by
  obtain ⟨before,here⟩ := suffix
  have dropped : (p.after rest).rest = (p.cur.children.drop p.cur.i).drop (p.rest.length - rest.length) := by
    rw [List.drop_drop]
    rfl
  rw [dropped,← Parser.rest,← here]
  simp

theorem after_self (p : Parser) : p.after p.rest = p := by simp [Parser.after]

theorem after_after (suffix : rest <:+ p.rest) (suffix' : rest' <:+ rest) : (p.after rest).after rest' = p.after rest' := by
  have size := suffix.length_le
  have size' := suffix'.length_le
  rw [Parser.after,rest_after suffix]
  simp only [Parser.after,Parser.mk.injEq,Context.mk.injEq,and_true]
  omega

theorem ended_iff (p : Parser) : p.ended = true ↔ p.rest = [] := by simp [Parser.ended,Parser.rest]

theorem item_eq (p : Parser) : p.item = p.rest.head? := by simp [Parser.item,Parser.rest]

theorem next_eq (here : p.rest = node :: rest) : p.next = p.after rest := by simp [Parser.next,Parser.after,here]

theorem backtrack_after (p : Parser) (rest : List Node) : (p.after rest).backtrack p.cur.i = p := rfl

theorem blanks_eq (i : Nat) (rest : List Node) : Parser.blanks i rest = i + (rest.length - (rest.dropWhile isEmpty).length) := by
  induction rest generalizing i with
  | nil => simp [Parser.blanks]
  | cons node rest ih =>
    have shorter := (List.dropWhile_suffix (p := isEmpty) (l := rest)).length_le
    rw [Parser.blanks]
    by_cases blank : isEmpty node
    · rw [if_pos blank,ih,List.dropWhile_cons_of_pos blank,List.length_cons]
      omega
    · rw [if_neg blank,List.dropWhile_cons_of_neg blank]
      simp

theorem cropIf_eq (p : Parser) (crop : Bool) : p.cropIf crop = p.after (skip crop p.rest) := by
  cases crop with
  | false => exact (after_self p).symm
  | true => simp [Parser.cropIf,Parser.crop,skip,blanks_eq,Parser.after]

theorem skip_suffix (crop : Bool) (rest : List Node) : skip crop rest <:+ rest := by
  rw [skip]
  split
  · exact List.dropWhile_suffix _
  · exact List.suffix_rfl

theorem skip_skip (crop : Bool) (rest : List Node) : skip crop (skip crop rest) = skip crop rest := by
  cases crop with
  | false => rfl
  | true => exact List.dropWhile_idempotent ..

@[simp] theorem cropIf_children (p : Parser) (crop : Bool) : (p.cropIf crop).cur.children = p.cur.children := by
  rw [cropIf_eq,after_children]

theorem rest_cropIf (p : Parser) (crop : Bool) : (p.cropIf crop).rest = skip crop p.rest := by
  rw [cropIf_eq,rest_after (skip_suffix _ _)]

theorem many_suffix {crop : Bool} {con : List Node → Option (List Node)} (suffix : ∀ rest rest', con rest = some rest' → rest' <:+ rest)
    (n : Nat) (rest : List Node) : many crop con n rest <:+ rest := by
  induction n generalizing rest with
  | zero => exact skip_suffix _ _
  | succ n ih =>
    rw [many]
    split
    case h_1 rest' found =>
      split
      · exact (ih rest').trans ((suffix _ _ found).trans (skip_suffix _ _))
      · exact skip_suffix _ _
    case h_2 => exact skip_suffix _ _

theorem matching_suffix {con : Content} (found : con.matching rest = some rest') : rest' <:+ rest := by
  induction con generalizing rest rest' with
  | empty =>
    rw [Content.matching] at found
    split at found
    · obtain rfl := Option.some.inj found
      exact List.nil_suffix
    · cases found
  | element name attrs content ih =>
    cases rest with
    | nil => cases found
    | cons node rest =>
      cases node with
      | text | other => cases found
      | element =>
        rw [Content.matching] at found
        split at found
        · obtain rfl := Option.some.inj found
          exact List.suffix_cons _ _
        · cases found
  | optional con ih =>
    rw [Content.matching,Option.some.injEq] at found
    cases matched : con.matching rest with
    | none => rw [← found,matched]; exact List.suffix_rfl
    | some rest'' =>
      rw [← found,matched]
      exact ih matched
  | alt con1 con2 ih1 ih2 =>
    rw [Content.matching] at found
    rcases Option.or_eq_some_iff.1 found with found | ⟨-,found⟩
    · exact ih1 found
    · exact ih2 found
  | seq con1 con2 crop ih1 ih2 =>
    rw [Content.matching] at found
    obtain ⟨rest2,both,rfl⟩ := Option.map_eq_some_iff.1 found
    obtain ⟨rest1,found1,found2⟩ := Option.bind_eq_some_iff.1 both
    exact (skip_suffix _ _).trans ((ih2 found2).trans ((skip_suffix _ _).trans ((ih1 found1).trans (skip_suffix _ _))))
  | repetition con crop ih =>
    rw [Content.matching,Option.some.injEq] at found
    rw [← found]
    exact many_suffix (fun _ _ => ih) _ _

end

/-- The parser in the element that a call enters, once its attributes have passed. -/
def Parser.enter (p : Parser) (name : String) (attrs : List Attribute) : Option Parser :=
  match p.item with
  | some (.element local_ _ _) =>
    if local_ = name then p.push.filter fun p => attrs.all fun attr => attr.parse p.cur.attributes else none
  | _ => none

/-- The calls of the loop of a repetition. -/
inductive Called (con : Content) (crop : Bool) (p : Parser) : Parser → Prop
  | first : (crop && (p.cropIf crop).ended) = false → Called con crop p (p.cropIf crop)
  | again {k : Nat} {p1 p2 : Parser} : Called con crop p p1 → parse k con p1 = some (false,p2) →
      (crop && (p2.cropIf crop).ended) = false → Called con crop p (p2.cropIf crop)

/-- A call and all the calls that it makes meet what is expected. -/
def Sound : Content → Parser → Prop
  | .empty, p => Meets .empty p
  | .element name attrs content, p => Meets (.element name attrs content) p ∧ ∀ p', p.enter name attrs = some p' → Sound content p'
  | .optional con, p => Meets (.optional con) p ∧ (p.ended = false → Sound con p)
  | .alt con1 con2, p => Meets (.alt con1 con2) p ∧
      (p.ended = false → Sound con1 p ∧ ∀ k p', parse k con1 p = some (false,p') → Sound con2 p')
  | .seq con1 con2 crop, p => Meets (.seq con1 con2 crop) p ∧
      (p.ended = false → (crop && (p.cropIf crop).ended) = false → Sound con1 (p.cropIf crop) ∧
        ∀ k p', parse k con1 (p.cropIf crop) = some (true,p') → (crop && (p'.cropIf crop).ended) = false → Sound con2 (p'.cropIf crop))
  | .repetition con crop, p => Meets (.repetition con crop) p ∧ ∀ p', Called con crop p p' → Sound con p'

theorem Sound.meets {con : Content} {p : Parser} (sound : Sound con p) : Meets con p := by
  cases con with
  | empty => exact sound
  | element | optional | alt | seq | repetition => exact sound.1

/-- The trees on which a model is parsed right, with the first child of the element and the children that
    remain. -/
def Content.Clean : Content → Option Node → List Node → Prop
  | .empty, _, _ => True
  | .element name attrs content, first, rest =>
    match rest with
    | .element local_ attributes children :: _ =>
      local_ = name → ∃ name' attributes' children', first = some (.element name' attributes' children') ∧
        attrs.all (fun attr => attr.parse attributes') = true ∧ content.Clean children'.head? children' ∧
        ((content.matching children').isSome = true ↔
          attrs.all (fun attr => attr.parse attributes) = true ∧ (content.matching children).isSome = true)
    | _ => True
  | .optional con, first, rest => rest ≠ [] → con.Clean first rest
  | .alt con1 con2, first, rest =>
    (rest = [] → con1.matching [] = none ∧ con2.matching [] = none) ∧
      (rest ≠ [] → con1.Clean first rest ∧ (con1.matching rest = none → con2.Clean first rest))
  | .seq con1 con2 crop, first, rest =>
    (skip crop rest = [] → ∀ rest1, con1.matching [] = some rest1 → con2.matching [] = none) ∧
      (skip crop rest ≠ [] → con1.Clean first (skip crop rest) ∧ ∀ rest1, con1.matching (skip crop rest) = some rest1 →
        (crop = true ∧ skip crop rest1 = [] → con2.matching [] = none) ∧
          (¬(crop = true ∧ skip crop rest1 = []) → con2.Clean first (skip crop rest1)))
  | .repetition con crop, first, rest =>
    crop = true ∧ skip crop rest = [] ∨ con.Clean first (skip crop rest) ∧
      ∃ rest1, con.matching (skip crop rest) = some rest1 ∧ many crop con.matching rest.length rest = rest1

section
variable {p : Parser} {rest : List Node} {k : Nat}

theorem expected_some {con : Content} (found : con.matching p.rest = some rest) : con.expected p = (true,p.after rest) := by
  rw [Content.expected,found]

theorem expected_none {con : Content} (none_ : con.matching p.rest = none) : con.expected p = (false,p) := by
  rw [Content.expected,none_]

theorem crop_stops (p : Parser) (crop : Bool) : (crop && (p.cropIf crop).ended) = true ↔ crop = true ∧ skip crop p.rest = [] := by
  rw [Bool.and_eq_true,ended_iff,rest_cropIf]

/-! ### Elements -/

variable {name : String} {attrs : List Attribute} {content : Content}

def Parser.inFirst (p : Parser) (attributes : List (String × String)) (children : List Node) : Parser :=
  ⟨⟨0,attributes,children⟩,p.cur :: p.stack⟩

theorem push_eq {name' : String} {attributes' : List (String × String)} {children' : List Node}
    (first : p.cur.children.head? = some (.element name' attributes' children')) : p.push = some (p.inFirst attributes' children') := by
  rw [List.head?_eq_getElem?] at first
  rw [Parser.push]
  dsimp only
  rw [first]
  rfl

theorem push_none (first : ∀ name' attributes' children', p.cur.children.head? ≠ some (.element name' attributes' children')) : p.push = none := by
  rw [List.head?_eq_getElem?] at first
  rw [Parser.push]
  dsimp only
  cases here : p.cur.children[0]? with
  | none => rfl
  | some node =>
    cases node with
    | text | other => rfl
    | element => exact absurd here (first _ _ _)

variable {attributes : List (String × String)}

theorem parse_element {children : List Node}
    (here : p.rest = .element name attributes children :: rest) :
    parse k (.element name attrs content) p = p.push.bind fun p =>
      if attrs.all fun attr => attr.parse p.cur.attributes then
        (parse k content p).bind fun (success,p) => p.pop.map fun p => if success then (true,p.next) else (false,p)
      else some (false,p) := by
  have inside : ¬p.ended = true := fun ended => by rw [(ended_iff p).1 ended] at here; cases here
  have item := item_eq p
  rw [here,List.head?_cons] at item
  rw [parse,if_neg inside,item]
  exact if_neg (by simp)

theorem parse_other (other : ∀ attributes children rest, p.rest ≠ .element name attributes children :: rest) :
    parse k (.element name attrs content) p = some (false,p) := by
  rw [parse]
  split
  · rfl
  · split
    · rename_i item
      rw [item_eq] at item
      split
      · rfl
      · rename_i same
        obtain ⟨rest,here⟩ := List.head?_eq_some_iff.1 item
        rw [not_not.1 same] at here
        exact absurd here (other _ _ _)
    · rfl

theorem parse_entered {name' : String} {attributes attributes' : List (String × String)} {children children' : List Node}
    (here : p.rest = .element name attributes children :: rest) (first : p.cur.children.head? = some (.element name' attributes' children'))
    (passes : attrs.all (fun attr => attr.parse attributes') = true) (meets : Meets content (p.inFirst attributes' children')) :
    ∃ k, parse k (.element name attrs content) p =
      some (if (content.matching children').isSome then (true,p.after rest) else (false,p)) := by
  obtain ⟨k,ran⟩ := meets
  refine ⟨k,?_⟩
  have attributesPass : attrs.all (fun attr => attr.parse (p.inFirst attributes' children').cur.attributes) = true := passes
  rw [parse_element here,push_eq first,Option.bind_some,if_pos attributesPass,ran,Option.bind_some]
  have inside : (p.inFirst attributes' children').rest = children' := rfl
  cases matched : content.matching children' with
  | none =>
    rw [expected_none (by rw [inside]; exact matched)]
    rfl
  | some rest' =>
    rw [expected_some (by rw [inside]; exact matched)]
    exact congrArg some (congrArg (Prod.mk true) (next_eq here))

theorem matching_element {children : List Node} (here : p.rest = .element name attributes children :: rest) :
    (Content.element name attrs content).matching p.rest =
      if attrs.all (fun attr => attr.parse attributes) = true ∧ (content.matching children).isSome = true then some rest else none := by
  rw [here,Content.matching]
  simp

theorem matching_other (other : ∀ attributes children rest, p.rest ≠ .element name attributes children :: rest) :
    (Content.element name attrs content).matching p.rest = none := by
  cases here : p.rest with
  | nil => rfl
  | cons node rest =>
    cases node with
    | text | other => rfl
    | element =>
      refine if_neg fun found => ?_
      rw [found.1] at here
      exact other _ _ _ here

theorem enter_eq {children : List Node} (here : p.rest = .element name attributes children :: rest) :
    p.enter name attrs = p.push.filter fun p => attrs.all fun attr => attr.parse p.cur.attributes := by
  rw [Parser.enter,item_eq,here]
  exact if_pos rfl

theorem enter_other (other : ∀ attributes children rest, p.rest ≠ .element name attributes children :: rest) : p.enter name attrs = none := by
  rw [Parser.enter,item_eq]
  split
  · rename_i item
    obtain ⟨rest,here⟩ := List.head?_eq_some_iff.1 item
    exact if_neg fun same => other _ _ _ (same ▸ here)
  · rfl

theorem clean_other (other : ∀ attributes children rest, p.rest ≠ .element name attributes children :: rest) (first : Option Node) :
    (Content.element name attrs content).Clean first p.rest := by
  cases here : p.rest with
  | nil => trivial
  | cons node rest =>
    cases node with
    | text | other => trivial
    | element =>
      intro same
      rw [same] at here
      exact absurd here (other _ _ _)

theorem sound_element (ih : ∀ p, Sound content p ↔ content.Clean p.cur.children.head? p.rest) (p : Parser) :
    Sound (.element name attrs content) p ↔ (Content.element name attrs content).Clean p.cur.children.head? p.rest := by
  by_cases named : ∃ attributes children rest, p.rest = .element name attributes children :: rest
  swap
  · have other : ∀ attributes children rest, p.rest ≠ .element name attributes children :: rest :=
      fun attributes children rest here => named ⟨attributes,children,rest,here⟩
    refine iff_of_true ⟨⟨0,?_⟩,fun p' entered => ?_⟩ (clean_other other _)
    · rw [parse_other other,expected_none (matching_other other)]
    · rw [enter_other other] at entered
      cases entered
  obtain ⟨attributes,children,rest,here⟩ := named
  have clean : (Content.element name attrs content).Clean p.cur.children.head? p.rest ↔
      ∃ name' attributes' children', p.cur.children.head? = some (.element name' attributes' children') ∧
        attrs.all (fun attr => attr.parse attributes') = true ∧ content.Clean children'.head? children' ∧
        ((content.matching children').isSome = true ↔
          attrs.all (fun attr => attr.parse attributes) = true ∧ (content.matching children).isSome = true) := by
    rw [here,Content.Clean]
    exact ⟨fun all => all rfl,fun all _ => all⟩
  rw [clean]
  constructor
  · rintro ⟨meets,entered⟩
    obtain ⟨k,ran⟩ := meets
    -- a first child that is not an element is no way in
    by_cases first : ∃ name' attributes' children', p.cur.children.head? = some (.element name' attributes' children')
    swap
    · rw [parse_element here,push_none fun name' attributes' children' same => first ⟨name',attributes',children',same⟩] at ran
      cases ran
    obtain ⟨name',attributes',children',first⟩ := first
    have stuck : attrs.all (fun attr => attr.parse attributes') = true := by
      by_contra fails
      have attributesFail : ¬attrs.all (fun attr => attr.parse (p.inFirst attributes' children').cur.attributes) = true := fails
      rw [parse_element here,push_eq first,Option.bind_some,if_neg attributesFail] at ran
      have result := Option.some.inj ran
      cases matched : (Content.element name attrs content).matching p.rest with
      | some rest' =>
        rw [expected_some matched] at result
        cases result
      | none =>
        rw [expected_none matched] at result
        have stack := congrArg (fun r => r.2.stack.length) result
        simp [Parser.inFirst] at stack
    have sound := entered (p.inFirst attributes' children') (by rw [enter_eq here,push_eq first]; exact Option.filter_some_pos stuck)
    refine ⟨name',attributes',children',first,stuck,(ih _).1 sound,?_⟩
    obtain ⟨k',ran'⟩ := parse_entered here first stuck sound.meets
    have result := (show Meets (.element name attrs content) p from ⟨k,ran⟩).eq_expected ran'
    rw [Content.expected,matching_element here] at result
    by_cases matched : attrs.all (fun attr => attr.parse attributes) = true ∧ (content.matching children).isSome = true
    · rw [if_pos matched] at result
      refine iff_of_true ?_ matched
      by_contra no
      rw [if_neg no] at result
      cases result
    · rw [if_neg matched] at result
      refine iff_of_false (fun yes => ?_) matched
      rw [if_pos yes] at result
      cases result
  · rintro ⟨name',attributes',children',first,passes,inner,same⟩
    have sound : Sound content (p.inFirst attributes' children') := (ih _).2 inner
    refine ⟨?_,fun p' entered => ?_⟩
    · obtain ⟨k,ran⟩ := parse_entered here first passes sound.meets
      refine ⟨k,ran.trans ?_⟩
      rw [Content.expected,matching_element here]
      by_cases matched : attrs.all (fun attr => attr.parse attributes) = true ∧ (content.matching children).isSome = true
      · rw [if_pos matched,if_pos (same.2 matched)]
      · rw [if_neg matched,if_neg fun yes => matched (same.1 yes)]
    · rw [enter_eq here,push_eq first] at entered
      obtain ⟨found,-⟩ := Option.filter_eq_some_iff.1 entered
      rw [← Option.some.inj found]
      exact sound

variable {con con1 con2 : Content} {crop : Bool}

theorem rest_ne (inside : p.ended = false) : p.rest ≠ [] := fun over_ => by
  rw [(ended_iff p).2 over_] at inside
  cases inside

theorem ended_false (inside : p.rest ≠ []) : p.ended = false := by
  cases ended : p.ended with
  | false => rfl
  | true => exact absurd ((ended_iff p).1 ended) inside

theorem meets_empty (p : Parser) : Meets .empty p := by
  refine ⟨0,?_⟩
  have cropped : p.crop = p.after (p.rest.dropWhile isEmpty) := cropIf_eq p true
  have suffix : p.rest.dropWhile isEmpty <:+ p.rest := List.dropWhile_suffix _
  rw [parse,cropped,Content.expected,Content.matching]
  by_cases blank : p.rest.all isEmpty = true
  · have none_ : p.rest.dropWhile isEmpty = [] := List.dropWhile_eq_nil_iff.2 fun node mem => List.all_eq_true.1 blank node mem
    rw [if_pos blank,none_]
    rw [none_] at suffix
    rw [if_pos ((ended_iff _).2 (rest_after suffix))]
  · have some_ : p.rest.dropWhile isEmpty ≠ [] := fun none_ =>
      blank (List.all_eq_true.2 (List.dropWhile_eq_nil_iff.1 none_))
    rw [if_neg blank,if_neg (by rw [ended_iff,rest_after suffix]; exact some_),backtrack_after]

theorem sound_optional (ih : ∀ p, Sound con p ↔ con.Clean p.cur.children.head? p.rest) (p : Parser) :
    Sound (.optional con) p ↔ (Content.optional con).Clean p.cur.children.head? p.rest := by
  constructor
  · rintro ⟨-,sound⟩ inside
    exact (ih p).1 (sound (ended_false inside))
  · intro clean
    have sound : p.ended = false → Sound con p := fun inside => (ih p).2 (clean (rest_ne inside))
    refine ⟨?_,sound⟩
    have result : (Content.optional con).expected p = (true,p.after ((con.matching p.rest).getD p.rest)) := expected_some rfl
    rw [Meets,result]
    cases ended : p.ended with
    | true =>
      have nothing := (ended_iff p).1 ended
      have same : (con.matching p.rest).getD p.rest = p.rest := by
        cases found : con.matching p.rest with
        | none => rfl
        | some rest =>
          have suffix := matching_suffix found
          rw [nothing] at suffix ⊢
          exact List.suffix_nil.1 suffix
      exact ⟨0,by rw [parse,if_pos ended,same,after_self]⟩
    | false =>
      obtain ⟨k,ran⟩ := (sound ended).meets
      refine ⟨k,?_⟩
      rw [parse,if_neg (by simp [ended]),ran,Option.map_some]
      cases found : con.matching p.rest with
      | none => rw [expected_none found,Option.getD_none,after_self]
      | some rest => rw [expected_some found,Option.getD_some]

theorem sound_alt (ih1 : ∀ p, Sound con1 p ↔ con1.Clean p.cur.children.head? p.rest)
    (ih2 : ∀ p, Sound con2 p ↔ con2.Clean p.cur.children.head? p.rest) (p : Parser) :
    Sound (.alt con1 con2) p ↔ (Content.alt con1 con2).Clean p.cur.children.head? p.rest := by
  have stops : p.rest = [] → ∀ k, parse k (.alt con1 con2) p = some (false,p) := fun nothing k => by
    rw [parse,if_pos ((ended_iff p).2 nothing)]
  constructor
  · rintro ⟨meets,sound⟩
    refine ⟨fun nothing => ?_,fun inside => ?_⟩
    · have result := meets.eq_expected (stops nothing 0)
      cases found : (Content.alt con1 con2).matching p.rest with
      | some rest => rw [expected_some found] at result; cases result
      | none =>
        rw [nothing] at found
        exact Option.or_eq_none_iff.1 found
    · obtain ⟨first,second⟩ := sound (ended_false inside)
      refine ⟨(ih1 p).1 first,fun none_ => ?_⟩
      obtain ⟨k,ran⟩ := first.meets
      rw [expected_none none_] at ran
      exact (ih2 p).1 (second k p ran)
  · rintro ⟨over_,both⟩
    by_cases nothing : p.rest = []
    · refine ⟨⟨0,?_⟩,fun inside => absurd nothing (rest_ne inside)⟩
      obtain ⟨none1,none2⟩ := over_ nothing
      rw [stops nothing 0,expected_none]
      rw [nothing,Content.matching,none1,none2]
      rfl
    · obtain ⟨clean1,clean2⟩ := both nothing
      have first := (ih1 p).2 clean1
      refine ⟨?_,fun _ => ⟨first,fun k p' ran => ?_⟩⟩
      · obtain ⟨k1,ran1⟩ := first.meets
        cases found : con1.matching p.rest with
        | some rest =>
          rw [expected_some found] at ran1
          have whole : (Content.alt con1 con2).matching p.rest = some rest := by rw [Content.matching,found]; rfl
          refine ⟨k1,?_⟩
          rw [parse,if_neg (by simp [ended_false nothing]),ran1,expected_some whole]
          rfl
        | none =>
          rw [expected_none found] at ran1
          obtain ⟨k2,ran2⟩ := ((ih2 p).2 (clean2 found)).meets
          have whole : (Content.alt con1 con2).matching p.rest = con2.matching p.rest := by rw [Content.matching,found]; rfl
          refine ⟨max k1 k2,?_⟩
          rw [parse,if_neg (by simp [ended_false nothing]),parse_mono (le_max_left k1 k2) ran1,Content.expected,whole]
          exact parse_mono (le_max_right k1 k2) ran2
      · have result := first.meets.eq_expected ran
        cases found : con1.matching p.rest with
        | some rest => rw [expected_some found] at result; cases result
        | none =>
          rw [expected_none found] at result
          obtain rfl := (Prod.ext_iff.1 result).2
          exact (ih2 _).2 (clean2 found)

/-! ### Sequences -/

theorem parse_seq_stops (nothing : skip crop p.rest = []) (k : Nat) : parse k (.seq con1 con2 crop) p = some (false,p) := by
  rw [parse]
  dsimp only
  split
  · rfl
  · rename_i inside
    have cropping : crop = true := by
      cases crop with
      | true => rfl
      | false => exact absurd ((ended_iff p).2 nothing) inside
    rw [if_pos ((crop_stops p crop).2 ⟨cropping,nothing⟩),cropIf_eq]
    rfl

theorem parse_seq_goes (goes : skip crop p.rest ≠ []) (k : Nat) :
    parse k (.seq con1 con2 crop) p = (parse k con1 (p.cropIf crop)).bind fun (success,q) =>
      if !success then some (false,q.backtrack p.cur.i)
      else if crop && (q.cropIf crop).ended then some (false,(q.cropIf crop).backtrack p.cur.i)
      else (parse k con2 (q.cropIf crop)).bind fun (success,q) =>
        if !success then some (false,q.backtrack p.cur.i) else some (true,q.cropIf crop) := by
  have inside : ¬p.ended = true := fun ended => by
    rw [(ended_iff p).1 ended] at goes
    exact goes (by cases crop <;> rfl)
  rw [parse]
  dsimp only
  rw [if_neg inside,if_neg fun stops => goes ((crop_stops p crop).1 stops).2]

theorem cropIf_after {rest1 : List Node} (suffix : rest1 <:+ p.rest) : (p.after rest1).cropIf crop = p.after (skip crop rest1) := by
  rw [cropIf_eq,rest_after suffix,after_after suffix (skip_suffix _ _)]

section
variable {rest1 : List Node}

theorem matching_seq (found : con1.matching (skip crop p.rest) = some rest1) :
    (Content.seq con1 con2 crop).matching p.rest = (con2.matching (skip crop rest1)).map (skip crop) := by
  rw [Content.matching,found]
  rfl

theorem matching_seq_none (none_ : con1.matching (skip crop p.rest) = none) : (Content.seq con1 con2 crop).matching p.rest = none := by
  rw [Content.matching,none_]
  rfl

theorem first_expected (found : con1.matching (skip crop p.rest) = some rest1) : con1.expected (p.cropIf crop) = (true,p.after rest1) := by
  have suffix := matching_suffix found
  rw [← rest_cropIf] at found
  rw [expected_some found,cropIf_eq,after_after (skip_suffix _ _) suffix]

theorem first_expected_none (none_ : con1.matching (skip crop p.rest) = none) : con1.expected (p.cropIf crop) = (false,p.cropIf crop) := by
  rw [← rest_cropIf] at none_
  exact expected_none none_

theorem parse_seq_second_stops (goes : skip crop p.rest ≠ []) (found : con1.matching (skip crop p.rest) = some rest1)
    (ran : parse k con1 (p.cropIf crop) = some (con1.expected (p.cropIf crop))) (stops : crop = true ∧ skip crop rest1 = []) :
    parse k (.seq con1 con2 crop) p = some (false,p) := by
  have suffix : rest1 <:+ p.rest := (matching_suffix found).trans (skip_suffix _ _)
  rw [parse_seq_goes goes,ran,first_expected found,Option.bind_some]
  dsimp only
  rw [if_neg (by simp),if_pos ((crop_stops _ crop).2 ⟨stops.1,by rw [rest_after suffix]; exact stops.2⟩),cropIf_after suffix]
  rfl

theorem parse_seq_second_goes (goes : skip crop p.rest ≠ []) (found : con1.matching (skip crop p.rest) = some rest1)
    (ran : parse k con1 (p.cropIf crop) = some (con1.expected (p.cropIf crop))) (goes' : ¬(crop = true ∧ skip crop rest1 = [])) :
    parse k (.seq con1 con2 crop) p = (parse k con2 (p.after (skip crop rest1))).bind fun (success,q) =>
      if !success then some (false,q.backtrack p.cur.i) else some (true,q.cropIf crop) := by
  have suffix : rest1 <:+ p.rest := (matching_suffix found).trans (skip_suffix _ _)
  rw [parse_seq_goes goes,ran,first_expected found,Option.bind_some]
  dsimp only
  rw [if_neg (by simp),if_neg fun stops => goes' ?_,cropIf_after suffix]
  have both := (crop_stops _ crop).1 stops
  rwa [rest_after suffix] at both

end

theorem sound_seq (ih1 : ∀ p, Sound con1 p ↔ con1.Clean p.cur.children.head? p.rest)
    (ih2 : ∀ p, Sound con2 p ↔ con2.Clean p.cur.children.head? p.rest) (p : Parser) :
    Sound (.seq con1 con2 crop) p ↔ (Content.seq con1 con2 crop).Clean p.cur.children.head? p.rest := by
  have ihFirst : Sound con1 (p.cropIf crop) ↔ con1.Clean p.cur.children.head? (skip crop p.rest) := by
    rw [ih1,cropIf_children,rest_cropIf]
  have ihSecond : ∀ {rest1}, con1.matching (skip crop p.rest) = some rest1 →
      (Sound con2 (p.after (skip crop rest1)) ↔ con2.Clean p.cur.children.head? (skip crop rest1)) := fun {rest1} found => by
    rw [ih2,after_children,rest_after ((skip_suffix _ _).trans ((matching_suffix found).trans (skip_suffix _ _)))]
  have calls : p.ended = false ∧ (crop && (p.cropIf crop).ended) = false ↔ skip crop p.rest ≠ [] := by
    rw [Bool.eq_false_iff,Bool.eq_false_iff,ne_eq,ne_eq,ended_iff,crop_stops]
    cases crop with
    | false => simp [skip]
    | true =>
      refine ⟨fun both none_ => both.2 ⟨rfl,none_⟩,fun some_ => ⟨fun none_ => some_ ?_,fun stops => some_ stops.2⟩⟩
      rw [none_]
      rfl
  constructor
  · rintro ⟨meets,sound⟩
    refine ⟨fun nothing rest1 found => ?_,fun goes => ?_⟩
    · have result := meets.eq_expected (parse_seq_stops nothing 0)
      have found' := found
      rw [← nothing] at found'
      cases whole : (Content.seq con1 con2 crop).matching p.rest with
      | some rest => rw [expected_some whole] at result; cases result
      | none =>
        rw [matching_seq found',Option.map_eq_none_iff] at whole
        obtain rfl := List.suffix_nil.1 (matching_suffix found)
        rwa [show skip crop ([] : List Node) = [] by cases crop <;> rfl] at whole
    · obtain ⟨inside,stays⟩ := calls.2 goes
      obtain ⟨first,second⟩ := sound inside stays
      obtain ⟨k,ran⟩ := first.meets
      refine ⟨ihFirst.1 first,fun rest1 found => ⟨fun stops => ?_,fun goes' => ?_⟩⟩
      · have result := meets.eq_expected (parse_seq_second_stops goes found ran stops)
        cases whole : (Content.seq con1 con2 crop).matching p.rest with
        | some rest => rw [expected_some whole] at result; cases result
        | none => rwa [matching_seq found,Option.map_eq_none_iff,stops.2] at whole
      · have suffix : rest1 <:+ p.rest := (matching_suffix found).trans (skip_suffix _ _)
        rw [first_expected found] at ran
        refine (ihSecond found).1 ?_
        rw [← cropIf_after suffix]
        refine second k _ ran (Bool.eq_false_iff.2 fun stops => goes' ?_)
        have both := (crop_stops _ crop).1 stops
        rwa [rest_after suffix] at both
  · rintro ⟨stops,clean⟩
    by_cases nothing : skip crop p.rest = []
    · refine ⟨⟨0,?_⟩,fun inside stays => absurd nothing (calls.1 ⟨inside,stays⟩)⟩
      rw [parse_seq_stops nothing,expected_none]
      cases found : con1.matching (skip crop p.rest) with
      | none => exact matching_seq_none found
      | some rest1 =>
        have found' := found
        rw [nothing] at found'
        rw [matching_seq found,Option.map_eq_none_iff]
        obtain rfl := List.suffix_nil.1 (matching_suffix found')
        rw [show skip crop ([] : List Node) = [] by cases crop <;> rfl]
        exact stops nothing [] found'
    · obtain ⟨clean1,clean2⟩ := clean nothing
      have first := ihFirst.2 clean1
      obtain ⟨k1,ran1⟩ := first.meets
      refine ⟨?_,fun _ _ => ⟨first,fun k p' ran goes' => ?_⟩⟩
      · cases found : con1.matching (skip crop p.rest) with
        | none =>
          refine ⟨k1,?_⟩
          rw [parse_seq_goes nothing,ran1,first_expected_none found,expected_none (matching_seq_none found),cropIf_eq]
          rfl
        | some rest1 =>
          by_cases stops' : crop = true ∧ skip crop rest1 = []
          · refine ⟨k1,?_⟩
            rw [parse_seq_second_stops nothing found ran1 stops',expected_none]
            rw [matching_seq found,stops'.2,(clean2 rest1 found).1 stops']
            rfl
          · obtain ⟨k2,ran2⟩ := ((ihSecond found).2 ((clean2 rest1 found).2 stops')).meets
            have suffix : skip crop rest1 <:+ p.rest := (skip_suffix _ _).trans ((matching_suffix found).trans (skip_suffix _ _))
            refine ⟨max k1 k2,?_⟩
            rw [parse_seq_second_goes nothing found (parse_mono (le_max_left k1 k2) ran1) stops',
              parse_mono (le_max_right k1 k2) ran2,Option.bind_some]
            have there := rest_after suffix
            cases found2 : con2.matching (skip crop rest1) with
            | none =>
              rw [expected_none (by rw [there]; exact found2),expected_none (by rw [matching_seq found,found2]; rfl)]
              rfl
            | some rest2 =>
              have suffix2 := matching_suffix found2
              rw [expected_some (by rw [there]; exact found2),expected_some (by rw [matching_seq found,found2]; rfl),
                after_after suffix suffix2]
              exact congrArg some (congrArg (Prod.mk true) (cropIf_after (suffix2.trans suffix)))
      · have result := first.meets.eq_expected ran
        cases found : con1.matching (skip crop p.rest) with
        | none => rw [first_expected_none found] at result; cases result
        | some rest1 =>
          rw [first_expected found] at result
          obtain rfl := (Prod.ext_iff.1 result).2
          have suffix : rest1 <:+ p.rest := (matching_suffix found).trans (skip_suffix _ _)
          rw [Bool.eq_false_iff,ne_eq,crop_stops,rest_after suffix] at goes'
          rw [cropIf_after suffix]
          exact (ihSecond found).2 ((clean2 rest1 found).2 goes')

theorem after_inj {rest1 rest2 : List Node} (suffix1 : rest1 <:+ p.rest) (suffix2 : rest2 <:+ p.rest) (same : p.after rest1 = p.after rest2) :
    rest1 = rest2 := by
  rw [← rest_after suffix1,same,rest_after suffix2]

/-- A repetition whose content fails turns for ever. -/
theorem repeatLoop_none {body : Parser → Option (Bool × Parser)} (still : p.cropIf crop = p) (goes : ¬(crop = true ∧ skip crop p.rest = []))
    (fails : ∀ r, body p = some r → r = (false,p)) (k : Nat) : repeatLoop crop body k p = none := by
  induction k with
  | zero => rfl
  | succ k ih =>
    rw [repeatLoop]
    dsimp only
    rw [if_neg fun stops => goes ((crop_stops p crop).1 stops),still]
    cases called : body p with
    | none => rfl
    | some r =>
      rw [fails r called]
      exact ih

theorem many_nil {con : List Node → Option (List Node)} {rest : List Node} (nothing : skip crop rest = []) (n : Nat) : many crop con n rest = [] := by
  cases n with
  | zero => exact nothing
  | succ n =>
    rw [many,nothing]
    cases con [] <;> rfl

theorem sound_repetition (ih : ∀ p, Sound con p ↔ con.Clean p.cur.children.head? p.rest) (p : Parser) :
    Sound (.repetition con crop) p ↔ (Content.repetition con crop).Clean p.cur.children.head? p.rest := by
  have ihFirst : Sound con (p.cropIf crop) ↔ con.Clean p.cur.children.head? (skip crop p.rest) := by
    rw [ih,cropIf_children,rest_cropIf]
  have result : (Content.repetition con crop).expected p = (true,p.after (many crop con.matching p.rest.length p.rest)) := expected_some rfl
  constructor
  · rintro ⟨⟨k,ran⟩,sound⟩
    by_cases stops : crop = true ∧ skip crop p.rest = []
    · exact .inl stops
    · have first := sound _ (.first (Bool.eq_false_iff.2 fun stops' => stops ((crop_stops p crop).1 stops')))
      refine .inr ⟨ihFirst.1 first,?_⟩
      rw [parse] at ran
      obtain ⟨q,loop,same⟩ := Option.map_eq_some_iff.1 ran
      cases k with
      | zero => cases loop
      | succ k =>
        rw [repeatLoop] at loop
        dsimp only at loop
        rw [if_neg fun stops' => stops ((crop_stops p crop).1 stops')] at loop
        obtain ⟨⟨success,q'⟩,called,loop⟩ := Option.bind_eq_some_iff.1 loop
        have expected := first.meets.eq_expected called
        cases found : con.matching (skip crop p.rest) with
        | none =>
          rw [first_expected_none found] at expected
          obtain ⟨rfl,rfl⟩ := Prod.ext_iff.1 expected
          have still : (p.cropIf crop).cropIf crop = p.cropIf crop := by
            rw [cropIf_eq (p.cropIf crop),rest_cropIf,skip_skip,← rest_cropIf,after_self]
          have goes : ¬(crop = true ∧ skip crop (p.cropIf crop).rest = []) := by rwa [rest_cropIf,skip_skip]
          rw [if_neg (by simp),repeatLoop_none still goes fun r again =>
            (first.meets.eq_expected again).trans (first_expected_none found)] at loop
          cases loop
        | some rest1 =>
          rw [first_expected found] at expected
          obtain ⟨rfl,rfl⟩ := Prod.ext_iff.1 expected
          rw [if_pos rfl] at loop
          obtain rfl := Option.some.inj loop
          rw [result] at same
          have here : rest1 <:+ p.rest := (matching_suffix found).trans (skip_suffix _ _)
          refine ⟨rest1,rfl,(after_inj here (many_suffix (fun _ _ => matching_suffix) _ _) (Prod.ext_iff.1 same).2).symm⟩
  · rintro (⟨cropping,nothing⟩ | ⟨clean,rest1,found,once⟩)
    · have stops := (crop_stops p crop).2 ⟨cropping,nothing⟩
      refine ⟨⟨1,?_⟩,fun p' called => ?_⟩
      · rw [result,many_nil nothing,parse,repeatLoop]
        dsimp only
        rw [if_pos stops,Option.map_some,cropIf_eq,nothing]
      · have never : ∀ p', Called con crop p p' → False := fun p' called => by
          induction called with
          | first goes => exact absurd stops (by simp [goes])
          | again _ _ _ ih => exact ih
        exact (never p' called).elim
    · have first := ihFirst.2 clean
      refine ⟨?_,fun p' called => ?_⟩
      · by_cases stops : (crop && (p.cropIf crop).ended) = true
        · obtain ⟨-,nothing⟩ := (crop_stops p crop).1 stops
          refine ⟨1,?_⟩
          rw [result,many_nil nothing,parse,repeatLoop]
          dsimp only
          rw [if_pos stops,Option.map_some,cropIf_eq,nothing]
        · obtain ⟨k,ran⟩ := first.meets
          refine ⟨k + 1,?_⟩
          rw [first_expected found] at ran
          rw [result,once,parse,repeatLoop]
          dsimp only
          rw [if_neg stops,parse_mono (Nat.le_succ k) ran]
          rfl
      · have only : p' = p.cropIf crop := by
          induction called with
          | first => rfl
          | again _ ran _ ih =>
            rw [ih] at ran
            have expected := first.meets.eq_expected ran
            rw [first_expected found] at expected
            cases expected
        rw [only]
        exact first

/-- The calls of a parse all end with what is expected exactly on the trees that are clean for the model. -/
theorem sound_iff (con : Content) (p : Parser) : Sound con p ↔ con.Clean p.cur.children.head? p.rest := by
  induction con generalizing p with
  | empty => exact iff_of_true (meets_empty p) trivial
  | element name attrs content ih => exact sound_element ih p
  | optional con ih => exact sound_optional ih p
  | alt con1 con2 ih1 ih2 => exact sound_alt ih1 ih2 p
  | seq con1 con2 crop ih1 ih2 => exact sound_seq ih1 ih2 p
  | repetition con crop ih => exact sound_repetition ih p

end

/-- An element that is not the first child, an attribute that is missing, a repetition of what does not match,
    and an optional content after the last child. -/
theorem parse_wrong :
    ¬Meets (.seq (.element "a" [] .empty) (.element "b" [] (.element "c" [] .empty)) false)
      ⟨⟨0,[],[.element "a" [] [],.element "b" [] [.element "c" [] []]]⟩,[]⟩ ∧
    ¬Meets (.element "a" [⟨"id",true,fun _ => true⟩] .empty) ⟨⟨0,[],[.element "a" [] []]⟩,[]⟩ ∧
    ¬Meets (.repetition (.element "a" [] .empty) true) ⟨⟨0,[],[.element "b" [] []]⟩,[]⟩ ∧
    ¬Meets (.seq (.element "a" [] .empty) (.optional (.element "b" [] .empty)) true) ⟨⟨0,[],[.element "a" [] []]⟩,[]⟩ := by
  refine ⟨fun meets => ?_,fun meets => ?_,fun ⟨k,ran⟩ => ?_,fun meets => ?_⟩
  · have result := congrArg Prod.fst (meets.eq_expected (k := 0) rfl)
    cases result
  · have result := congrArg (fun r => r.2.stack.length) (meets.eq_expected (k := 0) rfl)
    cases result
  · rw [parse,repeatLoop_none rfl (by decide) fun r called => ?_] at ran
    · cases ran
    · exact (Option.some.inj called).symm
  · have result := congrArg Prod.fst (meets.eq_expected (k := 0) rfl)
    cases result

end Otawa.Dtd
