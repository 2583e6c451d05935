import Mathlib

/-!
The fusion of the OR nodes of an instruction description whose sons have no parameter (`optirg`): the sons
become the cases of switches on the parameter `code` of one AND node, numbered by their images on 32 bits.
With the code of a son, the fused node gives what that son has when the son is the first one with its
number, has the same kinds of attributes as the first son, an image of bits only and no name that the
fused node binds (`gives_iff`).
-/
namespace Otawa.Optirg

/-! ### Descriptions -/

inductive TypeExpr
  | noType
  | bool
  | int (size : Nat)
  | card (size : Nat)
  | fix (int frac : Nat)
  | float (mantissa exponent : Nat)
  | range (low high : Int)
  | string
  | enum (names : List String)
  | unknowType

/-- The use of a type. -/
inductive Typ
  | id (name : String)
  | expr (type : TypeExpr)

inductive Unop
  | not | binNot | neg

inductive Binop
  | add | sub | mul | div | mod | exp | lshift | rshift | lrotate | rrotate
  | lt | gt | le | ge | eq | ne | and | or | binAnd | binOr | binXor | concat

inductive Const
  | null
  | card (value : BitVec 32)
  | card64 (value : BitVec 64)
  | string (text : String) (canonical : Bool) (type : TypeExpr)
  | fixed (value : BitVec 64)

inductive Expr
  | none
  | coerce (type : TypeExpr) (e : Expr)
  | format (text : String) (args : List Expr)
  | canon (type : TypeExpr) (name : String) (args : List Expr)
  | ref (name : String)
  | fieldof (type : TypeExpr) (name attr : String)
  | itemof (type : TypeExpr) (name : String) (idx : Expr)
  | bitfield (type : TypeExpr) (e low up : Expr)
  | unop (type : TypeExpr) (op : Unop) (e : Expr)
  | binop (type : TypeExpr) (op : Binop) (e1 e2 : Expr)
  | ifExpr (type : TypeExpr) (cond eThen eElse : Expr)
  | switchExpr (type : TypeExpr) (cond : Expr) (cases : List (Expr × Expr)) (default : Expr)
  | const (type : TypeExpr) (c : Const)
  | eline (file : String) (line : Nat) (e : Expr)
  | einline (text : String)
  | cast (type : TypeExpr) (e : Expr)

inductive Location
  | none
  | ref (type : TypeExpr) (name : String) (idx low up : Expr)
  | concat (type : TypeExpr) (loc1 loc2 : Location)

inductive Stat
  | nop
  | seq (s1 s2 : Stat)
  | eval (attr : String)
  | evalind (name attr : String)
  | set (loc : Location) (e : Expr)
  | canon (name : String) (args : List Expr)
  | error (text : String)
  | ifStat (cond : Expr) (sThen sElse : Stat)
  | switchStat (cond : Expr) (cases : List (Expr × Stat)) (default : Stat)
  | setspe (loc : Location) (e : Expr)
  | line (file : String) (line : Nat) (s : Stat)
  | inline (text : String)

inductive Attr
  | expr (name : String) (e : Expr)
  | stat (name : String) (s : Stat)
  | uses
  | loc (name : String) (l : Location)

/-- The specifications; the nodes are the modes and the operations. -/
inductive Spec
  | undef
  | andMode (name : String) (params : List (String × Typ)) (value : Expr) (attrs : List Attr)
  | orMode (name : String) (sons : List String)
  | andOp (name : String) (params : List (String × Typ)) (attrs : List Attr)
  | orOp (name : String) (sons : List String)
  | other (name : String)

/-- The table of symbols, as `get_symbol` reads it. -/
abbrev Syms := String → Spec

/-- `rm_symbol` and then `add_symbol`. -/
def replaceSymbol (syms : Syms) (name : String) (spec : Spec) : Syms :=
  fun key => if key = name then spec else syms key

namespace Spec

/-- The attributes of an AND node. -/
def attrs : Spec → List Attr
  | .andMode _ _ _ attrs => attrs
  | .andOp _ _ attrs => attrs
  | _ => []

def value : Spec → Option Expr
  | .andMode _ _ value _ => some value
  | _ => none

def isAnd : Spec → Bool
  | .andMode .. | .andOp .. => true
  | _ => false

/-- The sons of an OR node. -/
def sons : Spec → List String
  | .orMode _ sons | .orOp _ sons => sons
  | _ => []

/-- The parameters of an AND node. -/
def params : Spec → List (String × Typ)
  | .andMode _ params _ _ | .andOp _ params _ => params
  | _ => []

end Spec

def exprOf (name : String) : List Attr → Option Expr
  | [] => none
  | .expr nm e :: t => if nm = name then some e else exprOf name t
  | _ :: t => exprOf name t

def statOf (name : String) : List Attr → Option Stat
  | [] => none
  | .stat nm s :: t => if nm = name then some s else statOf name t
  | _ :: t => statOf name t

/-- `get_expr_from_attr_from_op_or_mode`. -/
def getExprFromAttr (name : String) (spec : Spec) : Option Expr :=
  if spec.isAnd then some ((exprOf name spec.attrs).getD .none) else none

/-- `get_stat_from_attr_from_spec`. -/
def getStatFromAttr (name : String) (spec : Spec) : Option Stat :=
  if spec.isAnd then some ((statOf name spec.attrs).getD .nop) else none

/-- The states of the lexer of formats after a percent sign. -/
inductive Scan
  | plain
  | percent
  | zero
  | num (n : Nat)

/-- `formatSize`: the size of the bits and fields, and the indices of the `%s`. -/
def formatSize : Scan → Nat → Nat → List Nat → List Char → Option (Nat × List Nat)
  | .plain, size, _, l, [] => some (size,l)
  | _, _, _, _, [] => none
  | .plain, size, i, l, c :: cs =>
      if c = '0' ∨ c = '1' then formatSize .plain (size + 1) i l cs
      else if c = '%' then formatSize .percent size i l cs
      else none
  | .percent, size, i, l, c :: cs =>
      if c = 's' then formatSize .plain size (i + 1) (i :: l) cs
      else if c = '0' then formatSize .zero size i l cs
      else if c.isDigit then formatSize (.num (c.toNat - '0'.toNat)) size i l cs
      else none
  | .zero, size, i, l, c :: cs =>
      if c = 'b' ∨ c = 'B' then formatSize .plain size (i + 1) l cs else none
  | .num n, size, i, l, c :: cs =>
      if c = 'b' ∨ c = 'B' then formatSize .plain (n + size) (i + 1) l cs
      else if c.isDigit then formatSize (.num (10 * n + (c.toNat - '0'.toNat))) size i l cs
      else none

mutual
/-- `sizeOfExpr` in a node without parameters, where no name has a size. -/
def sizeOfExpr : Expr → Option Nat
  | .eline _ _ e => sizeOfExpr e
  | .format text args => do
      let (size,ops) ← formatSize .plain 0 0 [] text.toList
      let sizes ← ops.mapM fun op => ((sizesOfExprs args)[op]?).join
      some (size + sizes.sum)
  | .ifExpr _ _ eThen eElse => do
      let sizeThen ← sizeOfExpr eThen
      let sizeElse ← sizeOfExpr eElse
      if sizeThen = sizeElse then some sizeThen else none
  | .switchExpr _ _ cases _ => match sizesOfCases cases with
      | some size :: sizes => if sizes.all (· == some size) then some size else none
      | _ => none
  | .const _ (.string text false _) => some text.length
  | _ => none
/-- The sizes of the arguments of a format. -/
def sizesOfExprs : List Expr → List (Option Nat)
  | [] => []
  | e :: es => sizeOfExpr e :: sizesOfExprs es
def sizesOfCases : List (Expr × Expr) → List (Option Nat)
  | [] => []
  | (_,e) :: cases => sizeOfExpr e :: sizesOfCases cases
end

/-- `sizeOfSpec` of an AND node without parameters. -/
def sizeOfAndNode : Spec → Option Nat
  | .andMode _ [] _ attrs => exprOf "image" attrs >>= sizeOfExpr
  | .andOp _ [] attrs => exprOf "image" attrs >>= sizeOfExpr
  | _ => none

/-- `sizeOfSpec`: the sons of an OR node must have one size. -/
def sizeOfSpec (syms : Syms) : Spec → Option Nat
  | .orMode _ sons | .orOp _ sons => do
      match ← sons.mapM (fun son => sizeOfAndNode (syms son)) with
      | [] => none
      | size :: sizes => if sizes.all (· == size) then some size else none
  | spec => sizeOfAndNode spec

def digit (c : Char) : Option Nat :=
  if c = '0' then some 0 else if c = '1' then some 1 else none

/-- The digits of `int_of_string` after the first one, on words of 63 bits. -/
def intOfDigits : List Char → Nat → Option Nat
  | [], acc => if acc < 2 ^ 63 then some acc else none
  | c :: cs, acc => if c = '_' then intOfDigits cs acc else do
      let d ← digit c
      intOfDigits cs (2 * acc + d)

/-- `int_of_string` of `0b` and an image. -/
def intOfImage : List Char → Option Nat
  | [] => none
  | c :: cs => do
      let d ← digit c
      intOfDigits cs d

def intOfExpr : Expr → Option Nat
  | .const .string (.string image false _) => intOfImage image.toList
  | .eline _ _ e => intOfExpr e
  | _ => none

/-- `case_code_from_spec`: the number of the constant image of a son. -/
def caseCodeFromSpec (son : Spec) : Option Nat :=
  if son.isAnd then exprOf "image" son.attrs >>= intOfExpr else none

def caseFrom {α : Type} (size : Nat) (taken : Spec → Option α) (son : Spec) : Option (Expr × α) := do
  let code ← caseCodeFromSpec son
  let a ← taken son
  some (.const (.card size) (.card (BitVec.ofNat 32 code)),a)

def caseFromAttrExpr (size : Nat) (name : String) : Spec → Option (Expr × Expr) :=
  caseFrom size (getExprFromAttr name)

def caseFromAttrStat (size : Nat) (name : String) : Spec → Option (Expr × Stat) :=
  caseFrom size (getStatFromAttr name)

def caseFromValueExpr (size : Nat) : Spec → Option (Expr × Expr) :=
  caseFrom size Spec.value

def typeOfExpr : Expr → TypeExpr
  | .none | .einline _ => .noType
  | .format .. => .string
  | .ref _ => .unknowType
  | .eline _ _ e => typeOfExpr e
  | .coerce type _ | .canon type _ _ | .fieldof type _ _ | .itemof type _ _ | .bitfield type _ _ _
  | .unop type _ _ | .binop type _ _ _ | .ifExpr type _ _ _ | .switchExpr type _ _ _ | .const type _
  | .cast type _ => type

def imageFormat (size : Nat) : String := "%" ++ toString size ++ "b"

/-- The attribute of the fused node for one of the first son. -/
def fusedAttr (andList : List Spec) (size : Nat) : Attr → Option Attr
  | .expr name e =>
      if name = "image" then some (.expr name (.format (imageFormat size) [.ref "code"])) else do
        let cases ← andList.mapM (caseFromAttrExpr size name)
        some (.expr name (.switchExpr (typeOfExpr e) (.ref "code") cases .none))
  | .stat name _ => do
      let cases ← andList.mapM (caseFromAttrStat size name)
      some (.stat name (.switchStat (.ref "code") cases .nop))
  | .uses => none
  | .loc _ _ => none

def attrListFromAndNode (andList : List Spec) (size : Nat) : Option (List Attr) := do
  let first ← andList.head?
  if first.isAnd then first.attrs.mapM (fusedAttr andList size) else none

def fusion (syms : Syms) (orNode : Spec) (andList : List Spec) : Option Spec := do
  let size ← sizeOfSpec syms orNode
  let attrs ← attrListFromAndNode andList size
  let newAttrList := .expr "__val" (.ref "code") :: attrs
  match orNode with
  | .orMode name _ => do
      let cases ← andList.mapM (caseFromValueExpr size)
      some (.andMode name [("code",.expr (.card size))] (.switchExpr .string (.ref "code") cases .none)
        newAttrList)
  | .orOp name _ => some (.andOp name [("code",.expr (.card size))] newAttrList)
  | _ => none

/-! ### Reading the fused node at a code -/

mutual
/-- An expression without its lines; the third field of a string that is not canonical is not used. -/
def Expr.strip : Expr → Expr
  | .coerce type e => .coerce type e.strip
  | .format text args => .format text (stripExprs args)
  | .canon type name args => .canon type name (stripExprs args)
  | .itemof type name idx => .itemof type name idx.strip
  | .bitfield type e low up => .bitfield type e.strip low.strip up.strip
  | .unop type op e => .unop type op e.strip
  | .binop type op e1 e2 => .binop type op e1.strip e2.strip
  | .ifExpr type cond eThen eElse => .ifExpr type cond.strip eThen.strip eElse.strip
  | .switchExpr type cond cases default =>
      .switchExpr type cond.strip (stripCases cases) default.strip
  | .const type (.string text false _) => .const type (.string text false .noType)
  | .eline _ _ e => e.strip
  | .cast type e => .cast type e.strip
  | e => e
def stripExprs : List Expr → List Expr
  | [] => []
  | e :: es => e.strip :: stripExprs es
def stripCases : List (Expr × Expr) → List (Expr × Expr)
  | [] => []
  | (c,e) :: cases => (c.strip,e.strip) :: stripCases cases
end

def Location.strip : Location → Location
  | .none => .none
  | .ref type name idx low up => .ref type name idx.strip low.strip up.strip
  | .concat type loc1 loc2 => .concat type loc1.strip loc2.strip

mutual
def Stat.strip : Stat → Stat
  | .seq s1 s2 => .seq s1.strip s2.strip
  | .set loc e => .set loc.strip e.strip
  | .canon name args => .canon name (stripExprs args)
  | .ifStat cond sThen sElse => .ifStat cond.strip sThen.strip sElse.strip
  | .switchStat cond cases default => .switchStat cond.strip (stripStatCases cases) default.strip
  | .setspe loc e => .setspe loc.strip e.strip
  | .line _ _ s => s.strip
  | s => s
def stripStatCases : List (Expr × Stat) → List (Expr × Stat)
  | [] => []
  | (c,s) :: cases => (c.strip,s.strip) :: stripStatCases cases
end

mutual
def Expr.names : Expr → List String
  | .ref name | .fieldof _ name _ => [name]
  | .coerce _ e | .unop _ _ e | .eline _ _ e | .cast _ e => e.names
  | .format _ args | .canon _ _ args => namesOfExprs args
  | .itemof _ name idx => name :: idx.names
  | .bitfield _ e low up => e.names ++ low.names ++ up.names
  | .binop _ _ e1 e2 => e1.names ++ e2.names
  | .ifExpr _ cond eThen eElse => cond.names ++ eThen.names ++ eElse.names
  | .switchExpr _ cond cases default => cond.names ++ namesOfCases cases ++ default.names
  | .none | .const _ _ | .einline _ => []
def namesOfExprs : List Expr → List String
  | [] => []
  | e :: es => e.names ++ namesOfExprs es
def namesOfCases : List (Expr × Expr) → List String
  | [] => []
  | (c,e) :: cases => c.names ++ e.names ++ namesOfCases cases
end

def Location.names : Location → List String
  | .none => []
  | .ref _ name idx low up => name :: idx.names ++ low.names ++ up.names
  | .concat _ loc1 loc2 => loc1.names ++ loc2.names

mutual
def Stat.names : Stat → List String
  | .seq s1 s2 => s1.names ++ s2.names
  | .evalind name _ => [name]
  | .set loc e | .setspe loc e => loc.names ++ e.names
  | .canon _ args => namesOfExprs args
  | .ifStat cond sThen sElse => cond.names ++ sThen.names ++ sElse.names
  | .switchStat cond cases default => cond.names ++ namesOfStatCases cases ++ default.names
  | .line _ _ s => s.names
  | .nop | .eval _ | .error _ | .inline _ => []
def namesOfStatCases : List (Expr × Stat) → List String
  | [] => []
  | (c,s) :: cases => c.names ++ s.names ++ namesOfStatCases cases
end

/-- None of the names is one that the fused node binds. -/
def Free (names : List String) : Prop := "code" ∉ names ∧ "__val" ∉ names

/-- An expression of the fused node means, there, what one of a son means in the son. -/
def SameExpr (given e : Expr) : Prop := given.strip = e.strip ∧ Free e.names

def SameStat (given s : Stat) : Prop := given.strip = s.strip ∧ Free s.names

def label : Expr → Option Nat
  | .const _ (.card c) => some c.toNat
  | _ => none

def pick {α : Type} (code : Nat) : List (Expr × α) → Option α
  | [] => none
  | (c,a) :: cases => if label c = some code then some a else pick code cases

def bits : Nat → Nat → List Char
  | 0, _ => []
  | size + 1, n => bits size (n / 2) ++ [if n % 2 = 1 then '1' else '0']

def codeConst (size code : Nat) : Expr :=
  .const (.card size) (if code < 2 ^ 32 then .card (BitVec.ofNat 32 code) else .card64 (BitVec.ofNat 64 code))

/-- What an expression of the fused node is when its parameter is the code; no default is no expression. -/
def exprAt (size code : Nat) : Expr → Option Expr
  | .switchExpr _ (.ref "code") cases .none => pick code cases
  | .format text [.ref "code"] =>
      if text = imageFormat size then
        some (.const .string (.string (String.ofList (bits size code)) false .noType))
      else none
  | .ref "code" => some (codeConst size code)
  | _ => none

@[simp] theorem exprAt_switch (size code : Nat) (type : TypeExpr) (cases : List (Expr × Expr)) :
    exprAt size code (.switchExpr type (.ref "code") cases .none) = pick code cases := rfl

@[simp] theorem exprAt_format (size code : Nat) : exprAt size code (.format (imageFormat size) [.ref "code"]) =
    some (.const .string (.string (String.ofList (bits size code)) false .noType)) := if_pos rfl

/-- What a statement of the fused node is when its parameter is the code. -/
def statAt (code : Nat) : Stat → Option Stat
  | .switchStat (.ref "code") cases default => some ((pick code cases).getD default)
  | _ => none

structure Gives (size : Nat) (fused son : Spec) (code : Nat) : Prop where
  value : ∀ e, son.value = some e →
    ∃ e' given, fused.value = some e' ∧ exprAt size code e' = some given ∧ SameExpr given e
  expr : ∀ name e, exprOf name son.attrs = some e →
    ∃ e' given, exprOf name fused.attrs = some e' ∧ exprAt size code e' = some given ∧ SameExpr given e
  stat : ∀ name s, statOf name son.attrs = some s →
    ∃ s' given, statOf name fused.attrs = some s' ∧ statAt code s' = some given ∧ SameStat given s
  loc : ∀ name l, .loc name l ∈ son.attrs → .loc name l ∈ fused.attrs
  uses : .uses ∈ son.attrs → .uses ∈ fused.attrs

def firstOf (andList : List Spec) (code : Nat) : Option Spec :=
  andList.find? fun son => (caseCodeFromSpec son).any fun c => c % 2 ^ 32 == code

/-- The conditions under which a son, of a code, is found again in the fused node. -/
structure Kept (size : Nat) (orNode : Spec) (andList : List Spec) (son : Spec) (code : Nat) : Prop where
  /-- The first son of this code has this value, and the OR node is a mode. -/
  value : ∀ e, son.value = some e → (∃ name sons, orNode = .orMode name sons) ∧
    ∃ first e', firstOf andList code = some first ∧ first.value = some e' ∧ SameExpr e' e
  image : ∀ e text, exprOf "image" son.attrs = some e → e.strip = .const .string (.string text false .noType) →
    '_' ∉ text.toList
  /-- The name is the one that the fused node adds. -/
  val : ∀ e, exprOf "__val" son.attrs = some e → SameExpr (codeConst size code) e
  expr : ∀ name e, name ≠ "image" → name ≠ "__val" → exprOf name son.attrs = some e →
    (∀ head ∈ andList.head?, (exprOf name head.attrs).isSome) ∧
    ∃ first e', firstOf andList code = some first ∧ getExprFromAttr name first = some e' ∧ SameExpr e' e
  stat : ∀ name s, statOf name son.attrs = some s →
    (∀ head ∈ andList.head?, (statOf name head.attrs).isSome) ∧
    SameStat (((firstOf andList code).bind (getStatFromAttr name)).getD .nop) s
  loc : ∀ name l, .loc name l ∉ son.attrs
  uses : .uses ∉ son.attrs

variable {α β : Type}

theorem mapM_eq_some_iff (f : α → Option β) (l : List α) (l' : List β) :
    l.mapM f = some l' ↔ List.Forall₂ (fun a b => f a = some b) l l' := by
  induction l generalizing l' with
  | nil => simp [eq_comm]
  | cons a l ih =>
    rw [List.mapM_cons]
    cases head : f a with
    | none => cases l' <;> simp [head]
    | some b =>
      cases tail : l.mapM f with
      | none => cases l' <;> simp [head,← ih,tail]
      | some bs => cases l' <;> simp [tail,head,← ih]

private theorem forall₂_mem {R : α → β → Prop} {l : List α} {l' : List β} (all : List.Forall₂ R l l')
    {a : α} (mem : a ∈ l) : ∃ b ∈ l', R a b := by
  induction all with
  | nil => cases mem
  | cons head _ ih =>
    rcases List.mem_cons.mp mem with rfl | mem
    · exact ⟨_,List.mem_cons_self,head⟩
    · obtain ⟨b,member,eq⟩ := ih mem
      exact ⟨b,List.mem_cons_of_mem _ member,eq⟩

theorem mapM_mem {f : α → Option β} {l : List α} {l' : List β} (done : l.mapM f = some l')
    {a : α} (mem : a ∈ l) : ∃ b ∈ l', f a = some b := forall₂_mem ((mapM_eq_some_iff f l l').mp done) mem

theorem mapM_mem_right {f : α → Option β} {l : List α} {l' : List β} (done : l.mapM f = some l')
    {b : β} (mem : b ∈ l') : ∃ a ∈ l, f a = some b := forall₂_mem ((mapM_eq_some_iff f l l').mp done).flip mem

theorem mapM_total {f : α → Option β} {l : List α} (each : ∀ a ∈ l, ∃ b, f a = some b) :
    ∃ l', l.mapM f = some l' := by
  induction l with
  | nil => exact ⟨[],rfl⟩
  | cons a l ih =>
    obtain ⟨b,head⟩ := each a List.mem_cons_self
    obtain ⟨l',tail⟩ := ih fun a mem => each a (List.mem_cons_of_mem _ mem)
    exact ⟨b :: l',by simp [List.mapM_cons,head,tail]⟩

theorem exists_bind_iff (found : Option α) (f : α → Option β) (holds : β → Prop) :
    (∃ b, found.bind f = some b ∧ holds b) ↔ ∃ a, found = some a ∧ ∃ b, f a = some b ∧ holds b := by
  cases found <;> simp

theorem caseFrom_eq_some {α : Type} {size : Nat} {taken : Spec → Option α} {son : Spec} {case : Expr × α}
    (made : caseFrom size taken son = some case) :
    ∃ code a, caseCodeFromSpec son = some code ∧ taken son = some a ∧
      case = (.const (.card size) (.card (BitVec.ofNat 32 code)),a) := by
  simp only [caseFrom,Option.bind_eq_bind,Option.bind_eq_some_iff,Option.some.injEq] at made
  obtain ⟨code,coded,a,taking,rfl⟩ := made
  exact ⟨code,a,coded,taking,rfl⟩

theorem pick_cases {α : Type} {size : Nat} {taken : Spec → Option α} {andList : List Spec}
    {cases : List (Expr × α)} (made : andList.mapM (caseFrom size taken) = some cases) (code : Nat) :
    pick code cases = (firstOf andList code).bind taken := by
  rw [mapM_eq_some_iff] at made
  induction made with
  | nil => rfl
  | cons head _ ih =>
    obtain ⟨c,a,coded,taking,rfl⟩ := caseFrom_eq_some head
    rw [pick,label,firstOf,List.find?_cons,coded]
    by_cases same : c % 4294967296 = code
    · simp [same,taking]
    · have other : (c % 4294967296 == code) = false := by simpa using same
      simpa [other,same,firstOf] using ih

theorem bits_top (size n : Nat) :
    bits (size + 1) n = (if n / 2 ^ size % 2 = 1 then '1' else '0') :: bits size n := by
  induction size generalizing n with
  | zero => simp [bits]
  | succ size ih =>
    have shifted : n / 2 / 2 ^ size = n / 2 ^ (size + 1) := by rw [Nat.div_div_eq_div_mul,Nat.pow_succ']
    calc bits (size + 1 + 1) n
        = bits (size + 1) (n / 2) ++ [if n % 2 = 1 then '1' else '0'] := rfl
      _ = (if n / 2 ^ (size + 1) % 2 = 1 then '1' else '0') :: bits size (n / 2) ++
            [if n % 2 = 1 then '1' else '0'] := by rw [ih,shifted]
      _ = (if n / 2 ^ (size + 1) % 2 = 1 then '1' else '0') :: bits (size + 1) n := rfl

theorem no_underscore_in_bits (size n : Nat) : '_' ∉ bits size n := by
  induction size generalizing n with
  | zero => simp [bits]
  | succ size ih => by_cases odd : n % 2 = 1 <;> simp [bits,odd,ih]

private theorem digit_char {c : Char} {d : Nat} (read : digit c = some d) (high : Nat) :
    (if (2 * high + d) % 2 = 1 then '1' else '0') = c ∧ (2 * high + d) / 2 = high := by
  unfold digit at read
  split_ifs at read with zero one
  · obtain rfl := Option.some.inj read
    subst zero
    exact ⟨by simp,by omega⟩
  · obtain rfl := Option.some.inj read
    subst one
    exact ⟨by simp [Nat.add_mod],by omega⟩

private theorem bits_intOfDigits {cs : List Char} {acc n : Nat} (read : intOfDigits cs acc = some n)
    (plain : '_' ∉ cs) : bits cs.length n = cs ∧ n / 2 ^ cs.length = acc := by
  induction cs generalizing acc with
  | nil =>
    simp only [intOfDigits,Option.ite_none_right_eq_some,Option.some.injEq] at read
    simp [bits,read.2]
  | cons c cs ih =>
    obtain ⟨noUnderscore,plain⟩ : c ≠ '_' ∧ '_' ∉ cs := by simpa [eq_comm] using plain
    simp only [intOfDigits,noUnderscore,if_false,Option.bind_eq_bind,Option.bind_eq_some_iff] at read
    obtain ⟨d,digitRead,rest⟩ := read
    obtain ⟨low,high⟩ := ih rest plain
    obtain ⟨char,halved⟩ := digit_char digitRead acc
    refine ⟨?_,?_⟩
    · rw [List.length_cons,bits_top,high,low,char]
    · rw [List.length_cons,Nat.pow_succ,← Nat.div_div_eq_div_mul,high,halved]

theorem bits_intOfImage {image : List Char} {n : Nat} (read : intOfImage image = some n) :
    bits image.length n = image ↔ '_' ∉ image := by
  constructor
  · intro printed
    rw [← printed]
    exact no_underscore_in_bits _ _
  · intro plain
    cases image with
    | nil => simp [intOfImage] at read
    | cons c cs =>
      simp only [intOfImage,Option.bind_eq_bind,Option.bind_eq_some_iff] at read
      obtain ⟨d,digitRead,rest⟩ := read
      obtain ⟨low,high⟩ := bits_intOfDigits rest fun mem => plain (List.mem_cons_of_mem _ mem)
      have char := (digit_char digitRead 0).1
      rw [Nat.mul_zero,Nat.zero_add] at char
      rw [List.length_cons,bits_top,high,low,char]

theorem intOfExpr_const {e : Expr} {n : Nat} (read : intOfExpr e = some n) :
    ∃ text, e.strip = .const .string (.string text false .noType) ∧ e.names = [] ∧
      sizeOfExpr e = some text.length ∧ intOfImage text.toList = some n := by
  fun_induction intOfExpr e with
  | case1 image type => exact ⟨image,by simp [Expr.strip],by simp [Expr.names],by simp [sizeOfExpr],read⟩
  | case2 file line e ih => simpa [Expr.strip,Expr.names,sizeOfExpr] using ih read
  | case3 => cases read

section
variable {andList : List Spec} {size : Nat} {attrs attrs' : List Attr}

theorem fusedAttr_cases {a a' : Attr} (made : fusedAttr andList size a = some a') :
    (∃ name e e', a = .expr name e ∧ a' = .expr name e') ∨
      ∃ name s s', a = .stat name s ∧ a' = .stat name s' := by
  cases a with
  | expr name e =>
    by_cases image : name = "image"
    · simp only [fusedAttr,image,if_true,Option.some.injEq] at made
      exact .inl ⟨_,e,_,by rw [image],made.symm⟩
    · simp only [fusedAttr,image,if_false,Option.bind_eq_bind,Option.bind_eq_some_iff,Option.some.injEq] at made
      obtain ⟨cases,_,rfl⟩ := made
      exact .inl ⟨name,e,_,rfl,rfl⟩
  | stat name s =>
    simp only [fusedAttr,Option.bind_eq_bind,Option.bind_eq_some_iff,Option.some.injEq] at made
    obtain ⟨cases,_,rfl⟩ := made
    exact .inr ⟨name,s,_,rfl,rfl⟩
  | uses => cases made
  | loc name l => cases made

theorem exprOf_fused (made : attrs.mapM (fusedAttr andList size) = some attrs') (name : String) :
    (exprOf name attrs = none ∧ exprOf name attrs' = none) ∨
    ∃ e e', exprOf name attrs = some e ∧ exprOf name attrs' = some e' ∧
      fusedAttr andList size (.expr name e) = some (.expr name e') := by
  rw [mapM_eq_some_iff] at made
  induction made with
  | nil => exact .inl ⟨rfl,rfl⟩
  | cons head _ ih =>
    obtain ⟨nm,e,e',rfl,rfl⟩ | ⟨nm,s,s',rfl,rfl⟩ := fusedAttr_cases head
    · by_cases same : nm = name
      · subst same
        exact .inr ⟨e,e',by simp [exprOf],by simp [exprOf],head⟩
      · simpa [exprOf,same] using ih
    · simpa [exprOf] using ih

theorem statOf_fused (made : attrs.mapM (fusedAttr andList size) = some attrs') (name : String) :
    (statOf name attrs = none ∧ statOf name attrs' = none) ∨
    ∃ s s', statOf name attrs = some s ∧ statOf name attrs' = some s' ∧
      fusedAttr andList size (.stat name s) = some (.stat name s') := by
  rw [mapM_eq_some_iff] at made
  induction made with
  | nil => exact .inl ⟨rfl,rfl⟩
  | cons head _ ih =>
    obtain ⟨nm,e,e',rfl,rfl⟩ | ⟨nm,s,s',rfl,rfl⟩ := fusedAttr_cases head
    · simpa [statOf] using ih
    · by_cases same : nm = name
      · subst same
        exact .inr ⟨s,s',by simp [statOf],by simp [statOf],head⟩
      · simpa [statOf,same] using ih

theorem kinds_fused (made : attrs.mapM (fusedAttr andList size) = some attrs') :
    (∀ name l, .loc name l ∉ attrs') ∧ .uses ∉ attrs' := by
  rw [mapM_eq_some_iff] at made
  induction made with
  | nil => simp
  | cons head _ ih =>
    obtain ⟨nm,e,e',rfl,rfl⟩ | ⟨nm,s,s',rfl,rfl⟩ := fusedAttr_cases head <;> simpa using ih

end

theorem sizeOfAndNode_image {son : Spec} {size : Nat} (sized : sizeOfAndNode son = some size) :
    son.isAnd ∧ ∃ e, exprOf "image" son.attrs = some e ∧ sizeOfExpr e = some size := by
  unfold sizeOfAndNode at sized
  split at sized <;> simp_all [Spec.isAnd,Spec.attrs,Option.bind_eq_some_iff]

theorem sizeOfSpec_sons {syms : Syms} {orNode : Spec} {size : Nat} (sized : sizeOfSpec syms orNode = some size) :
    ∀ son ∈ orNode.sons.map syms, sizeOfAndNode son = some size := by
  have equal : ∀ sons : List String, (do
      match ← sons.mapM (fun son => sizeOfAndNode (syms son)) with
      | [] => none
      | size :: sizes => if sizes.all (· == size) then some size else none) = some size →
      ∀ son ∈ sons.map syms, sizeOfAndNode son = some size := by
    intro sons found son mem
    obtain ⟨name,nameMem,rfl⟩ := List.mem_map.mp mem
    simp only [Option.bind_eq_bind,Option.bind_eq_some_iff] at found
    obtain ⟨sizes,all,first⟩ := found
    obtain ⟨s,member,sonSize⟩ := mapM_mem all nameMem
    cases sizes with
    | nil => cases member
    | cons head tail =>
      simp only [Option.ite_none_right_eq_some,Option.some.injEq,List.all_eq_true,beq_iff_eq] at first
      obtain ⟨same,rfl⟩ := first
      rcases List.mem_cons.mp member with rfl | member
      · exact sonSize
      · rw [sonSize,same s member]
  cases orNode with
  | orMode name sons | orOp name sons => exact equal sons sized
  | _ => simp [Spec.sons]

structure Fused (syms : Syms) (orNode : Spec) (andList : List Spec) (fused : Spec) (size : Nat)
    (head : Spec) (attrs : List Attr) : Prop where
  sized : sizeOfSpec syms orNode = some size
  first : andList.head? = some head
  made : head.attrs.mapM (fusedAttr andList size) = some attrs
  attrs : fused.attrs = .expr "__val" (.ref "code") :: attrs
  params : fused.params = [("code",.expr (.card size))]
  node : (∃ name sons cases, orNode = .orMode name sons ∧ andList.mapM (caseFromValueExpr size) = some cases ∧
      fused = .andMode name fused.params (.switchExpr .string (.ref "code") cases .none) fused.attrs) ∨
    ∃ name sons, orNode = .orOp name sons ∧ fused = .andOp name fused.params fused.attrs

theorem fusion_fused {syms : Syms} {orNode fused : Spec} {andList : List Spec}
    (run : fusion syms orNode andList = some fused) :
    ∃ size head attrs, Fused syms orNode andList fused size head attrs := by
  simp only [fusion,attrListFromAndNode,Option.bind_eq_bind,Option.bind_eq_some_iff] at run
  obtain ⟨size,sized,attrs,⟨head,first,made⟩,node⟩ := run
  refine ⟨size,head,attrs,?_⟩
  have made := (Option.ite_none_right_eq_some.mp made).2
  cases orNode with
  | orMode name sons =>
    simp only [Option.bind_eq_some_iff,Option.some.injEq] at node
    obtain ⟨cases,values,rfl⟩ := node
    exact ⟨sized,first,made,rfl,rfl,.inl ⟨name,sons,cases,rfl,values,rfl⟩⟩
  | orOp name sons =>
    obtain rfl := Option.some.inj node
    exact ⟨sized,first,made,rfl,rfl,.inr ⟨name,sons,rfl,rfl⟩⟩
  | _ => cases node

namespace Fused
variable {syms : Syms} {orNode fused head : Spec} {andList : List Spec} {size : Nat} {attrs : List Attr}
  (node : Fused syms orNode andList fused size head attrs)
include node

theorem value_iff (code : Nat) (e : Expr) :
    (∃ e' given, fused.value = some e' ∧ exprAt size code e' = some given ∧ SameExpr given e) ↔
      (∃ name sons, orNode = .orMode name sons) ∧
      ∃ first e', firstOf andList code = some first ∧ first.value = some e' ∧ SameExpr e' e := by
  obtain ⟨name,sons,cases,rfl,values,shape⟩ | ⟨name,sons,rfl,shape⟩ := node.node
  · have value : fused.value = some (.switchExpr .string (.ref "code") cases .none) := by rw [shape]; rfl
    simp [value,pick_cases values,exists_bind_iff]
  · have value : fused.value = none := by rw [shape]; rfl
    simp [value]

theorem stat_iff (code : Nat) (name : String) (s : Stat) :
    (∃ s' given, statOf name fused.attrs = some s' ∧ statAt code s' = some given ∧ SameStat given s) ↔
      (statOf name head.attrs).isSome ∧
      SameStat (((firstOf andList code).bind (getStatFromAttr name)).getD .nop) s := by
  have attrs' : statOf name fused.attrs = statOf name attrs := by rw [node.attrs]; rfl
  rw [attrs']
  obtain ⟨absent,absent'⟩ | ⟨s0,s',present,present',made⟩ := statOf_fused node.made name
  · simp [absent,absent']
  · simp only [fusedAttr,caseFromAttrStat,Option.bind_eq_bind,Option.bind_eq_some_iff,Option.some.injEq] at made
    obtain ⟨cases,taken,shape⟩ := made
    obtain ⟨-,rfl⟩ := Attr.stat.inj shape
    simp [present,present',statAt,pick_cases taken]

theorem expr_iff (code : Nat) {name : String} (noImage : name ≠ "image") (noVal : name ≠ "__val") (e : Expr) :
    (∃ e' given, exprOf name fused.attrs = some e' ∧ exprAt size code e' = some given ∧ SameExpr given e) ↔
      (exprOf name head.attrs).isSome ∧
      ∃ first e', firstOf andList code = some first ∧ getExprFromAttr name first = some e' ∧ SameExpr e' e := by
  have attrs' : exprOf name fused.attrs = exprOf name attrs := by
    rw [node.attrs,exprOf,if_neg (Ne.symm noVal)]
  rw [attrs']
  obtain ⟨absent,absent'⟩ | ⟨e0,e',present,present',made⟩ := exprOf_fused node.made name
  · simp [absent,absent']
  · simp only [fusedAttr,if_neg noImage,caseFromAttrExpr,Option.bind_eq_bind,Option.bind_eq_some_iff,
      Option.some.injEq] at made
    obtain ⟨cases,taken,shape⟩ := made
    obtain ⟨-,rfl⟩ := Attr.expr.inj shape
    simp [present,present',pick_cases taken,exists_bind_iff]

theorem image_iff (sonsOf : andList = orNode.sons.map syms) {son : Spec} (mem : son ∈ andList) {code : Nat}
    (coded : caseCodeFromSpec son = some code) {e : Expr} (image : exprOf "image" son.attrs = some e) :
    (∃ e' given, exprOf "image" fused.attrs = some e' ∧ exprAt size code e' = some given ∧ SameExpr given e) ↔
      ∀ text, e.strip = .const .string (.string text false .noType) → '_' ∉ text.toList := by
  have sized := sizeOfSpec_sons node.sized
  rw [← sonsOf] at sized
  -- the image of the fused node is the format, since the first son has an image
  have format : exprOf "image" fused.attrs = some (.format (imageFormat size) [.ref "code"]) := by
    obtain ⟨-,e0,present,-⟩ := sizeOfAndNode_image (sized head (List.mem_of_mem_head? node.first))
    have attrs' : exprOf "image" fused.attrs = exprOf "image" attrs := by rw [node.attrs]; rfl
    obtain ⟨absent,-⟩ | ⟨e1,e',-,present',made⟩ := exprOf_fused node.made "image"
    · simp [present] at absent
    · simp only [fusedAttr,if_true,Option.some.injEq,Attr.expr.injEq,true_and] at made
      rw [attrs',present',made]
  obtain ⟨isAnd,e0,present,sonSize⟩ := sizeOfAndNode_image (sized son mem)
  obtain rfl : e0 = e := Option.some.inj (present.symm.trans image)
  have read : intOfExpr e0 = some code := by simpa [caseCodeFromSpec,isAnd,image] using coded
  obtain ⟨text,shape,noName,length,digits⟩ := intOfExpr_const read
  obtain rfl : size = text.length := Option.some.inj (sonSize.symm.trans length)
  have printed : String.ofList (bits text.length code) = text ↔ '_' ∉ text.toList := by
    rw [← bits_intOfImage digits,String.length_toList,← String.toList_inj,String.toList_ofList]
  simp [format,SameExpr,shape,noName,Free,Expr.strip,printed]

theorem gives_iff (sonsOf : andList = orNode.sons.map syms) {son : Spec} (mem : son ∈ andList) {code : Nat}
    (coded : caseCodeFromSpec son = some code) :
    Gives size fused son code ↔ Kept size orNode andList son code := by
  have noKinds := kinds_fused node.made
  constructor
  · intro gives
    refine ⟨fun e has => (node.value_iff code e).mp (gives.value e has),?_,?_,?_,?_,?_,?_⟩
    · intro e text has
      exact (node.image_iff sonsOf mem coded has).mp (gives.expr _ e has) text
    · intro e has
      obtain ⟨e',given,found,at_,same⟩ := gives.expr _ e has
      rw [node.attrs,exprOf,if_pos rfl] at found
      obtain rfl := Option.some.inj found
      obtain rfl := Option.some.inj at_
      exact same
    · intro name e noImage noVal has
      obtain ⟨kind,first⟩ := (node.expr_iff code noImage noVal e).mp (gives.expr name e has)
      exact ⟨fun h mem => by rwa [Option.mem_unique mem node.first],first⟩
    · intro name s has
      obtain ⟨kind,first⟩ := (node.stat_iff code name s).mp (gives.stat name s has)
      exact ⟨fun h mem => by rwa [Option.mem_unique mem node.first],first⟩
    · intro name l has
      have given := gives.loc name l has
      rw [node.attrs] at given
      simp [noKinds.1] at given
    · intro has
      have given := gives.uses has
      rw [node.attrs] at given
      simp [noKinds.2] at given
  · intro kept
    refine ⟨fun e has => (node.value_iff code e).mpr (kept.value e has),?_,?_,?_,?_⟩
    · intro name e has
      by_cases image : name = "image"
      · subst image
        exact (node.image_iff sonsOf mem coded has).mpr fun text => kept.image e text has
      by_cases val : name = "__val"
      · subst val
        exact ⟨_,_,by rw [node.attrs,exprOf,if_pos rfl],rfl,kept.val e has⟩
      · obtain ⟨kind,first⟩ := kept.expr name e image val has
        exact (node.expr_iff code image val e).mpr ⟨kind head node.first,first⟩
    · intro name s has
      obtain ⟨kind,first⟩ := kept.stat name s has
      exact (node.stat_iff code name s).mpr ⟨kind head node.first,first⟩
    · exact fun name l has => absurd has (kept.loc name l)
    · exact fun has => absurd has kept.uses

end Fused

end Otawa.Optirg
