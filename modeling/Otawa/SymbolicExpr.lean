import Otawa.ClpState

/-!
Symbolic comparisons and their canonical form (`SECmp::canonize`): the first register,
address or compare of an operand is left alone on the left of the comparison, the rest
of its operand is moved to the right. The values of the operands change by a common
amount and perhaps their signs, modulo 2^32; `canonize_iff` says when this keeps the
truth of the comparison.
-/
namespace Otawa.Se
open Otawa.Clp (Word Value Machine Location)

/-! ### Comparisons of words -/

/-- The determined comparisons of `op_t`. -/
inductive Op where
  | LE | LT | GE | GT | EQ | NE | ULE | ULT | UGE | UGT
  deriving DecidableEq

def reverse : Op → Op
  | .LE => .GE
  | .LT => .GT
  | .GE => .LE
  | .GT => .LT
  | .ULE => .UGE
  | .ULT => .UGT
  | .UGE => .ULE
  | .UGT => .ULT
  | logop => logop

def unsignedForm : Op → Op
  | .LE => .ULE
  | .LT => .ULT
  | .GE => .UGE
  | .GT => .UGT
  | op => op

/-- What an operator says of two words. -/
def holds : Op → Word → Word → Bool
  | .LE,x,y => x.sle y
  | .LT,x,y => x.slt y
  | .GE,x,y => y.sle x
  | .GT,x,y => y.slt x
  | .EQ,x,y => x == y
  | .NE,x,y => x != y
  | .ULE,x,y => x.ule y
  | .ULT,x,y => x.ult y
  | .UGE,x,y => y.ule x
  | .UGT,x,y => y.ult x

theorem holds_reverse (op : Op) (x y : Word) : holds (reverse op) x y = holds op y x := by
  cases op <;> simp [holds,reverse,bne,BEq.comm (a := x)]

/-! ### Symbolic expressions -/

/-- `class SymbExpr`, with constants of one word. `orphan` marks an addition that does
    not know its parent: `SEAdd::canonize` links one that it has built by itself. -/
inductive SymbExpr where
  | CONST (val : Word)
  | ADDR (val : Word)
  | REG (val : Word)
  | NEG (a : SymbExpr)
  | ADD (orphan : Bool) (a b : SymbExpr)
  | CMP (a b : SymbExpr)
  | CMPU (a b : SymbExpr)
  deriving DecidableEq

namespace SymbExpr

/-- `copy`: the nodes of a copy know their parents. -/
def copy : SymbExpr → SymbExpr
  | NEG a => NEG a.copy
  | ADD _ a b => ADD false a.copy b.copy
  | CMP a b => CMP a.copy b.copy
  | CMPU a b => CMPU a.copy b.copy
  | CONST val => CONST val
  | ADDR val => ADDR val
  | REG val => REG val

def size : SymbExpr → Nat
  | NEG a => a.size + 1
  | ADD _ a b => a.size + b.size + 1
  | CMP a b => a.size + b.size + 1
  | CMPU a b => a.size + b.size + 1
  | CONST _ | ADDR _ | REG _ => 1

@[simp] theorem size_copy (e : SymbExpr) : e.copy.size = e.size := by
  induction e <;> simp_all [copy,size]

/-- `SENeg::canonize`, on its canonized operand. -/
def negate : SymbExpr → SymbExpr
  | CONST val => CONST (0 - val)
  | NEG a => a.copy
  | a => NEG a

theorem size_negate (a : SymbExpr) : a.negate.size ≤ a.size + 1 := by
  cases a <;> simp only [negate,size,size_copy] <;> omega

def folded : SymbExpr → SymbExpr → Option Word
  | CONST k,CONST l => some (k + l)
  | _,_ => none

/-- A constant goes to the right. -/
def ordered (a b : SymbExpr) : SymbExpr × SymbExpr :=
  match a with
  | CONST _ => (b,a)
  | _ => (a,b)

theorem size_ordered (a b : SymbExpr) : (ordered a b).1.size + (ordered a b).2.size = a.size + b.size := by
  unfold ordered
  split
  · exact Nat.add_comm _ _
  · rfl

/-- `V` and `<expr1>` in `[+, V, <expr1>]` with `V` a register or an address. -/
def varAdd : SymbExpr → Option (SymbExpr × SymbExpr)
  | ADD _ (REG r) e => some (REG r,e)
  | ADD _ (ADDR r) e => some (ADDR r,e)
  | _ => none

theorem size_varAdd {a v e : SymbExpr} (found : varAdd a = some (v,e)) : a.size = e.size + 2 ∧ v.size = 1 := by
  unfold varAdd at found
  split at found <;> cases found <;> simp only [size,and_true] <;> omega

/-- `canonize`: what stands at the place of the expression afterwards. -/
def canonize (e : SymbExpr) : { r : SymbExpr // r.size ≤ e.size } :=
  match e with
  | NEG a =>
    let ⟨a',smaller⟩ := canonize a
    ⟨a'.negate,Nat.le_trans (size_negate _) (Nat.succ_le_succ smaller)⟩
  | ADD orphan a b =>
    let ⟨a',smallerA⟩ := canonize a
    let ⟨b',smallerB⟩ := canonize b
    match (if orphan then none else folded a' b') with
    | some val => ⟨CONST val,by simp only [size]; omega⟩
    | none =>
      have bound := size_ordered a' b'
      match found : varAdd (ordered a' b').1 with
      | some (v,expr1) =>
        have parts := size_varAdd found
        let ⟨newb,smaller⟩ := canonize (ADD true expr1.copy (ordered a' b').2)
        ⟨ADD orphan v newb,by simp only [size,size_copy] at smaller ⊢; omega⟩
      | none => ⟨ADD orphan (ordered a' b').1 (ordered a' b').2,by simp only [size]; omega⟩
  | CMP a b =>
    let ⟨a',smallerA⟩ := canonize a
    let ⟨b',smallerB⟩ := canonize b
    ⟨CMP a' b',by simp only [size]; omega⟩
  | CMPU a b =>
    let ⟨a',smallerA⟩ := canonize a
    let ⟨b',smallerB⟩ := canonize b
    ⟨CMPU a' b',by simp only [size]; omega⟩
  | CONST val => ⟨CONST val,Nat.le_refl _⟩
  | ADDR val => ⟨ADDR val,Nat.le_refl _⟩
  | REG val => ⟨REG val,Nat.le_refl _⟩
termination_by e.size
decreasing_by
  all_goals simp only [size,size_copy]
  all_goals omega

/-- What `canonize` makes of an expression, rule by rule. -/
inductive Canonized : SymbExpr → SymbExpr → Prop where
  | const (val : Word) : Canonized (CONST val) (CONST val)
  | addr (val : Word) : Canonized (ADDR val) (ADDR val)
  | reg (val : Word) : Canonized (REG val) (REG val)
  | neg {a a' : SymbExpr} (operand : Canonized a a') : Canonized (NEG a) a'.negate
  | fold {a b a' b' : SymbExpr} {val : Word} (left : Canonized a a') (right : Canonized b b')
      (const : folded a' b' = some val) : Canonized (ADD false a b) (CONST val)
  | assoc {orphan : Bool} {a b a' b' v expr1 newb : SymbExpr} (left : Canonized a a') (right : Canonized b b')
      (open_ : orphan = false → folded a' b' = none) (found : varAdd (ordered a' b').1 = some (v,expr1))
      (rest : Canonized (ADD true expr1.copy (ordered a' b').2) newb) : Canonized (ADD orphan a b) (ADD orphan v newb)
  | add {orphan : Bool} {a b a' b' : SymbExpr} (left : Canonized a a') (right : Canonized b b')
      (open_ : orphan = false → folded a' b' = none) (other : varAdd (ordered a' b').1 = none) :
      Canonized (ADD orphan a b) (ADD orphan (ordered a' b').1 (ordered a' b').2)
  | cmp {a b a' b' : SymbExpr} (left : Canonized a a') (right : Canonized b b') : Canonized (CMP a b) (CMP a' b')
  | cmpu {a b a' b' : SymbExpr} (left : Canonized a a') (right : Canonized b b') : Canonized (CMPU a b) (CMPU a' b')

theorem canonized (e : SymbExpr) : Canonized e e.canonize.1 := by
  fun_induction canonize e with
  | case1 a a' smaller same ih => rw [same] at ih; exact .neg ih
  | case2 orphan a b a' smallerA sameA b' smallerB sameB val const left right =>
    rw [sameA] at left
    rw [sameB] at right
    cases orphan with
    | true => simp at const
    | false => exact .fold left right (by simpa using const)
  | case3 orphan a b a' smallerA sameA b' smallerB sameB open_ _ v expr1 found _ newb smaller same left right rest =>
    rw [sameA] at left
    rw [sameB] at right
    rw [same] at rest
    exact .assoc left right (by rintro rfl; simpa using open_) found rest
  | case4 orphan a b a' smallerA sameA b' smallerB sameB open_ _ other left right =>
    rw [sameA] at left
    rw [sameB] at right
    exact .add left right (by rintro rfl; simpa using open_) other
  | case5 a b a' smallerA sameA b' smallerB sameB left right =>
    rw [sameA] at left
    rw [sameB] at right
    exact .cmp left right
  | case6 a b a' smallerA sameA b' smallerB sameB left right =>
    rw [sameA] at left
    rw [sameB] at right
    exact .cmpu left right
  | case7 val => exact .const val
  | case8 val => exact .addr val
  | case9 val => exact .reg val

end SymbExpr

open SymbExpr

/-- `class SECmp`: a condition on one operand, or a comparison of two. -/
structure SECmp where
  op : Op
  a : SymbExpr
  b : Option SymbExpr

namespace SECmp

/-- A turn of the loop of `canonize` changes the comparison, or ends the loop. -/
def unpack (se : SECmp) : SECmp × Bool :=
  match se.a,se.b with
  | CMP x y,none => (⟨se.op,x.copy,some y.copy⟩,true)
  | CMPU x y,none => (⟨unsignedForm se.op,x.copy,some y.copy⟩,true)
  | _,_ => (se,false)

/-- `[<log_op>, [K, <valeur>], <expr>]` is reversed. -/
def swap (se : SECmp) : SECmp × Bool :=
  match se.a,se.b with
  | CONST _,some (CONST _) => (se,false)
  | CONST val,some b => (⟨reverse se.op,b,some (CONST val)⟩,true)
  | _,_ => (se,false)

/-- `[<log_op>, [+, <expr0>, <expr1>], <expr2>]`: `<expr1>` moves to the right. -/
def moveAdd (se : SECmp) : SECmp × Bool :=
  match se.a,se.b with
  | ADD _ expr0 expr1,some b => (⟨se.op,expr0.copy,some (canonize (ADD false b.copy (NEG expr1.copy))).1⟩,true)
  | _,_ => (se,false)

/-- `[<log_op>, [-, <expr0>], expr1]`: the sign moves to the right. -/
def moveNeg (se : SECmp) : SECmp × Bool :=
  match se.a,se.b with
  | NEG expr0,some b => (⟨reverse se.op,expr0.copy,some (canonize (NEG b.copy)).1⟩,true)
  | _,_ => (se,false)

/-- One turn of the loop, and whether it continues. -/
def turn (se : SECmp) : SECmp × Bool :=
  let (se,cont1) := se.unpack
  let (se,cont2) := se.swap
  let (se,cont3) := se.moveAdd
  let (se,cont4) := se.moveNeg
  (se,cont1 || cont2 || cont3 || cont4)

/-- The loop; `none` when the fuel is out. -/
def loop : Nat → SECmp → Option SECmp
  | 0,_ => none
  | fuel + 1,se =>
    match se.turn with
    | (se,true) => loop fuel se
    | (se,false) => some se

/-- `canonize` of a determined comparison. -/
def canonize (fuel : Nat) (se : SECmp) : Option SECmp :=
  loop fuel ⟨se.op,(SymbExpr.canonize se.a).1,se.b.map fun b => (SymbExpr.canonize b).1⟩

end SECmp

/-- What a compare leaves in a status register, and what a condition reads there: the
    comparison of its operator, in the unsigned form after an unsigned compare. -/
structure Flags where
  status : Bool → Word → Word → Word
  test : Op → Word → Bool
  signed : ∀ op x y, test op (status false x y) = holds op x y
  unsigned : ∀ op x y, test op (status true x y) = holds (unsignedForm op) x y

def eval (flags : Flags) (m : Machine) : SymbExpr → Word
  | CONST val => val
  | ADDR val => m (.cell val)
  | REG val => m (.reg val)
  | NEG a => - eval flags m a
  | ADD _ a b => eval flags m a + eval flags m b
  | CMP a b => flags.status false (eval flags m a) (eval flags m b)
  | CMPU a b => flags.status true (eval flags m a) (eval flags m b)

def truth (flags : Flags) (m : Machine) (se : SECmp) : Bool :=
  match se.b with
  | none => flags.test se.op (eval flags m se.a)
  | some b => holds se.op (eval flags m se.a) (eval flags m b)

/-- The sign (true for a negated one) and the value of the first term that is no constant. -/
def lead (flags : Flags) (m : Machine) : SymbExpr → Option (Bool × Word)
  | CONST _ => none
  | NEG a => (lead flags m a).map fun p => (!p.1,p.2)
  | ADD _ a b => (lead flags m a).or (lead flags m b)
  | ADDR val => some (false,m (.cell val))
  | REG val => some (false,m (.reg val))
  | CMP a b => some (false,flags.status false (eval flags m a) (eval flags m b))
  | CMPU a b => some (false,flags.status true (eval flags m a) (eval flags m b))

section Expressions
variable {flags : Flags} {m : Machine}

@[simp] theorem eval_copy (e : SymbExpr) : eval flags m e.copy = eval flags m e := by
  induction e <;> simp_all [copy,eval]

@[simp] theorem lead_copy (e : SymbExpr) : lead flags m e.copy = lead flags m e := by
  induction e <;> simp_all [copy,lead]

theorem eval_negate (a : SymbExpr) : eval flags m a.negate = - eval flags m a := by
  cases a <;> simp [negate,eval]

theorem lead_negate (a : SymbExpr) : lead flags m a.negate = lead flags m (NEG a) := by
  cases a with
  | NEG a => cases given : lead flags m a <;> simp [negate,lead,given]
  | _ => simp [negate,lead]

theorem eval_folded {a b : SymbExpr} {val : Word} (const : folded a b = some val) :
    eval flags m a + eval flags m b = val := by
  unfold folded at const
  split at const <;> cases const
  rfl

theorem eval_ordered (a b : SymbExpr) :
    eval flags m (ordered a b).1 + eval flags m (ordered a b).2 = eval flags m a + eval flags m b := by
  unfold ordered
  split
  · exact BitVec.add_comm _ _
  · rfl

theorem eval_varAdd {a v e : SymbExpr} (found : varAdd a = some (v,e)) :
    eval flags m a = eval flags m v + eval flags m e := by
  unfold varAdd at found
  split at found <;> cases found <;> rfl

theorem eval_canonized (flags : Flags) (m : Machine) {e r : SymbExpr} (canonized : Canonized e r) : eval flags m r = eval flags m e := by
  induction canonized with
  | const | addr | reg => rfl
  | neg _ ih => rw [eval_negate,ih,eval]
  | fold _ _ const left right => rw [eval,eval,← left,← right,eval_folded const]
  | assoc _ _ _ found _ left right rest =>
    rw [eval,rest,eval,eval,eval_copy,← BitVec.add_assoc,← eval_varAdd found,eval_ordered,left,right]
  | add _ _ _ _ left right => rw [eval,eval,eval_ordered,left,right]
  | cmp _ _ left right | cmpu _ _ left right => rw [eval,eval,left,right]

theorem lead_ordered (a b : SymbExpr) :
    (lead flags m (ordered a b).1).or (lead flags m (ordered a b).2) = (lead flags m a).or (lead flags m b) := by
  unfold ordered
  split
  · simp [lead]
  · rfl

theorem lead_canonized (flags : Flags) (m : Machine) {e r : SymbExpr} (canonized : Canonized e r) : lead flags m r = lead flags m e := by
  induction canonized with
  | const | addr | reg => rfl
  | neg _ ih => rw [lead_negate,lead,ih,lead]
  | @fold a b a' b' val _ _ const left right =>
    unfold folded at const
    split at const
    · rw [lead,lead,← left,← right]; rfl
    · cases const
  | @assoc orphan a b a' b' v expr1 newb _ _ _ found _ left right rest =>
    obtain ⟨sign,word,first⟩ : ∃ sign word, lead flags m v = some (sign,word) ∧
        lead flags m (ordered a' b').1 = some (sign,word) := by
      unfold varAdd at found
      split at found <;> cases found <;> exact ⟨_,_,rfl,by simp [*,lead]⟩
    rw [lead,lead,← left,← right,← lead_ordered a' b',first.1,first.2]
    rfl
  | add _ _ _ _ left right => rw [lead,lead_ordered,left,right,lead]
  | cmp left right | cmpu left right => rw [lead,lead,eval_canonized flags m left,eval_canonized flags m right]

end Expressions

namespace SymbExpr

/-- The root knows its parent. -/
def Linked : SymbExpr → Prop
  | ADD true _ _ => False
  | _ => True

def IsVar : SymbExpr → Prop
  | ADDR _ | REG _ => True
  | _ => False

/-- An addition that does not know its parent is added to a register or to an address. -/
def Parented : SymbExpr → Prop
  | NEG a => a.Linked ∧ a.Parented
  | ADD _ a b => a.Linked ∧ (b.Linked ∨ a.IsVar) ∧ a.Parented ∧ b.Parented
  | CMP a b => (a.Linked ∧ a.Parented) ∧ b.Linked ∧ b.Parented
  | CMPU a b => (a.Linked ∧ a.Parented) ∧ b.Linked ∧ b.Parented
  | CONST _ | ADDR _ | REG _ => True

/-- The leftmost leaf is no constant. The operands of a compare are constants, or like this. -/
def Headed : SymbExpr → Prop
  | CONST _ => False
  | ADDR _ | REG _ => True
  | NEG a => a.Headed
  | ADD _ a _ => a.Headed
  | CMP a b => (a.Headed ∨ ∃ val, a = CONST val) ∧ (b.Headed ∨ ∃ val, b = CONST val)
  | CMPU a b => (a.Headed ∨ ∃ val, a = CONST val) ∧ (b.Headed ∨ ∃ val, b = CONST val)

theorem linked_copy (e : SymbExpr) : e.copy.Linked := by cases e <;> trivial

theorem parented_copy (e : SymbExpr) : e.copy.Parented := by
  induction e with
  | CONST | ADDR | REG => trivial
  | NEG a ih => exact ⟨linked_copy a,ih⟩
  | ADD orphan a b left right => exact ⟨linked_copy a,.inl (linked_copy b),left,right⟩
  | CMP a b left right | CMPU a b left right => exact ⟨⟨linked_copy a,left⟩,linked_copy b,right⟩

theorem headed_copy {e : SymbExpr} (headed : e.Headed) : e.copy.Headed := by
  induction e with
  | CONST => exact headed
  | ADDR | REG => trivial
  | NEG a ih => exact ih headed
  | ADD orphan a b left _ => exact left headed
  | CMP a b left right | CMPU a b left right =>
    refine ⟨headed.1.imp left ?_,headed.2.imp right ?_⟩
    all_goals
      rintro ⟨val,rfl⟩
      exact ⟨val,rfl⟩

theorem ordered_cases (a b : SymbExpr) :
    (∃ val, a = CONST val ∧ ordered a b = (b,a)) ∨ (∀ val, a ≠ CONST val) ∧ ordered a b = (a,b) := by
  cases a with
  | CONST val => exact .inl ⟨val,rfl,rfl⟩
  | _ => exact .inr ⟨fun _ => nofun,rfl⟩

/-- A canonized expression is a constant or has a leftmost leaf that is not. -/
structure Shaped (e : SymbExpr) : Prop where
  linked : e.Linked
  parented : e.Parented
  head : e.Headed ∨ ∃ val, e = CONST val

theorem isVar_canonized {e r : SymbExpr} (canonized : Canonized e r) (var : e.IsVar) : r = e := by
  cases canonized with
  | addr | reg => rfl
  | _ => exact var.elim

theorem isVar_varAdd {a v e : SymbExpr} (found : varAdd a = some (v,e)) : v.IsVar ∧ ¬ a.IsVar := by
  unfold varAdd at found
  split at found <;> cases found <;> exact ⟨trivial,id⟩

theorem shaped_canonized {e r : SymbExpr} (canonized : Canonized e r) (parented : e.Parented) :
    r.Parented ∧ (e.Linked → Shaped r) := by
  induction canonized with
  | const val => exact ⟨trivial,fun _ => ⟨trivial,trivial,.inr ⟨val,rfl⟩⟩⟩
  | addr | reg => exact ⟨trivial,fun _ => ⟨trivial,trivial,.inl trivial⟩⟩
  | @neg a a' _ ih =>
    have operand := (ih parented.2).2 parented.1
    suffices shaped : Shaped a'.negate from ⟨shaped.parented,fun _ => shaped⟩
    cases a' with
    | CONST val => exact ⟨trivial,trivial,.inr ⟨_,rfl⟩⟩
    | NEG x => exact ⟨linked_copy x,parented_copy x,.inl (headed_copy (operand.head.resolve_right nofun))⟩
    | _ => exact ⟨trivial,⟨operand.linked,operand.parented⟩,.inl (operand.head.resolve_right nofun)⟩
  | fold => exact ⟨trivial,fun _ => ⟨trivial,trivial,.inr ⟨_,rfl⟩⟩⟩
  | @assoc orphan a b a' b' v expr1 newb left right open_ found rest ihLeft ihRight ihRest =>
    obtain ⟨linkedA,linkedB,parentedA,parentedB⟩ := parented
    have shapedA := (ihLeft parentedA).2 linkedA
    have second : (ordered a' b').2.Linked ∧ (ordered a' b').2.Parented := by
      rcases ordered_cases a' b' with ⟨val,rfl,same⟩ | ⟨_,same⟩
      · rw [same]; exact ⟨trivial,trivial⟩
      · rw [same] at found ⊢
        rcases linkedB with linkedB | var
        · exact ⟨((ihRight parentedB).2 linkedB).linked,(ihRight parentedB).1⟩
        · exact absurd var (isVar_canonized left var ▸ (isVar_varAdd found).2)
    have new := (ihRest ⟨linked_copy _,.inl second.1,parented_copy _,second.2⟩).1
    have var := (isVar_varAdd found).1
    have vLinked : v.Linked ∧ v.Parented ∧ v.Headed := by
      cases v <;> first | exact ⟨trivial,trivial,trivial⟩ | exact var.elim
    have parentedR : (ADD orphan v newb).Parented := ⟨vLinked.1,.inr var,vLinked.2.1,new⟩
    refine ⟨parentedR,fun linked => ⟨?_,parentedR,.inl vLinked.2.2⟩⟩
    cases orphan with
    | true => exact linked.elim
    | false => trivial
  | @add orphan a b a' b' left right open_ other ihLeft ihRight =>
    obtain ⟨linkedA,linkedB,parentedA,parentedB⟩ := parented
    have shapedA := (ihLeft parentedA).2 linkedA
    rcases ordered_cases a' b' with ⟨val,rfl,same⟩ | ⟨notConst,same⟩
    · rw [same]
      have linkedB : b.Linked := linkedB.resolve_right fun var => by
        have := isVar_canonized left var
        rw [← this] at var
        exact var
      have shapedB := (ihRight parentedB).2 linkedB
      have parentedR : (ADD orphan b' (CONST val)).Parented := ⟨shapedB.linked,.inl trivial,shapedB.parented,trivial⟩
      refine ⟨parentedR,fun linked => ?_⟩
      cases orphan with
      | true => exact linked.elim
      | false =>
        refine ⟨trivial,parentedR,.inl (shapedB.head.resolve_right ?_)⟩
        rintro ⟨val',rfl⟩
        exact absurd (open_ rfl) nofun
    · rw [same]
      have second : b'.Linked ∨ a'.IsVar := by
        rcases linkedB with linkedB | var
        · exact .inl ((ihRight parentedB).2 linkedB).linked
        · exact .inr (by rw [isVar_canonized left var]; exact var)
      have parentedR : (ADD orphan a' b').Parented := ⟨shapedA.linked,second,shapedA.parented,(ihRight parentedB).1⟩
      refine ⟨parentedR,fun linked => ?_⟩
      cases orphan with
      | true => exact linked.elim
      | false => exact ⟨trivial,parentedR,.inl (shapedA.head.resolve_right fun ⟨val,const⟩ => notConst val const)⟩
  | cmp left right ihLeft ihRight | cmpu left right ihLeft ihRight =>
    have shapedA := (ihLeft parented.1.2).2 parented.1.1
    have shapedB := (ihRight parented.2.2).2 parented.2.1
    exact ⟨⟨⟨shapedA.linked,shapedA.parented⟩,shapedB.linked,shapedB.parented⟩,
      fun _ => ⟨trivial,⟨⟨shapedA.linked,shapedA.parented⟩,shapedB.linked,shapedB.parented⟩,
        .inl ⟨shapedA.head,shapedB.head⟩⟩⟩

end SymbExpr

/-! ### The loop -/

namespace SECmp
variable {flags : Flags} {m : Machine}

theorem loop_mono {fuel : Nat} {se r : SECmp} (run : loop fuel se = some r) : loop (fuel + 1) se = some r := by
  induction fuel generalizing se with
  | zero => cases run
  | succ fuel ih =>
    rw [loop] at run ⊢
    split at run
    · exact ih run
    · exact run

/-- A turn that does not continue has changed nothing. -/
theorem turn_stops {se : SECmp} (stops : se.turn.2 = false) : se.turn.1 = se := by
  have unpacked (se : SECmp) : se.unpack.2 = false → se.unpack.1 = se := by
    unfold unpack; split <;> simp
  have swapped (se : SECmp) : se.swap.2 = false → se.swap.1 = se := by
    unfold swap; split <;> simp
  have added (se : SECmp) : se.moveAdd.2 = false → se.moveAdd.1 = se := by
    unfold moveAdd; split <;> simp
  have negated (se : SECmp) : se.moveNeg.2 = false → se.moveNeg.1 = se := by
    unfold moveNeg; split <;> simp
  simp only [turn,Bool.or_eq_false_iff] at stops ⊢
  obtain ⟨⟨⟨first,second⟩,third⟩,fourth⟩ := stops
  rw [unpacked _ first] at second third fourth ⊢
  rw [swapped _ second] at third fourth ⊢
  rw [added _ third] at fourth ⊢
  exact negated _ fourth

theorem loop_of_turn {fuel : Nat} {se se1 r : SECmp} (same : se.turn = (se1.turn.1,true)) (run : loop fuel se1 = some r) :
    loop (fuel + 1) se = some r := by
  cases fuel with
  | zero => cases run
  | succ fuel =>
    rw [loop,same]
    rw [loop] at run
    dsimp only
    cases continues : se1.turn with
    | mk se2 cont =>
      rw [continues] at run
      cases cont with
      | true => exact loop_mono run
      | false =>
        have stays := turn_stops (by rw [continues] : se1.turn.2 = false)
        rw [continues] at stays
        cases run
        dsimp only at stays ⊢
        rw [stays,loop,continues,stays]

/-- The comparison once the first term of the left operand is alone, of this sign and value. -/
def isolated (op : Op) (x y : Word) : Bool × Word → Op × Word × Word
  | (false,h) => (op,h,y - x + h)
  | (true,h) => (reverse op,h,x - y + h)

structure Isolates (flags : Flags) (m : Machine) (target : Op × Word × Word) (se : SECmp) (b : SymbExpr) : Prop where
  right : se.b = some b
  headed : se.a.Headed
  leads : ∃ p, lead flags m se.a = some p ∧ isolated se.op (eval flags m se.a) (eval flags m b) p = target

theorem lead_of_headed (flags : Flags) (m : Machine) {e : SymbExpr} (headed : e.Headed) : ∃ p, lead flags m e = some p := by
  induction e with
  | CONST => exact headed.elim
  | NEG a ih =>
    obtain ⟨p,first⟩ := ih headed
    exact ⟨(!p.1,p.2),by rw [lead,first]; rfl⟩
  | ADD orphan a b ih _ =>
    obtain ⟨p,first⟩ := ih headed
    exact ⟨p,by rw [lead,first]; rfl⟩
  | _ => exact ⟨_,rfl⟩

variable {target : Op × Word × Word}

theorem isolates_add {op : Op} {orphan : Bool} {expr0 expr1 b : SymbExpr}
    (isolates : Isolates flags m target ⟨op,ADD orphan expr0 expr1,some b⟩ b) :
    Isolates flags m target (moveAdd ⟨op,ADD orphan expr0 expr1,some b⟩).1
      (SymbExpr.canonize (ADD false b.copy (NEG expr1.copy))).1 := by
  obtain ⟨_,headed,p,leads,target⟩ := isolates
  obtain ⟨first,leads0⟩ := lead_of_headed flags m (e := expr0) headed
  have same : p = first := by
    dsimp only at leads
    rw [lead,leads0] at leads
    exact (Option.some.inj leads).symm
  subst same
  refine ⟨rfl,headed_copy headed,p,by simp only [moveAdd,lead_copy,leads0],?_⟩
  have moved := eval_canonized flags m (canonized (ADD false b.copy (NEG expr1.copy)))
  rw [← target]
  obtain ⟨negated,h⟩ := p
  simp only [moveAdd,moved,eval,eval_copy]
  cases negated <;> simp only [isolated,Prod.mk.injEq,true_and] <;> ring

theorem isolates_neg {op : Op} {expr0 b : SymbExpr}
    (isolates : Isolates flags m target ⟨op,NEG expr0,some b⟩ b) :
    Isolates flags m target (moveNeg ⟨op,NEG expr0,some b⟩).1 (SymbExpr.canonize (NEG b.copy)).1 := by
  obtain ⟨_,headed,p,leads,target⟩ := isolates
  obtain ⟨⟨negated,h⟩,leads0⟩ := lead_of_headed flags m (e := expr0) headed
  have same : p = (!negated,h) := by
    dsimp only at leads
    rw [lead,leads0] at leads
    exact (Option.some.inj leads).symm
  subst same
  refine ⟨rfl,headed_copy headed,(negated,h),by simp only [moveNeg,lead_copy,leads0],?_⟩
  have moved := eval_canonized flags m (canonized (NEG b.copy))
  have twice : reverse (reverse op) = op := by cases op <;> rfl
  rw [← target]
  simp only [moveNeg,moved,eval,eval_copy]
  cases negated <;> simp only [isolated,Bool.not_true,Bool.not_false,twice,Prod.mk.injEq,true_and] <;> ring

/-- A turn leaves the target, and shortens the left operand or ends. -/
theorem turn_isolates {se : SECmp} {b : SymbExpr} (isolates : Isolates flags m target se b) :
    (∃ b', Isolates flags m target se.turn.1 b') ∧
      (se.turn.2 = true ∧ se.turn.1.a.size < se.a.size ∨
        se.turn = (se,false) ∧ (se.op,eval flags m se.a,eval flags m b) = target) := by
  obtain ⟨op,a,right⟩ := se
  have given : right = some b := isolates.right
  subst given
  -- a term alone on the left
  have alone (value : lead flags m a = some (false,eval flags m a)) : (op,eval flags m a,eval flags m b) = target := by
    obtain ⟨p,leads,target⟩ := isolates.leads
    rw [← target]
    cases Option.some.inj (value.symm.trans leads)
    simp only [isolated,Prod.mk.injEq,true_and]
    ring
  cases a with
  | CONST val => exact isolates.headed.elim
  | ADDR val | REG val => exact ⟨⟨b,isolates⟩,.inr ⟨rfl,alone rfl⟩⟩
  | CMP x y | CMPU x y => exact ⟨⟨b,isolates⟩,.inr ⟨rfl,alone rfl⟩⟩
  | NEG expr0 =>
    refine ⟨⟨_,isolates_neg isolates⟩,.inl ⟨rfl,?_⟩⟩
    show expr0.copy.size < (NEG expr0).size
    simp only [size,size_copy]
    omega
  | ADD orphan expr0 expr1 =>
    have moved := isolates_add isolates
    have smaller : expr0.copy.size < (ADD orphan expr0 expr1).size := by
      simp only [size,size_copy]
      omega
    cases first : expr0.copy with
    | NEG expr =>
      -- both moves in one turn
      have twice : (turn ⟨op,ADD orphan expr0 expr1,some b⟩) =
          ((moveNeg ⟨op,NEG expr,some (SymbExpr.canonize (ADD false b.copy (NEG expr1.copy))).1⟩).1,true) := by
        simp only [turn,unpack,swap,moveAdd,first]
        rfl
      rw [twice]
      simp only [moveAdd,first] at moved smaller
      refine ⟨⟨_,isolates_neg moved⟩,.inl ⟨rfl,?_⟩⟩
      simp only [moveNeg,size,size_copy] at smaller ⊢
      omega
    | _ =>
      have once : (turn ⟨op,ADD orphan expr0 expr1,some b⟩) =
          ((moveAdd ⟨op,ADD orphan expr0 expr1,some b⟩).1,true) := by
        simp only [turn,unpack,swap,moveAdd,first]
        rfl
      rw [once]
      exact ⟨⟨_,moved⟩,.inl ⟨rfl,smaller⟩⟩

def EndsWith (flags : Flags) (m : Machine) (se : SECmp) (target : Op × Word × Word) : Prop :=
  ∃ fuel r b, loop fuel se = some r ∧ r.b = some b ∧ (r.op,eval flags m r.a,eval flags m b) = target

theorem loop_isolates {se : SECmp} {b : SymbExpr} (isolates : Isolates flags m target se b) :
    EndsWith flags m se target := by
  induction size : se.a.size using Nat.strong_induction_on generalizing se b with
  | _ n ih =>
    obtain ⟨⟨b',isolates'⟩,⟨continues,smaller⟩ | ⟨stops,target⟩⟩ := turn_isolates isolates
    · obtain ⟨fuel,r,b₁,run,right,values⟩ := ih _ (size ▸ smaller) isolates' rfl
      refine ⟨fuel + 1,r,b₁,?_,right,values⟩
      rw [loop,show se.turn = (se.turn.1,true) from Prod.ext rfl continues]
      exact run
    · exact ⟨1,se,b,by rw [loop,stops],isolates.right,target⟩

/-- The comparison at the end of the loop: the first term of the left operand is alone,
    or that of the right one when the left one is a constant. -/
def settled (op : Op) (x y : Word) (left right : Option (Bool × Word)) : Op × Word × Word :=
  match left,right with
  | some p,_ => isolated op x y p
  | none,some p => isolated (reverse op) y x p
  | none,none => (op,x,y)

theorem loop_settles (flags : Flags) (m : Machine) (op : Op) {a b : SymbExpr} (left : a.Headed ∨ ∃ val, a = CONST val)
    (right : b.Headed ∨ ∃ val, b = CONST val) :
    EndsWith flags m ⟨op,a,some b⟩
      (settled op (eval flags m a) (eval flags m b) (lead flags m a) (lead flags m b)) := by
  rcases left with headed | ⟨val,rfl⟩
  · obtain ⟨p,leads⟩ := lead_of_headed flags m headed
    rw [leads]
    exact loop_isolates ⟨rfl,headed,p,leads,rfl⟩
  · rcases right with headed | ⟨val',rfl⟩
    · obtain ⟨p,leads⟩ := lead_of_headed flags m headed
      have swapped : Isolates flags m (isolated (reverse op) (eval flags m b) val p) ⟨reverse op,b,some (CONST val)⟩
          (CONST val) := ⟨rfl,headed,p,leads,rfl⟩
      obtain ⟨fuel,r,b',run,result⟩ := loop_isolates swapped
      have same : (turn ⟨op,CONST val,some b⟩) = ((turn ⟨reverse op,b,some (CONST val)⟩).1,true) := by
        cases b <;> first | exact headed.elim | simp [turn,unpack,swap]
      refine ⟨fuel + 1,r,b',loop_of_turn same run,?_⟩
      rw [leads]
      exact result
    · exact ⟨1,_,CONST val',rfl,rfl,rfl⟩

end SECmp
/-! ### Moving a word across a comparison -/

/-- A word as the unsigned or the signed comparisons read it. -/
def int (u : Bool) (x : Word) : Int := if u then x.toNat else x.toInt

def wraps (u : Bool) (x c : Word) : Bool := decide (int u (x - c) ≠ int u x - int u c)

def lt (u : Bool) (x y : Word) : Bool := decide (int u x < int u y)

theorem int_injective {u : Bool} {x y : Word} (same : int u x = int u y) : x = y := by
  cases u with
  | true => exact BitVec.eq_of_toNat_eq (by simp only [int,if_true] at same; omega)
  | false => exact BitVec.eq_of_toInt_eq (by simpa [int] using same)

/-- The least word for these comparisons; the words are read in a window of 2^32 integers from it. -/
def least (u : Bool) : Int := if u then 0 else -2 ^ 31

theorem int_window (u : Bool) (x : Word) : least u ≤ int u x ∧ int u x < least u + 2 ^ 32 := by
  cases u with
  | true =>
    have := x.isLt
    simp only [int,least,if_true]
    omega
  | false =>
    have := BitVec.le_toInt x
    have := BitVec.toInt_lt (x := x)
    simp only [int,least,Bool.false_eq_true,if_false]
    omega

theorem int_sub_cases (u : Bool) (x c : Word) :
    int u (x - c) = int u x - int u c ∨ int u (x - c) = int u x - int u c + 2 ^ 32 ∨
      int u (x - c) = int u x - int u c - 2 ^ 32 := by
  cases u with
  | true =>
    have := BitVec.toNat_sub x c
    have := x.isLt
    have := c.isLt
    simp only [int,if_true]
    omega
  | false =>
    have difference := BitVec.toInt_sub (x := x) (y := c)
    have := BitVec.le_toInt x
    have := BitVec.toInt_lt (x := x)
    have := BitVec.le_toInt c
    have := BitVec.toInt_lt (x := c)
    simp only [int,Bool.false_eq_true,if_false]
    rw [Int.bmod_def] at difference
    split at difference <;> omega

/-- Two words keep their order when none or both of the subtractions wrap. -/
theorem lt_sub_iff {u : Bool} {x y : Word} (c : Word) (differ : x ≠ y) :
    lt u (x - c) (y - c) = lt u x y ↔ wraps u x c = wraps u y c := by
  have apart : int u x ≠ int u y := fun same => differ (int_injective same)
  have := int_sub_cases u x c
  have := int_sub_cases u y c
  have := int_window u x
  have := int_window u y
  have := int_window u (x - c)
  have := int_window u (y - c)
  simp only [lt,wraps,decide_eq_decide]
  omega

theorem lt_neg_iff {u : Bool} {x y : Word} (differ : x ≠ y) :
    lt u (0 - y) (0 - x) = lt u x y ↔ wraps u 0 x = wraps u 0 y := by
  have apart : int u x ≠ int u y := fun same => differ (int_injective same)
  have zero : int u 0 = 0 := by cases u <;> rfl
  have := int_sub_cases u 0 x
  have := int_sub_cases u 0 y
  have := int_window u x
  have := int_window u y
  have := int_window u (0 - x)
  have := int_window u (0 - y)
  have : -2 ^ 31 ≤ least u ∧ least u ≤ 0 := by cases u <;> decide
  simp only [lt,wraps,decide_eq_decide]
  omega

def isUnsigned : Op → Bool
  | .ULE | .ULT | .UGE | .UGT => true
  | _ => false

def isGreater : Op → Bool
  | .GE | .GT | .UGE | .UGT => true
  | _ => false

theorem holds_lt {op : Op} (notEq : op ≠ .EQ) (notNe : op ≠ .NE) {x y : Word} (differ : x ≠ y) :
    holds op x y = (lt (isUnsigned op) x y != isGreater op) := by
  have signed : x.toInt ≠ y.toInt := fun same => differ (BitVec.eq_of_toInt_eq same)
  have unsigned : x.toNat ≠ y.toNat := fun same => differ (BitVec.eq_of_toNat_eq same)
  cases op <;> simp only [ne_eq,not_true_eq_false] at notEq notNe
  all_goals
    simp only [holds,lt,int,isUnsigned,isGreater,BitVec.sle_eq_decide,BitVec.slt_eq_decide,BitVec.ule,BitVec.ult,
      if_true,Bool.false_eq_true,if_false,Bool.bne_false,Bool.bne_true,← decide_not,decide_eq_decide] <;> omega

theorem holds_same (op : Op) (x y : Word) : holds op x x = holds op y y := by
  cases op <;> simp [holds,BitVec.sle_eq_decide,BitVec.slt_eq_decide,BitVec.ule,BitVec.ult]

theorem holds_apart {op : Op} (plain : op = .EQ ∨ op = .NE) {x y x' y' : Word} (differ : x ≠ y) (differ' : x' ≠ y') :
    holds op x' y' = holds op x y := by
  have first : (x == y) = false := beq_eq_false_iff_ne.mpr differ
  have second : (x' == y') = false := beq_eq_false_iff_ne.mpr differ'
  rcases plain with rfl | rfl <;> simp only [holds,bne,first,second]

/-- Two order changes in a row: the order is kept when their wraps are even in number. -/
private theorem order_parity (negated greater order moved turned move move' sign sign' : Bool)
    (moves : moved = order ↔ move = move') (signs : turned = moved ↔ sign = sign') :
    ((if negated then turned else moved) != greater) = (order != greater) ↔
      ((move ^^ move') == (negated && (sign ^^ sign'))) = true := by
  revert negated greater order moved turned move move' sign sign'
  decide

/-- Moving what stands beside a first term of this sign and value in `x`, and changing
    the signs when the term is negated, wraps an even number of times. -/
def wrapsEven (u : Bool) (x y : Word) (term : Bool × Word) : Bool :=
  let c := if term.1 then x + term.2 else x - term.2
  let moves := wraps u x c ^^ wraps u y c
  let signs := term.1 && (wraps u 0 (x - c) ^^ wraps u 0 (y - c))
  moves == signs

/-- The truth of an isolated comparison is that of the comparison. -/
theorem isolated_holds_iff (op : Op) (x y : Word) (term : Bool × Word) :
    (holds (SECmp.isolated op x y term).1 (SECmp.isolated op x y term).2.1 (SECmp.isolated op x y term).2.2 =
      holds op x y) ↔ op = .EQ ∨ op = .NE ∨ x = y ∨ wrapsEven (isUnsigned op) x y term := by
  obtain ⟨negated,h⟩ := term
  -- the sides are `x - c` and `y - c`, or their opposites in the other order
  obtain ⟨c,given⟩ : ∃ c, c = if negated then x + h else x - h := ⟨_,rfl⟩
  have sides : holds (SECmp.isolated op x y (negated,h)).1 (SECmp.isolated op x y (negated,h)).2.1
      (SECmp.isolated op x y (negated,h)).2.2 =
        if negated then holds op (0 - (y - c)) (0 - (x - c)) else holds op (x - c) (y - c) := by
    cases negated with
    | true =>
      simp only [SECmp.isolated,if_true,holds_reverse] at given ⊢
      rw [given]
      congr 1 <;> ring
    | false =>
      simp only [SECmp.isolated,Bool.false_eq_true,if_false] at given ⊢
      rw [given]
      congr 1 <;> ring
  have even : wrapsEven (isUnsigned op) x y (negated,h) =
      ((wraps (isUnsigned op) x c ^^ wraps (isUnsigned op) y c) ==
        (negated && (wraps (isUnsigned op) 0 (x - c) ^^ wraps (isUnsigned op) 0 (y - c)))) := by
    rw [given]; rfl
  rw [sides,even]
  by_cases same : x = y
  · subst same
    refine iff_of_true ?_ (.inr (.inr (.inl rfl)))
    split <;> exact holds_same op _ _
  have shifted : x - c ≠ y - c := fun equal => same (sub_left_injective equal)
  have turned : 0 - (y - c) ≠ 0 - (x - c) := fun equal => shifted (sub_right_injective equal).symm
  by_cases plain : op = .EQ ∨ op = .NE
  · refine iff_of_true ?_ (plain.imp id .inl)
    split <;> exact holds_apart plain same ‹_›
  obtain ⟨eq,ne⟩ := not_or.mp plain
  simp only [eq,ne,same,false_or]
  rw [holds_lt eq ne turned,holds_lt eq ne shifted,holds_lt eq ne same]
  have moves := lt_sub_iff (u := isUnsigned op) c same
  have signs := lt_neg_iff (u := isUnsigned op) shifted
  have parity := order_parity negated (isGreater op) _ _ _ _ _ _ _ moves signs
  rw [← parity]
  cases negated <;> rfl

/-- The compare of a condition, under an even number of changes of sign. -/
def compared : SymbExpr → Option (Bool × SymbExpr × SymbExpr)
  | CMP x y => some (false,x,y)
  | CMPU x y => some (true,x,y)
  | NEG (NEG a) => compared a
  | _ => none

def operands (se : SECmp) : Option (Op × SymbExpr × SymbExpr) :=
  match se.b with
  | some b => some (se.op,se.a,b)
  | none => (compared se.a).map fun p => (if p.1 then unsignedForm se.op else se.op,p.2)

section Operands
variable {flags : Flags} {m : Machine}

def Alike (flags : Flags) (m : Machine) (e e' : SymbExpr) : Prop :=
  eval flags m e' = eval flags m e ∧ lead flags m e' = lead flags m e

theorem alike_canonized {e r : SymbExpr} (canonized : Canonized e r) : Alike flags m e r :=
  ⟨eval_canonized flags m canonized,lead_canonized flags m canonized⟩

theorem alike_copy {e e' : SymbExpr} (alike : Alike flags m e e') : Alike flags m e e'.copy :=
  ⟨(eval_copy e').trans alike.1,(lead_copy e').trans alike.2⟩

def compareNode (u : Bool) (x y : SymbExpr) : SymbExpr := if u then CMPU x y else CMP x y

theorem compareNode_copy {e x y : SymbExpr} {u : Bool} (same : e.copy = compareNode u x y) :
    ∃ x' y', e = compareNode u x' y' := by
  cases u <;> cases e <;> cases same <;> exact ⟨_,_,rfl⟩

theorem negate_compareNode {a x y : SymbExpr} {u : Bool} (same : a.negate = compareNode u x y) :
    ∃ x' y', a = NEG (compareNode u x' y') := by
  cases a with
  | NEG a =>
    obtain ⟨x',y',rfl⟩ := compareNode_copy same
    exact ⟨x',y',rfl⟩
  | _ => cases u <;> cases same

theorem not_twice {e r : SymbExpr} (canonized : Canonized e r) (z : SymbExpr) : r ≠ NEG (NEG z) := by
  induction canonized generalizing z with
  | @neg a a' _ ih =>
    cases a' with
    | NEG x =>
      intro same
      cases x with
      | NEG x => exact ih x rfl
      | _ => cases same
    | _ => intro same; cases same
  | _ => nofun

theorem neg_of_canonized {e z : SymbExpr} (canonized : Canonized e (NEG z)) : ∃ a, e = NEG a := by
  generalize given : NEG z = r at canonized
  cases canonized with
  | neg => exact ⟨_,rfl⟩
  | _ => cases given

theorem compared_canonized (flags : Flags) (m : Machine) {e r : SymbExpr} (canonized : Canonized e r) :
    (∀ u x y, compared e = some (u,x,y) → ∃ x' y', r = compareNode u x' y' ∧ Alike flags m x x' ∧ Alike flags m y y') ∧
      (compared e = none → ∀ u x y, r ≠ compareNode u x y) := by
  induction e using compared.induct generalizing r with
  | case1 x y =>
    cases canonized with
    | cmp left right =>
      refine ⟨?_,nofun⟩
      rintro _ _ _ ⟨⟩
      exact ⟨_,_,rfl,alike_canonized left,alike_canonized right⟩
  | case2 x y =>
    cases canonized with
    | cmpu left right =>
      refine ⟨?_,nofun⟩
      rintro _ _ _ ⟨⟩
      exact ⟨_,_,rfl,alike_canonized left,alike_canonized right⟩
  | case3 a ih =>
    cases canonized with
    | neg operand =>
      cases operand with
      | @neg _ a' operand =>
        obtain ⟨stays,becomes⟩ := ih operand
        constructor
        · intro u x y given
          obtain ⟨x',y',rfl,left,right⟩ := stays u x y given
          exact ⟨x'.copy,y'.copy,by cases u <;> rfl,alike_copy left,alike_copy right⟩
        · intro none u x y same
          obtain ⟨x',y',inner⟩ := negate_compareNode same
          cases a' with
          | NEG w =>
            cases w with
            | NEG w => exact not_twice operand w rfl
            | _ => cases inner
          | _ => first | exact becomes none u _ _ (NEG.inj inner) | cases inner
  | case4 e notCmp notCmpu notNeg =>
    have none : compared e = none := by
      unfold compared
      split
      · exact (notCmp _ _ rfl).elim
      · exact (notCmpu _ _ rfl).elim
      · exact (notNeg _ rfl).elim
      · rfl
    rw [none]
    refine ⟨nofun,fun _ u x y same => ?_⟩
    cases canonized with
    | neg operand =>
      obtain ⟨x',y',rfl⟩ := negate_compareNode same
      obtain ⟨a,rfl⟩ := neg_of_canonized operand
      exact notNeg _ rfl
    | cmp => exact notCmp _ _ rfl
    | cmpu => exact notCmpu _ _ rfl
    | _ => cases u <;> cases same

/-! ### The truth of a canonized comparison -/

/-- The moves around the first term, of the left operand or else of the right one, wrap an
    even number of times. -/
def movesEven (op : Op) (x y : Word) (left right : Option (Bool × Word)) : Bool :=
  match left,right with
  | some p,_ => wrapsEven (isUnsigned op) x y p
  | none,some p => wrapsEven (isUnsigned op) y x p
  | none,none => true

theorem settled_holds_iff (op : Op) (x y : Word) (left right : Option (Bool × Word)) :
    (holds (SECmp.settled op x y left right).1 (SECmp.settled op x y left right).2.1
      (SECmp.settled op x y left right).2.2 = holds op x y) ↔
        op = .EQ ∨ op = .NE ∨ x = y ∨ movesEven op x y left right := by
  cases left with
  | some p => exact isolated_holds_iff op x y p
  | none =>
    cases right with
    | some p =>
      have swapped := isolated_holds_iff (reverse op) y x p
      rw [holds_reverse] at swapped
      refine swapped.trans ?_
      have same : isUnsigned (reverse op) = isUnsigned op := by cases op <;> rfl
      have eq : reverse op = .EQ ↔ op = .EQ := by cases op <;> simp [reverse]
      have ne : reverse op = .NE ↔ op = .NE := by cases op <;> simp [reverse]
      rw [same,eq,ne,eq_comm (a := y)]
      rfl
    | none => simp [SECmp.settled,movesEven]

/-- When the comparison says the same once it is canonized: for an equality or an
    inequality, for equal operands, and when the moves wrap an even number of times. -/
def Kept (flags : Flags) (m : Machine) (se : SECmp) : Prop :=
  ∀ op a b, operands se = some (op,a,b) →
    op = .EQ ∨ op = .NE ∨ eval flags m a = eval flags m b ∨
      movesEven op (eval flags m a) (eval flags m b) (lead flags m a) (lead flags m b)

/-- The nodes under the comparison know their parents, but for additions that
    `canonize` has built. -/
def Parented (se : SECmp) : Prop :=
  (se.a.Linked ∧ se.a.Parented) ∧ ∀ b, se.b = some b → b.Linked ∧ b.Parented

def Canonizes (se r : SECmp) : Prop := ∃ fuel, SECmp.canonize fuel se = some r

theorem canonizes_compare {se : SECmp} {op : Op} {a b a' b' : SymbExpr} (given : operands se = some (op,a,b))
    (truthIs : truth flags m se = holds op (eval flags m a) (eval flags m b)) (left : Alike flags m a a')
    (right : Alike flags m b b')
    (ends : ∃ fuel r c, SECmp.canonize fuel se = some r ∧ r.b = some c ∧ (r.op,eval flags m r.a,eval flags m c) =
      SECmp.settled op (eval flags m a') (eval flags m b') (lead flags m a') (lead flags m b')) :
    ∃ r, Canonizes se r ∧ (truth flags m r = truth flags m se ↔ Kept flags m se) := by
  obtain ⟨fuel,r,c,run,rightIs,values⟩ := ends
  refine ⟨r,⟨fuel,run⟩,?_⟩
  rw [left.1,left.2,right.1,right.2] at values
  have result : truth flags m r = holds r.op (eval flags m r.a) (eval flags m c) := by rw [truth,rightIs]
  have opIs := congrArg Prod.fst values
  have xIs := congrArg (fun t : Op × Word × Word => t.2.1) values
  have yIs := congrArg (fun t : Op × Word × Word => t.2.2) values
  dsimp only at opIs xIs yIs
  rw [result,truthIs,opIs,xIs,yIs,settled_holds_iff]
  constructor
  · intro condition op' a' b' given'
    cases Option.some.inj (given.symm.trans given')
    exact condition
  · exact fun kept => kept op a b given

theorem canonizes_operands (flags : Flags) (m : Machine) (op : Op) {a b : SymbExpr}
    (parented : Parented ⟨op,a,some b⟩) :
    ∃ r, Canonizes ⟨op,a,some b⟩ r ∧ (truth flags m r = truth flags m ⟨op,a,some b⟩ ↔ Kept flags m ⟨op,a,some b⟩) := by
  obtain ⟨⟨linkedA,parentedA⟩,right⟩ := parented
  obtain ⟨linkedB,parentedB⟩ := right b rfl
  have shapedA := (shaped_canonized (canonized a) parentedA).2 linkedA
  have shapedB := (shaped_canonized (canonized b) parentedB).2 linkedB
  exact canonizes_compare rfl rfl (alike_canonized (canonized a)) (alike_canonized (canonized b))
    (SECmp.loop_settles flags m op shapedA.head shapedB.head)

/-- `canonize` ends, and it keeps the truth of the comparison exactly when `Kept` says. -/
theorem canonize_iff (flags : Flags) (m : Machine) {se : SECmp} (parented : Parented se) :
    ∃ r, Canonizes se r ∧ (truth flags m r = truth flags m se ↔ Kept flags m se) := by
  obtain ⟨op,a,b⟩ := se
  cases b with
  | some b => exact canonizes_operands flags m op parented
  | none =>
    have shapedA := (shaped_canonized (canonized a) parented.1.2).2 parented.1.1
    obtain ⟨stays,becomes⟩ := compared_canonized flags m (canonized a)
    cases compare : compared a with
    | some p =>
      obtain ⟨u,x,y⟩ := p
      obtain ⟨x',y',node,left,right⟩ := stays u x y compare
      have heads : (x'.Headed ∨ ∃ val, x' = CONST val) ∧ (y'.Headed ∨ ∃ val, y' = CONST val) := by
        have head := shapedA.head
        rw [node] at head
        cases u <;> exact head.resolve_right nofun
      have copied {e : SymbExpr} (head : e.Headed ∨ ∃ val, e = CONST val) : e.copy.Headed ∨ ∃ val, e.copy = CONST val := by
        rcases head with headed | ⟨val,rfl⟩
        · exact .inl (headed_copy headed)
        · exact .inr ⟨val,rfl⟩
      refine canonizes_compare (by rw [operands,compare]; rfl) ?_ (alike_copy left) (alike_copy right) ?_
      · have status := eval_canonized flags m (canonized a)
        rw [truth,← status,node]
        cases u with
        | true => simp only [compareNode,if_true,eval,flags.unsigned,left.1,right.1]
        | false => simp only [compareNode,Bool.false_eq_true,if_false,eval,flags.signed,left.1,right.1]
      · obtain ⟨fuel,r,c,run,result⟩ := SECmp.loop_settles flags m
          (if u then unsignedForm op else op) (copied heads.1) (copied heads.2)
        refine ⟨fuel + 1,r,c,SECmp.loop_of_turn ?_ run,result⟩
        dsimp only [Option.map_none]
        rw [node]
        cases u <;> simp [compareNode,SECmp.turn,SECmp.unpack]
    | none =>
      have other := becomes compare
      refine ⟨⟨op,(SymbExpr.canonize a).1,none⟩,⟨1,?_⟩,iff_of_true ?_ ?_⟩
      · have stops : (SECmp.turn ⟨op,(SymbExpr.canonize a).1,none⟩) = (⟨op,(SymbExpr.canonize a).1,none⟩,false) := by
          cases shape : (SymbExpr.canonize a).1 with
          | CMP x y => exact absurd shape (other false x y)
          | CMPU x y => exact absurd shape (other true x y)
          | _ => rfl
        rw [SECmp.canonize,SECmp.loop]
        dsimp only [Option.map_none]
        rw [stops]
      · rw [truth,truth,eval_canonized flags m (canonized a)]
      · intro op' a' b' given
        rw [operands,compare] at given
        cases given

end Operands

/-- A status register with one bit for each of the signed and the unsigned order, the
    equality and the kind of the compare. -/
def bitStatus (u : Bool) (x y : Word) : Word :=
  (if u then 8 else 0) ||| (if x = y then 4 else 0) ||| (if x.slt y then 2 else 0) ||| (if x.ult y then 1 else 0)

/-- The comparison of an operator in the bits of a status register. -/
def bitTest (op : Op) (w : Word) : Bool :=
  let eq := w.getLsbD 2
  let less := if isUnsigned op || w.getLsbD 3 then w.getLsbD 0 else w.getLsbD 1
  match op with
  | .EQ => eq
  | .NE => !eq
  | .LE | .ULE => less || eq
  | .LT | .ULT => less
  | .GE | .UGE => !less
  | .GT | .UGT => !(less || eq)

theorem bitStatus_bits (u : Bool) (x y : Word) :
    (bitStatus u x y).getLsbD 3 = u ∧ (bitStatus u x y).getLsbD 2 = (x == y) ∧
      (bitStatus u x y).getLsbD 1 = x.slt y ∧ (bitStatus u x y).getLsbD 0 = x.ult y := by
  have eq : (if x = y then 4 else 0 : Word) = if (x == y) = true then 4 else 0 := by simp only [beq_iff_eq]
  rw [bitStatus,eq]
  cases u <;> cases x == y <;> cases x.slt y <;> cases x.ult y <;> decide

theorem bitTest_status (op : Op) (u : Bool) (x y : Word) :
    bitTest op (bitStatus u x y) = holds (if u then unsignedForm op else op) x y := by
  obtain ⟨kind,eq,slt,ult⟩ := bitStatus_bits u x y
  have sle : x.sle y = (x.slt y || x == y) := by
    simp only [BitVec.sle_eq_decide,BitVec.slt_eq_decide,Bool.beq_eq_decide_eq,← BitVec.toInt_inj,← Bool.decide_or,
      decide_eq_decide]
    omega
  have ule : x.ule y = (x.ult y || x == y) := by
    simp only [BitVec.ule,BitVec.ult,Bool.beq_eq_decide_eq,← BitVec.toNat_inj,← Bool.decide_or,decide_eq_decide]
    omega
  have sge : y.sle x = !x.slt y := by
    simp only [BitVec.sle_eq_decide,BitVec.slt_eq_decide,← decide_not,decide_eq_decide]
    omega
  have uge : y.ule x = !x.ult y := by
    simp only [BitVec.ule,BitVec.ult,← decide_not,decide_eq_decide]
    omega
  have sgt : y.slt x = !x.sle y := by
    simp only [BitVec.sle_eq_decide,BitVec.slt_eq_decide,← decide_not,decide_eq_decide]
    omega
  have ugt : y.ult x = !x.ule y := by
    simp only [BitVec.ule,BitVec.ult,← decide_not,decide_eq_decide]
    omega
  unfold bitTest
  rw [kind,eq,slt,ult]
  cases u <;> cases op <;> simp [holds,unsignedForm,isUnsigned,sge,uge,sgt,ugt,sle,ule,bne]

def bitFlags : Flags := ⟨bitStatus,bitTest,fun op => bitTest_status op false,fun op => bitTest_status op true⟩

/-- `[log_op, [+, r1, [K, 1]], r2]`. -/
def sumCompared (op : Op) : SECmp := ⟨op,ADD false (REG 1) (CONST 1),some (REG 2)⟩

def greatest : Machine := fun l => if l = .reg 1 then 0x7fffffff else 0

theorem parented_sumCompared (op : Op) : Parented (sumCompared op) := by
  refine ⟨⟨trivial,trivial,.inl trivial,trivial,trivial⟩,?_⟩
  rintro b ⟨⟩
  exact ⟨trivial,trivial⟩

theorem canonize_iff_sum :
    ∃ r, Canonizes (sumCompared .EQ) r ∧
      (truth bitFlags greatest r = truth bitFlags greatest (sumCompared .EQ) ↔ Kept bitFlags greatest (sumCompared .EQ)) :=
  canonize_iff bitFlags greatest (parented_sumCompared .EQ)

/-- `r1 + 1 < r2` holds when the sum wraps below 0, and `r1 < r2 - 1` does not. -/
theorem canonize_wraps :
    ¬ ∀ (flags : Flags) (m : Machine) (se r : SECmp), Parented se → Canonizes se r →
      truth flags m r = truth flags m se := by
  intro keeps
  obtain ⟨r,canonizes,kept⟩ := canonizes_operands bitFlags greatest .LT (parented_sumCompared .LT)
  have even := kept.mp (keeps _ _ _ _ (parented_sumCompared .LT) canonizes) .LT _ _ rfl
  revert even
  decide

end Otawa.Se
