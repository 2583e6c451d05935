import Otawa.Bitmask
import Mathlib.Data.List.Nodup

/-!
The decoding nodes of an instruction set. `buildDecNodes` splits the instructions by
their values on the fixed bits that they have in common, again and again, until each node
has one instruction or the values cannot tell the instructions of a node apart. The masks
of a node are made of bits that all its instructions have fixed (`Good`), the sons of a
node share out its instructions by value (`SonsOf`), and the nodes in the end form the
tree of these sons (`subtree`).
-/
namespace Otawa.Gep

/-! ### Images -/

/-- A piece of an image: a character or a format of n bits. -/
inductive Piece
  | digit (d : Digit) | field (n : Nat)
  deriving DecidableEq

structure Spec where
  name : String
  image : List Piece
  deriving DecidableEq

def Piece.size : Piece → Nat
  | .digit _ => 1
  | .field n => n

def Piece.mask : Piece → Bitmask
  | .digit d => [if d = .x then .zero else .one]
  | .field n => List.replicate n .zero

def Piece.valueMask : Piece → Bitmask
  | .digit d => [d]
  | .field n => List.replicate n .x

/-- `get_instruction_length`. -/
def Spec.size (s : Spec) : Nat := (s.image.map Piece.size).sum

/-- `revert_bytes`, which is applied when the images are written in the other order of
    bytes than the memory. -/
def revertBytes {A : Type} : List A → List A
  | a :: b :: c :: d :: e :: f :: g :: h :: rest => revertBytes rest ++ [a,b,c,d,e,f,g,h]
  | _ => []

/-- The bits as the images are given by `bit_image_order`. -/
def ordered {A : Type} (inversed : Bool) (bits : List A) : List A := if inversed then revertBytes bits else bits

def getMask (inversed : Bool) (s : Spec) : Bitmask := ordered inversed (s.image.flatMap Piece.mask)

def getValueMask (inversed : Bool) (s : Spec) : Bitmask := ordered inversed (s.image.flatMap Piece.valueMask)

/-- `dec_tree`: the values on the masks from the top, the instructions, the mask of the
    node and the fixed bits that its instructions have in common. -/
structure DecTree where
  name : List Bitmask
  specs : List Spec
  mask : Bitmask
  common : Bitmask
  deriving DecidableEq

inductive Failure
  | sameImage (specs : List Spec) | shouldNotHappen
  deriving DecidableEq

section
variable (inversed : Bool)

def specListMask : List Spec → Option Bitmask
  | [] => some []
  | [a] => some (getMask inversed a)
  | h :: t => do
    let rest ← specListMask t
    let (m1,m2) := setSameLength (getMask inversed h) rest false
    logand m1 m2

/-- `create_son_list_of_dec_node`. -/
def createSonList (t : DecTree) : Option (List (Bitmask × Spec)) :=
  t.specs.mapM fun a => (maskedValue (getValueMask inversed a) t.mask).map fun v => (v,a)

/-- `add_instr_in_tuple_list`. -/
def addInstr : List (Bitmask × List Spec) → Bitmask × Spec → List (Bitmask × List Spec)
  | [], (v,sp) => [(v,[sp])]
  | (vv,sl) :: b, (v,sp) => if v = vv then (vv,sp :: sl) :: b else (vv,sl) :: addInstr b (v,sp)

def sortSonList (vl : List (Bitmask × Spec)) : List (Bitmask × List Spec) := vl.foldl addInstr []

def buildDectrees (vl : List (Bitmask × List Spec)) (gm : Bitmask) (il : List Bitmask) : Option (List DecTree) :=
  vl.mapM fun (v,sl) => do
    let common ← specListMask inversed sl
    let mask ← unmask common gm
    some ⟨il ++ [v],sl,mask,common⟩

def buildSonsOfTree (t : DecTree) : Except Failure (List DecTree) :=
  match (createSonList inversed t).bind fun vl => buildDectrees inversed (sortSonList vl) t.common t.name with
  | none => .error .shouldNotHappen
  | some [son] => if son.specs.length > 1 then .error (.sameImage son.specs) else .ok [son]
  | some sons => .ok sons

def DecTree.emptied (t : DecTree) : DecTree := {t with specs := []}

def getSons (x : DecTree) : Except Failure (List DecTree) :=
  if x.specs.length > 1 then (buildSonsOfTree inversed x).map fun sons => x.emptied :: sons else .ok [x]

def stopCond (l : List DecTree) : Bool := l.all fun a => a.specs.length ≤ 1

/-- The loop of `build_dec_nodes`, for at most `fuel` turns. -/
def splitNodes : Nat → List DecTree → Option (Except Failure (List DecTree))
  | 0, _ => none
  | fuel + 1, dl =>
    if stopCond dl then some (.ok dl)
    else
      match dl.mapM (getSons inversed) with
      | .error e => some (.error e)
      | .ok parts => splitNodes fuel parts.flatten

def buildDecNodes (fuel : Nat) (specs : List Spec) : Option (Except Failure (List DecTree)) :=
  match specListMask inversed specs with
  | none => some (.error .shouldNotHappen)
  | some mask => splitNodes inversed fuel [⟨[],specs,mask,mask⟩]

end

def Piece.pattern : Piece → List (Option Bool)
  | .digit .zero => [some false]
  | .digit .one => [some true]
  | .digit .x => [none]
  | .field n => List.replicate n none

def fixedBits (inversed : Bool) (s : Spec) : List (Option Bool) := ordered inversed (s.image.flatMap Piece.pattern)

def Agrees (inversed : Bool) (s : Spec) (bits : List Bool) : Prop :=
  ∀ (p : Nat) (b : Bool), (fixedBits inversed s)[p]? = some (some b) → bits[p]? = some b

def AgreesOnly (inversed : Bool) (specs : List Spec) (s : Spec) (bits : List Bool) : Prop :=
  s ∈ specs ∧ Agrees inversed s bits ∧ ∀ other ∈ specs, Agrees inversed other bits → other = s

def digitOf (b : Bool) : Digit := if b then .one else .zero

section
variable {A B : Type} {inversed : Bool} {s : Spec}

theorem revertBytes_map (f : A → B) (bits : List A) : revertBytes (bits.map f) = (revertBytes bits).map f := by
  fun_induction revertBytes bits with
  | case1 a b c d e f' g h rest ih => simp [revertBytes,ih]
  | case2 bits short =>
    match bits with
    | [] | [_] | [_,_] | [_,_,_] | [_,_,_,_] | [_,_,_,_,_] | [_,_,_,_,_,_] | [_,_,_,_,_,_,_] => rfl
    | a :: b :: c :: d :: e :: f' :: g :: h :: rest => exact (short a b c d e f' g h rest rfl).elim

theorem ordered_map (f : A → B) (bits : List A) : ordered inversed (bits.map f) = (ordered inversed bits).map f := by
  cases inversed with
  | false => rfl
  | true => exact revertBytes_map f bits

/-- The number of bits that the order of bytes keeps. -/
def orderedLength (inversed : Bool) (n : Nat) : Nat := if inversed then n / 8 * 8 else n

theorem length_revertBytes (bits : List A) : (revertBytes bits).length = bits.length / 8 * 8 := by
  fun_induction revertBytes bits with
  | case1 a b c d e f g h rest ih =>
    simp only [List.length_append,List.length_cons,List.length_nil,ih]
    omega
  | case2 bits short =>
    match bits with
    | [] | [_] | [_,_] | [_,_,_] | [_,_,_,_] | [_,_,_,_,_] | [_,_,_,_,_,_] | [_,_,_,_,_,_,_] => simp
    | a :: b :: c :: d :: e :: f :: g :: h :: rest => exact (short a b c d e f g h rest rfl).elim

theorem length_ordered (bits : List A) : (ordered inversed bits).length = orderedLength inversed bits.length := by
  cases inversed with
  | false => rfl
  | true => exact length_revertBytes bits

theorem getMask_eq : getMask inversed s = (fixedBits inversed s).map fun b => if b.isSome then .one else .zero := by
  rw [getMask,fixedBits,← ordered_map,List.map_flatMap]
  congr 2
  funext p
  cases p with
  | field n => simp [Piece.mask,Piece.pattern]
  | digit d => cases d <;> rfl

theorem getValueMask_eq : getValueMask inversed s = (fixedBits inversed s).map fun b => b.elim .x digitOf := by
  rw [getValueMask,fixedBits,← ordered_map,List.map_flatMap]
  congr 2
  funext p
  cases p with
  | field n => simp [Piece.valueMask,Piece.pattern]
  | digit d => cases d <;> rfl

theorem length_fixedBits : (fixedBits inversed s).length = orderedLength inversed s.size := by
  rw [fixedBits,length_ordered,List.length_flatMap]
  have sizes : (fun p : Piece => p.pattern.length) = Piece.size := by
    funext p
    cases p with
    | field n => simp [Piece.size,Piece.pattern]
    | digit d => cases d <;> rfl
  rw [sizes]
  rfl

theorem getElem?_ones_getMask {p : Nat} :
    (ones (getMask inversed s))[p]? = some true ↔ ∃ b, (fixedBits inversed s)[p]? = some (some b) := by
  rw [getElem?_ones,getMask_eq,List.getElem?_map,Option.map_eq_some_iff]
  constructor
  · rintro ⟨b,known,digit⟩
    cases b with
    | none => cases digit
    | some b => exact ⟨b,known⟩
  · rintro ⟨b,known⟩
    exact ⟨some b,known,rfl⟩

theorem plain_getMask : .x ∉ getMask inversed s := by
  rw [getMask_eq]
  intro member
  obtain ⟨b,-,digit⟩ := List.mem_map.mp member
  cases b <;> cases digit

theorem plain_digits (bits : List Bool) : Digit.x ∉ bits.map digitOf := by
  intro member
  obtain ⟨b,-,digit⟩ := List.mem_map.mp member
  cases b <;> cases digit

theorem ones_digits (bits : List Bool) : ones (bits.map digitOf) = bits := by
  induction bits with
  | nil => rfl
  | cons b rest ih =>
    rw [ones] at ih ⊢
    rw [List.map_cons,List.map_cons,ih]
    cases b <;> rfl

theorem maskedValue_of_agrees {mask : Bitmask} {bits : List Bool} (inside : Within mask (getMask inversed s))
    (length : mask.length = (fixedBits inversed s).length) (long : mask.length ≤ bits.length)
    (agrees : Agrees inversed s bits) :
    maskedValue (getValueMask inversed s) mask = some ((select (ones mask) bits).map digitOf) := by
  have same : select (ones mask) (getValueMask inversed s) = (select (ones mask) bits).map digitOf := by
    rw [← select_map]
    refine select_congr (by simp [getValueMask_eq,length]) (by simpa using long) fun p set => ?_
    obtain ⟨b,known⟩ := getElem?_ones_getMask.mp (inside p set)
    rw [getValueMask_eq,List.getElem?_map,List.getElem?_map,known,agrees p b known]
    rfl
  rw [maskedValue,same,if_neg (plain_digits _)]

theorem maskedValue_spec {mask : Bitmask} (inside : Within mask (getMask inversed s))
    (length : mask.length = (fixedBits inversed s).length) :
    ∃ v, maskedValue (getValueMask inversed s) mask = some v ∧ .x ∉ v ∧ v.length = bitCount mask := by
  have word : Agrees inversed s ((fixedBits inversed s).map fun b => b.getD false) := by
    intro p b known
    rw [List.getElem?_map,known]
    rfl
  refine ⟨_,maskedValue_of_agrees inside length (by simp [length]) word,plain_digits _,?_⟩
  rw [List.length_map,length_select (by simp [length]),bitCount]

end

/-- The groups made of a list of values and instructions. -/
structure Groups (vl : List (Bitmask × Spec)) (groups : List (Bitmask × List Spec)) : Prop where
  keys : (groups.map Prod.fst).Nodup
  sound : ∀ g ∈ groups, g.2 ≠ [] ∧ ∀ sp ∈ g.2, (g.1,sp) ∈ vl
  complete : ∀ p ∈ vl, ∃ g ∈ groups, g.1 = p.1 ∧ p.2 ∈ g.2
  count : (groups.map fun g => g.2.length).sum = vl.length

variable (groups : List (Bitmask × List Spec))

theorem keys_addInstr (p : Bitmask × Spec) :
    (addInstr groups p).map Prod.fst =
      if p.1 ∈ groups.map Prod.fst then groups.map Prod.fst else groups.map Prod.fst ++ [p.1] := by
  induction groups with
  | nil => simp [addInstr]
  | cons g rest ih =>
    by_cases same : p.1 = g.1
    · simp [addInstr,same]
    · have later : addInstr (g :: rest) p = g :: addInstr rest p := by simp [addInstr,same]
      rw [later,List.map_cons,ih]
      simp only [List.map_cons,List.mem_cons,same,false_or]
      split <;> rfl

theorem mem_addInstr {groups : List (Bitmask × List Spec)} {p : Bitmask × Spec} {g : Bitmask × List Spec}
    (member : g ∈ addInstr groups p) :
    g ∈ groups ∨ g.1 = p.1 ∧ ∃ sl, g.2 = p.2 :: sl ∧ (sl = [] ∨ (p.1,sl) ∈ groups) := by
  induction groups with
  | nil =>
    rw [addInstr,List.mem_singleton] at member
    subst member
    exact .inr ⟨rfl,[],rfl,.inl rfl⟩
  | cons h rest ih =>
    rw [addInstr] at member
    split at member
    case isTrue same =>
      rcases List.mem_cons.mp member with rfl | old
      · exact .inr ⟨same.symm,h.2,rfl,.inr (same ▸ List.mem_cons_self)⟩
      · exact .inl (List.mem_cons_of_mem h old)
    case isFalse =>
      rcases List.mem_cons.mp member with rfl | later
      · exact .inl List.mem_cons_self
      · rcases ih later with old | ⟨key,sl,made,from'⟩
        · exact .inl (List.mem_cons_of_mem h old)
        · exact .inr ⟨key,sl,made,from'.imp_right (List.mem_cons_of_mem h)⟩

theorem addInstr_keeps {groups : List (Bitmask × List Spec)} {p : Bitmask × Spec} {g : Bitmask × List Spec}
    (member : g ∈ groups) : ∃ h ∈ addInstr groups p, h.1 = g.1 ∧ ∀ sp ∈ g.2, sp ∈ h.2 := by
  induction groups with
  | nil => cases member
  | cons h rest ih =>
    rw [addInstr]
    split
    case isTrue =>
      rcases List.mem_cons.mp member with rfl | old
      · exact ⟨_,List.mem_cons_self,rfl,fun sp inside => List.mem_cons_of_mem _ inside⟩
      · exact ⟨g,List.mem_cons_of_mem _ old,rfl,fun sp inside => inside⟩
    case isFalse =>
      rcases List.mem_cons.mp member with rfl | old
      · exact ⟨g,List.mem_cons_self,rfl,fun sp inside => inside⟩
      · obtain ⟨k,kept,rest⟩ := ih old
        exact ⟨k,List.mem_cons_of_mem _ kept,rest⟩

theorem addInstr_adds (p : Bitmask × Spec) :
    ∃ g ∈ addInstr groups p, g.1 = p.1 ∧ p.2 ∈ g.2 := by
  induction groups with
  | nil => exact ⟨_,List.mem_singleton_self _,rfl,List.mem_singleton_self _⟩
  | cons h rest ih =>
    rw [addInstr]
    split
    case isTrue same => exact ⟨_,List.mem_cons_self,same.symm,List.mem_cons_self⟩
    case isFalse =>
      obtain ⟨g,added,rest⟩ := ih
      exact ⟨g,List.mem_cons_of_mem _ added,rest⟩

theorem count_addInstr (p : Bitmask × Spec) :
    ((addInstr groups p).map fun g => g.2.length).sum = (groups.map fun g => g.2.length).sum + 1 := by
  induction groups with
  | nil => simp [addInstr]
  | cons h rest ih =>
    rw [addInstr]
    split
    · simp only [List.map_cons,List.sum_cons,List.length_cons]
      omega
    · simp only [List.map_cons,List.sum_cons,ih]
      omega

theorem Groups.add {vl : List (Bitmask × Spec)} {groups : List (Bitmask × List Spec)} (known : Groups vl groups)
    (p : Bitmask × Spec) : Groups (vl ++ [p]) (addInstr groups p) where
  keys := by
    rw [keys_addInstr]
    split
    case isTrue => exact known.keys
    case isFalse new => exact List.nodup_append.mpr ⟨known.keys,by simp,by simpa using fun g sl member same => new (by
      rw [← same]; exact List.mem_map_of_mem (f := Prod.fst) member)⟩
  sound := by
    intro g member
    rcases mem_addInstr member with old | ⟨key,sl,made,before⟩
    · exact ⟨(known.sound g old).1,fun sp inside => List.mem_append_left _ ((known.sound g old).2 sp inside)⟩
    · rw [made]
      refine ⟨List.cons_ne_nil _ _,fun sp inside => ?_⟩
      rcases List.mem_cons.mp inside with rfl | old
      · rw [key]
        exact List.mem_append_right _ List.mem_cons_self
      · rcases before with rfl | group
        · cases old
        · rw [key]
          exact List.mem_append_left _ ((known.sound _ group).2 sp old)
  complete := by
    intro q member
    rcases List.mem_append.mp member with old | new
    · obtain ⟨g,group,key,inside⟩ := known.complete q old
      obtain ⟨h,kept,same,more⟩ := addInstr_keeps (p := p) group
      exact ⟨h,kept,same.trans key,more _ inside⟩
    · rw [List.mem_singleton.mp new]
      exact addInstr_adds groups p
  count := by
    rw [count_addInstr,known.count,List.length_append,List.length_singleton]

theorem groups_sortSonList (vl : List (Bitmask × Spec)) : Groups vl (sortSonList vl) := by
  suffices all : ∀ rest done groups, Groups done groups → Groups (done ++ rest) (rest.foldl addInstr groups) by
    exact all vl [] [] ⟨by simp,by simp,by simp,by simp⟩
  intro rest
  induction rest with
  | nil => intro done groups known; simpa using known
  | cons p rest ih =>
    intro done groups known
    have next := ih (done ++ [p]) _ (known.add p)
    rwa [List.append_assoc,List.singleton_append] at next

theorem mapM_some {A B : Type} {f : A → Option B} {g : A → B} {xs : List A}
    (known : ∀ a ∈ xs, f a = some (g a)) : xs.mapM f = some (xs.map g) := by
  induction xs with
  | nil => rfl
  | cons a rest ih =>
    rw [List.mapM_cons,known a List.mem_cons_self,ih fun b member => known b (List.mem_cons_of_mem a member)]
    rfl

section
variable {inversed : Bool} {n : Nat}

theorem specListMask_spec (inversed : Bool) {specs : List Spec} (some_ : specs ≠ []) (sizes : ∀ s ∈ specs, s.size = n) :
    ∃ m, specListMask inversed specs = some m ∧ m.length = orderedLength inversed n ∧ .x ∉ m ∧
      ∀ s ∈ specs, Within m (getMask inversed s) := by
  have length (s : Spec) (size : s.size = n) : (getMask inversed s).length = orderedLength inversed n := by
    rw [getMask_eq,List.length_map,length_fixedBits,size]
  induction specs with
  | nil => exact absurd rfl some_
  | cons h t ih =>
    have head := length h (sizes h List.mem_cons_self)
    cases t with
    | nil =>
      refine ⟨getMask inversed h,rfl,head,plain_getMask,fun s member => ?_⟩
      rw [List.mem_singleton.mp member]
      exact fun p set => set
    | cons k t =>
      obtain ⟨rest,done,restLength,plain,inside⟩ := ih (List.cons_ne_nil k t) fun s member =>
        sizes s (List.mem_cons_of_mem h member)
      have same : setSameLength (getMask inversed h) rest false = (getMask inversed h,rest) := by
        rw [setSameLength,if_pos (head.trans restLength.symm)]
      obtain ⟨m,made,mLength,mPlain,first,second⟩ := logand_spec (head.trans restLength.symm) plain_getMask plain
      refine ⟨m,?_,mLength.trans head,mPlain,fun s member => ?_⟩
      · rw [specListMask,done]
        simp only [Option.bind_eq_bind,Option.bind_some,same,made]
        exact nofun
      · rcases List.mem_cons.mp member with rfl | later
        · exact first
        · exact fun p set => inside s later p (second p set)

structure Good (inversed : Bool) (n : Nat) (t : DecTree) : Prop where
  sizes : ∀ s ∈ t.specs, s.size = n
  mask : t.mask.length = orderedLength inversed n
  common : t.common.length = orderedLength inversed n
  within : ∀ s ∈ t.specs, Within t.mask (getMask inversed s)

variable {t : DecTree}

theorem Good.length (good : Good inversed n t) {s : Spec} (member : s ∈ t.specs) :
    t.mask.length = (fixedBits inversed s).length := by
  rw [good.mask,length_fixedBits,good.sizes s member]

def valueOn (inversed : Bool) (mask : Bitmask) (s : Spec) : Bitmask :=
  (maskedValue (getValueMask inversed s) mask).getD []

theorem Good.value (good : Good inversed n t) {s : Spec} (member : s ∈ t.specs) :
    maskedValue (getValueMask inversed s) t.mask = some (valueOn inversed t.mask s) ∧
      .x ∉ valueOn inversed t.mask s ∧ (valueOn inversed t.mask s).length = bitCount t.mask := by
  obtain ⟨v,done,plain,length⟩ := maskedValue_spec (good.within s member) (good.length member)
  have same : valueOn inversed t.mask s = v := by rw [valueOn,done,Option.getD_some]
  rw [same]
  exact ⟨done,plain,length⟩

/-- The sons of a node with more than one instruction: each has the instructions with one
    value on the mask of the node, and there are at least two. -/
structure SonsOf (inversed : Bool) (n : Nat) (t : DecTree) (sons : List DecTree) : Prop where
  good : ∀ s ∈ sons, Good inversed n s
  name : ∀ s ∈ sons, ∃ v, s.name = t.name ++ [v] ∧ ∀ x ∈ s.specs, x ∈ t.specs ∧ valueOn inversed t.mask x = v
  some_ : ∀ s ∈ sons, s.specs ≠ []
  smaller : ∀ s ∈ sons, s.specs.length < t.specs.length
  all : ∀ x ∈ t.specs, ∃ s ∈ sons, x ∈ s.specs
  unique : ∀ s ∈ sons, ∀ s' ∈ sons, s.name = s'.name → s = s'
  two : ∃ s ∈ sons, ∃ s' ∈ sons, s ≠ s'

def sonOf (inversed : Bool) (t : DecTree) (group : Bitmask × List Spec) : DecTree :=
  let common := (specListMask inversed group.2).getD []
  ⟨t.name ++ [group.1],group.2,(unmask common t.common).getD [],common⟩

theorem sonOf_spec (good : Good inversed n t) {group : Bitmask × List Spec} (some_ : group.2 ≠ [])
    (inside : ∀ s ∈ group.2, s ∈ t.specs) :
    ((specListMask inversed group.2).bind fun common => (unmask common t.common).bind fun mask =>
      some (⟨t.name ++ [group.1],group.2,mask,common⟩ : DecTree)) = some (sonOf inversed t group) ∧
    Good inversed n (sonOf inversed t group) := by
  have sizes : ∀ s ∈ group.2, s.size = n := fun s member => good.sizes s (inside s member)
  obtain ⟨common,done,length,plain,within⟩ := specListMask_spec inversed some_ sizes
  obtain ⟨mask,removed,maskLength,less⟩ := unmask_spec (length.trans good.common.symm) plain
  have made : sonOf inversed t group = ⟨t.name ++ [group.1],group.2,mask,common⟩ := by
    simp [sonOf,done,removed]
  rw [made]
  refine ⟨by simp [done,removed],sizes,maskLength.trans length,length,fun s member p set => ?_⟩
  exact within s member p (less p set)

theorem length_lt_sum {groups : List (Bitmask × List Spec)} (some_ : ∀ g ∈ groups, g.2 ≠ [])
    (two : 2 ≤ groups.length) {g : Bitmask × List Spec} (member : g ∈ groups) :
    g.2.length < (groups.map fun g => g.2.length).sum := by
  obtain ⟨before,after,rfl⟩ := List.append_of_mem member
  cases rest : before ++ after with
  | nil =>
    rw [List.append_eq_nil_iff] at rest
    simp [rest.1,rest.2] at two
  | cons h others =>
    have inside : h ∈ before ++ after := rest ▸ List.mem_cons_self
    have listed : h ∈ before ++ g :: after := by
      rcases List.mem_append.mp inside with left | right
      · exact List.mem_append_left _ left
      · exact List.mem_append_right _ (List.mem_cons_of_mem g right)
    have positive : 0 < h.2.length := List.length_pos_iff.mpr (some_ h listed)
    have sum := congrArg (fun groups => (groups.map fun g : Bitmask × List Spec => g.2.length).sum) rest
    simp only [List.map_append,List.map_cons,List.sum_append,List.sum_cons] at sum ⊢
    omega

/-- The values of the instructions of a node. -/
def valuesOf (inversed : Bool) (t : DecTree) : List (Bitmask × Spec) :=
  t.specs.map fun s => (valueOn inversed t.mask s,s)

theorem mem_group {gs : List (Bitmask × List Spec)} (groups : Groups (valuesOf inversed t) gs)
    {g : Bitmask × List Spec} (member : g ∈ gs) {s : Spec} (inside : s ∈ g.2) :
    s ∈ t.specs ∧ valueOn inversed t.mask s = g.1 := by
  obtain ⟨x,spec,same⟩ := List.mem_map.mp ((groups.sound g member).2 s inside)
  obtain ⟨value,rfl⟩ := Prod.mk.inj same
  exact ⟨spec,value⟩

theorem sonsOf_groups (good : Good inversed n t) {gs : List (Bitmask × List Spec)}
    (groups : Groups (valuesOf inversed t) gs) (two : 2 ≤ gs.length) :
    SonsOf inversed n t (gs.map (sonOf inversed t)) where
  good := by
    intro s member
    obtain ⟨g,group,rfl⟩ := List.mem_map.mp member
    exact (sonOf_spec good (groups.sound g group).1 fun x inside => (mem_group groups group inside).1).2
  name := by
    intro s member
    obtain ⟨g,group,rfl⟩ := List.mem_map.mp member
    exact ⟨g.1,rfl,fun x inside => mem_group groups group inside⟩
  some_ := by
    intro s member
    obtain ⟨g,group,rfl⟩ := List.mem_map.mp member
    exact (groups.sound g group).1
  smaller := by
    intro s member
    obtain ⟨g,group,rfl⟩ := List.mem_map.mp member
    have less := length_lt_sum (fun g group => (groups.sound g group).1) two group
    rw [groups.count,valuesOf,List.length_map] at less
    exact less
  all := by
    intro x spec
    obtain ⟨g,group,-,inside⟩ := groups.complete _ (List.mem_map_of_mem spec)
    exact ⟨sonOf inversed t g,List.mem_map_of_mem group,inside⟩
  unique := by
    intro s member s' member' same
    obtain ⟨g,group,rfl⟩ := List.mem_map.mp member
    obtain ⟨h,group',rfl⟩ := List.mem_map.mp member'
    have key : g.1 = h.1 := List.singleton_inj.mp (List.append_cancel_left same)
    rw [List.inj_on_of_nodup_map groups.keys group group' key]
  two := by
    rcases gs with - | ⟨g,- | ⟨h,rest⟩⟩
    · simp at two
    · simp at two
    · refine ⟨_,List.mem_map_of_mem List.mem_cons_self,_,
        List.mem_map_of_mem (List.mem_cons_of_mem g List.mem_cons_self),fun same => ?_⟩
      have key : g.1 = h.1 := List.singleton_inj.mp (List.append_cancel_left (congrArg DecTree.name same))
      have keys := groups.keys
      simp [key] at keys

theorem buildSonsOfTree_spec (good : Good inversed n t) (many : 1 < t.specs.length) :
    (∃ same, buildSonsOfTree inversed t = .error (.sameImage same)) ∨
      ∃ sons, buildSonsOfTree inversed t = .ok sons ∧ SonsOf inversed n t sons := by
  have listed : createSonList inversed t = some (valuesOf inversed t) := by
    refine mapM_some fun s member => ?_
    rw [(good.value member).1]
    rfl
  have groups := groups_sortSonList (valuesOf inversed t)
  generalize sorted : sortSonList (valuesOf inversed t) = gs at groups
  have built : buildDectrees inversed gs t.common t.name = some (gs.map (sonOf inversed t)) :=
    mapM_some fun g member =>
      (sonOf_spec good (groups.sound g member).1 fun s inside => (mem_group groups member inside).1).1
  have count : (gs.map fun g => g.2.length).sum = t.specs.length := by
    rw [groups.count,valuesOf,List.length_map]
  have sons (two : 2 ≤ gs.length) := sonsOf_groups good groups two
  rcases gs with - | ⟨g,- | ⟨h,rest⟩⟩
  · simp at count
    omega
  · -- one group has all the instructions
    have all : g.2.length = t.specs.length := by simpa using count
    left
    refine ⟨(sonOf inversed t g).specs,?_⟩
    rw [buildSonsOfTree,listed,Option.bind_some,sorted,built]
    exact if_pos (show 1 < g.2.length by omega)
  · right
    refine ⟨(g :: h :: rest).map (sonOf inversed t),?_,sons (by simp)⟩
    rw [buildSonsOfTree,listed,Option.bind_some,sorted,built]
    rfl

end

/-! ### The nodes as a tree -/

section
variable (inversed : Bool)

def subtree : Nat → DecTree → List DecTree
  | 0, d => [d]
  | turns + 1, d =>
    if d.specs.length ≤ 1 then [d]
    else
      match buildSonsOfTree inversed d with
      | .ok sons => d.emptied :: sons.flatMap (subtree turns)
      | .error _ => [d]

end

section
variable {inversed : Bool} {n : Nat}

theorem subtree_leaf {d : DecTree} (leaf : d.specs.length ≤ 1) (turns : Nat) : subtree inversed turns d = [d] := by
  cases turns with
  | zero => rfl
  | succ turns => exact if_pos leaf

theorem subtree_node {d : DecTree} (many : 1 < d.specs.length) {sons : List DecTree}
    (split : buildSonsOfTree inversed d = .ok sons) (turns : Nat) :
    subtree inversed (turns + 1) d = d.emptied :: sons.flatMap (subtree inversed turns) := by
  rw [subtree,if_neg (by omega),split]

theorem getSons_subtree {d : DecTree} {part : List DecTree} (made : getSons inversed d = .ok part) (turns : Nat) :
    part.flatMap (subtree inversed turns) = subtree inversed (turns + 1) d := by
  rw [getSons] at made
  split at made
  case isTrue many =>
    cases split : buildSonsOfTree inversed d with
    | error e => simp [split,Except.map] at made
    | ok sons =>
      simp only [split,Except.map,Except.ok.injEq] at made
      rw [← made,List.flatMap_cons,subtree_leaf (by simp [DecTree.emptied]),subtree_node many split]
      rfl
  case isFalse few =>
    cases made
    rw [List.flatMap_singleton,subtree_leaf (by omega),subtree_leaf (by omega)]

theorem mapM_getSons_subtree {dl : List DecTree} {parts : List (List DecTree)}
    (made : dl.mapM (getSons inversed) = .ok parts) (turns : Nat) :
    parts.flatten.flatMap (subtree inversed turns) = dl.flatMap (subtree inversed (turns + 1)) := by
  induction dl generalizing parts with
  | nil => cases made; rfl
  | cons d rest ih =>
    rw [List.mapM_cons] at made
    cases first : getSons inversed d with
    | error e => simp [first,bind,Except.bind] at made
    | ok part =>
      cases others : rest.mapM (getSons inversed) with
      | error e => simp [first,others,bind,Except.bind] at made
      | ok parts' =>
        simp only [first,others,bind,Except.bind,pure,Except.pure,Except.ok.injEq] at made
        rw [← made,List.flatten_cons,List.flatMap_append,ih others,getSons_subtree first,List.flatMap_cons]

theorem splitNodes_subtree {turns : Nat} {dl nodes : List DecTree}
    (made : splitNodes inversed turns dl = some (.ok nodes)) :
    nodes = dl.flatMap (subtree inversed turns) ∧ ∀ d ∈ nodes, d.specs.length ≤ 1 := by
  induction turns generalizing dl with
  | zero => cases made
  | succ turns ih =>
    rw [splitNodes] at made
    split at made
    case isTrue stop =>
      simp only [Option.some.injEq,Except.ok.injEq] at made
      subst made
      have few : ∀ d ∈ dl, d.specs.length ≤ 1 := by simpa [stopCond] using stop
      refine ⟨?_,few⟩
      rw [List.flatMap_congr fun d member => subtree_leaf (few d member) (turns + 1)]
      simp
    case isFalse =>
      split at made
      case h_1 => simp at made
      case h_2 parts split_ =>
        obtain ⟨all,few⟩ := ih made
        exact ⟨by rw [all,mapM_getSons_subtree split_],few⟩

private theorem mapM_error {A B E : Type} {f : A → Except E B} {xs : List A} {e : E} (failed : xs.mapM f = .error e) :
    ∃ a ∈ xs, f a = .error e := by
  induction xs with
  | nil => cases failed
  | cons a rest ih =>
    rw [List.mapM_cons] at failed
    cases first : f a with
    | error e' =>
      simp only [first,bind,Except.bind,Except.error.injEq] at failed
      exact ⟨a,List.mem_cons_self,by rw [first,failed]⟩
    | ok b =>
      cases others : rest.mapM f with
      | error e' =>
        simp only [first,others,bind,Except.bind,Except.error.injEq] at failed
        obtain ⟨c,member,known⟩ := ih (by rw [others,failed])
        exact ⟨c,List.mem_cons_of_mem a member,known⟩
      | ok bs => simp [first,others,bind,Except.bind,pure,Except.pure] at failed

private theorem mem_mapM {A B E : Type} {f : A → Except E B} {xs : List A} {ys : List B} (made : xs.mapM f = .ok ys)
    {b : B} (member : b ∈ ys) : ∃ a ∈ xs, f a = .ok b := by
  induction xs generalizing ys with
  | nil => cases made; cases member
  | cons a rest ih =>
    rw [List.mapM_cons] at made
    cases first : f a with
    | error e => simp [first,bind,Except.bind] at made
    | ok b' =>
      cases others : rest.mapM f with
      | error e => simp [first,others,bind,Except.bind] at made
      | ok bs =>
        simp only [first,others,bind,Except.bind,pure,Except.pure,Except.ok.injEq] at made
        subst made
        rcases List.mem_cons.mp member with rfl | later
        · exact ⟨a,List.mem_cons_self,first⟩
        · obtain ⟨c,inside,known⟩ := ih others later
          exact ⟨c,List.mem_cons_of_mem a inside,known⟩

theorem getSons_spec {d : DecTree} (good : Good inversed n d) :
    (∃ same, getSons inversed d = .error (.sameImage same)) ∨
      ∃ part, getSons inversed d = .ok part ∧ ∀ e ∈ part, Good inversed n e ∧
        (e.specs.length ≤ 1 ∨ e.specs.length < d.specs.length) := by
  by_cases many : 1 < d.specs.length
  · rcases buildSonsOfTree_spec good many with ⟨same,failed⟩ | ⟨sons,split,known⟩
    · exact .inl ⟨same,by rw [getSons,if_pos many,failed]; rfl⟩
    · refine .inr ⟨d.emptied :: sons,by rw [getSons,if_pos many,split]; rfl,fun e member => ?_⟩
      rcases List.mem_cons.mp member with rfl | son
      · exact ⟨⟨nofun,good.mask,good.common,nofun⟩,.inl (Nat.zero_le 1)⟩
      · exact ⟨known.good e son,.inr (known.smaller e son)⟩
  · refine .inr ⟨[d],by rw [getSons,if_neg many],fun e member => ?_⟩
    rw [List.mem_singleton.mp member]
    exact ⟨good,.inl (by omega)⟩

/-- The loop ends: each turn makes the largest nodes smaller. -/
theorem splitNodes_returns (turns : Nat) (dl : List DecTree)
    (known : ∀ d ∈ dl, Good inversed n d ∧ d.specs.length ≤ turns + 1) :
    ∃ r, splitNodes inversed (turns + 1) dl = some r ∧ ∀ e, r = .error e → ∃ same, e = .sameImage same := by
  induction turns generalizing dl with
  | zero =>
    have stop : stopCond dl = true := by simpa [stopCond] using fun d member => (known d member).2
    exact ⟨.ok dl,by rw [splitNodes,if_pos stop],nofun⟩
  | succ turns ih =>
    rw [splitNodes]
    split
    case isTrue => exact ⟨.ok dl,rfl,nofun⟩
    case isFalse =>
      cases split_ : dl.mapM (getSons inversed) with
      | error e =>
        refine ⟨.error e,rfl,fun e' same => ?_⟩
        cases same
        obtain ⟨d,member,failed⟩ := mapM_error split_
        rcases getSons_spec (known d member).1 with ⟨same,known⟩ | ⟨part,made,-⟩
        · rw [known] at failed
          cases failed
          exact ⟨same,rfl⟩
        · rw [made] at failed
          cases failed
      | ok parts =>
        refine ih _ fun e member => ?_
        obtain ⟨part,inside,here⟩ := List.mem_flatten.mp member
        obtain ⟨d,listed,made⟩ := mem_mapM split_ inside
        rcases getSons_spec (known d listed).1 with ⟨same,failed⟩ | ⟨part',made',all⟩
        · rw [failed] at made
          cases made
        · rw [made'] at made
          cases made
          obtain ⟨good,size⟩ := all e here
          have before := (known d listed).2
          exact ⟨good,by omega⟩

theorem subtree_cases {turns : Nat} {d e : DecTree} (member : e ∈ subtree inversed (turns + 1) d) :
    e = d ∧ (d.specs.length ≤ 1 ∨ ∃ failure, buildSonsOfTree inversed d = .error failure) ∨
      1 < d.specs.length ∧ ∃ sons, buildSonsOfTree inversed d = .ok sons ∧
        (e = d.emptied ∨ ∃ s ∈ sons, e ∈ subtree inversed turns s) := by
  rw [subtree] at member
  split at member
  case isTrue few => exact .inl ⟨List.mem_singleton.mp member,.inl few⟩
  case isFalse many =>
    cases split_ : buildSonsOfTree inversed d with
    | error failure =>
      simp only [split_] at member
      exact .inl ⟨List.mem_singleton.mp member,.inr ⟨failure,rfl⟩⟩
    | ok sons =>
      simp only [split_] at member
      refine .inr ⟨by omega,sons,rfl,?_⟩
      rcases List.mem_cons.mp member with here | below
      · exact .inl here
      · exact .inr (List.mem_flatMap.mp below)

theorem prefix_subtree {turns : Nat} {d e : DecTree} (good : Good inversed n d)
    (member : e ∈ subtree inversed turns d) : d.name <+: e.name := by
  induction turns generalizing d with
  | zero =>
    rw [List.mem_singleton.mp member]
  | succ turns ih =>
    rcases subtree_cases member with ⟨rfl,-⟩ | ⟨many,sons,split,rfl | ⟨s,son,below⟩⟩
    · exact List.prefix_rfl
    · exact List.prefix_rfl
    · rcases buildSonsOfTree_spec good many with ⟨same,failed⟩ | ⟨sons',split',known⟩
      · rw [failed] at split
        cases split
      · rw [split'] at split
        cases split
        obtain ⟨v,name,-⟩ := known.name s son
        exact (name ▸ List.prefix_append d.name [v]).trans (ih (known.good s son) below)

theorem named_subtree (inversed : Bool) (turns : Nat) (d : DecTree) :
    ∃ e ∈ subtree inversed turns d, e.name = d.name := by
  cases turns with
  | zero => exact ⟨d,List.mem_singleton_self d,rfl⟩
  | succ turns =>
    rw [subtree]
    split
    case isTrue => exact ⟨d,List.mem_singleton_self d,rfl⟩
    case isFalse =>
      split
      · exact ⟨d.emptied,List.mem_cons_self,rfl⟩
      · exact ⟨d,List.mem_singleton_self d,rfl⟩

theorem eq_of_name {turns : Nat} {d e : DecTree} (good : Good inversed n d) (member : e ∈ subtree inversed turns d)
    (few : e.specs.length ≤ 1) (same : e.name = d.name) :
    e = if d.specs.length ≤ 1 then d else d.emptied := by
  cases turns with
  | zero =>
    have here := List.mem_singleton.mp member
    rw [if_pos (here ▸ few),here]
  | succ turns =>
    rcases subtree_cases member with ⟨rfl,-⟩ | ⟨many,sons,split,rfl | ⟨s,son,below⟩⟩
    · rw [if_pos few]
    · rw [if_neg (by omega)]
    · rcases buildSonsOfTree_spec good many with ⟨same,failed⟩ | ⟨sons',split',known⟩
      · rw [failed] at split
        cases split
      · rw [split'] at split
        cases split
        obtain ⟨v,name,-⟩ := known.name s son
        have longer := (prefix_subtree (known.good s son) below).length_le
        rw [name,same,List.length_append,List.length_singleton] at longer
        omega

end

end Otawa.Gep
