import Otawa.FetchNodes

/-!
The fetch tables of an instruction set. A table is made for each decoding node that was
split, and the generated loop goes from table to table by the value of the word on their
masks. As long as no mask is too large for a table, the loop leads each word that agrees
with the fixed bits of an instruction to this instruction (`fetch_finds`).
-/
namespace Otawa.Gep

/-! ### Tables -/

/-- `Decode_Ent`: the instruction, or none for the unknown one, or the name of a table. -/
inductive Entry
  | instruction (name : Option String) | table (name : List Bitmask)
  deriving DecidableEq

/-- `Table_Decodage` with the name and the mask of its node; there is no entry past the
    end of the table. -/
structure Table where
  name : List Bitmask
  mask : Bitmask
  entry : Nat → Option Entry

def isSon (d1 d2 : DecTree) : Bool := d1.name.length = d2.name.length + 1 && d2.name.isPrefixOf d1.name

def findSonsOfNode (node : DecTree) (dl : List DecTree) : List DecTree := dl.filter fun d => isSon d node

/-- `exists_in` and `get_i_th_son`: the first son whose last value is the number. -/
def getIthSon (i : Nat) : List DecTree → Option (Option DecTree)
  | [] => some none
  | d :: rest =>
    match d.name.getLast? with
    | none => getIthSon i rest
    | some v =>
      match toInt v with
      | none => none
      | some n => if n = i then some (some d) else getIthSon i rest

/-- `produce_i_th_son`: a son with an instruction is terminal. -/
def produceIthSon (sons : List DecTree) (i : Nat) : Option Entry :=
  (getIthSon i sons).map fun son =>
    match son with
    | none => .instruction none
    | some d =>
      match d.specs with
      | x :: _ => .instruction (some x.name)
      | [] => .table d.name

/-- `output_table_C_decl`: fails on a mask of more than 32 bits, and makes no table for a
    terminal node. -/
def outputTable (dl : List DecTree) (dt : DecTree) : Option (Option Table) :=
  if bitCount dt.mask > 32 then none
  else if dt.specs ≠ [] then some none
  else some (some ⟨dt.name,dt.mask,
    fun i => if i < 2 ^ bitCount dt.mask then produceIthSon (findSonsOfNode dt dl) i else none⟩)

/-- `String.compare` on the texts of two masks, where an X is after the digits. -/
def compareMask : Bitmask → Bitmask → Int
  | [], [] => 0
  | [], _ => -1
  | _, [] => 1
  | a :: x, b :: y =>
    if a = b then compareMask x y
    else
      match a, b with
      | .zero, _ => -1
      | .one, .x => -1
      | _, _ => 1

/-- `comp_gen_int_list`. -/
def compareName : List Bitmask → List Bitmask → Int
  | [], _ => -1
  | _, [] => 1
  | x1 :: x2, y1 :: y2 => if compareMask x1 y1 = 0 then compareName x2 y2 else compareMask x1 y1

def sortDectreeList (dl : List DecTree) : List DecTree := dl.mergeSort fun x y => compareName y.name x.name ≤ 0

/-- `output_table`: the tables that are declared. -/
def outputTables (nodes : List DecTree) : Option (List Table) :=
  ((sortDectreeList nodes).mapM (outputTable (sortDectreeList nodes))).map fun tables => tables.filterMap id

/-- The loop of `fetch`, for at most `fuel` tables, from the table with the name. The value
    of the word on a mask may read more of the word. -/
def walk {S : Type} (value : S → Bitmask → S × Nat) (tables : List Table) :
    Nat → S → List Bitmask → Option (Option String)
  | 0, _, _ => none
  | fuel + 1, s, name => do
    let table ← tables.find? fun t => t.name = name
    let (s,valeur) := value s table.mask
    match ← table.entry valeur with
    | .table next => walk value tables fuel s next
    | .instruction x => some x

/-- `fetch` on words of w bits; the mask is an integer constant in the table. -/
def fetch {w : Nat} (tables : List Table) (fuel : Nat) (code : BitVec w) : Option (Option String) :=
  walk (fun (_ : Unit) mask =>
    ((),((valeurSurMaskBloc code (BitVec.ofNat w (bitsValue (ones mask)))).setWidth w).toNat)) tables fuel () []

def readChunks (memory : Nat → BitVec 32) (length : Nat) : Nat → List (BitVec 32) → List (BitVec 32)
  | 0, code => code
  | turns + 1, code =>
    if 32 * code.length < length then readChunks memory length turns (code ++ [memory code.length]) else code

/-- `fetch` on words in a buffer of chunks, for the sizes that no integer type has. -/
def fetchGeneric (tables : List Table) (fuel : Nat) (memory : Nat → BitVec 32) : Option (Option String) :=
  walk (fun code mask =>
    let code := readChunks memory mask.length mask.length code
    (code,(valueOnMask ⟨code,32 * code.length⟩ ⟨toInt32List mask,mask.length⟩).toNat)) tables fuel [] []

/-- The sizes `fetch_sizes` of the integer types. -/
def fetchSizes : List Nat := [8,16,32,64]

def tableOf (dl : List DecTree) (dt : DecTree) : Table :=
  ⟨dt.name,dt.mask,fun i => if i < 2 ^ bitCount dt.mask then produceIthSon (findSonsOfNode dt dl) i else none⟩

@[simp] theorem mem_sortDectreeList {nodes : List DecTree} {d : DecTree} : d ∈ sortDectreeList nodes ↔ d ∈ nodes :=
  (List.mergeSort_perm nodes _).mem_iff

theorem outputTables_spec {nodes : List DecTree} (small : ∀ d ∈ nodes, bitCount d.mask ≤ 32) :
    ∃ tables, outputTables nodes = some tables ∧
      ∀ t, t ∈ tables ↔ ∃ d ∈ nodes, d.specs = [] ∧ t = tableOf (sortDectreeList nodes) d := by
  refine ⟨((sortDectreeList nodes).map fun d =>
    if d.specs ≠ [] then none else some (tableOf (sortDectreeList nodes) d)).filterMap id,?_,fun t => ?_⟩
  · rw [outputTables,mapM_some (g := fun d =>
      if d.specs ≠ [] then none else some (tableOf (sortDectreeList nodes) d))]
    · rfl
    · intro d member
      rw [outputTable,if_neg (by have := small d (mem_sortDectreeList.mp member); omega)]
      split <;> rfl
  · simp only [List.mem_filterMap,List.mem_map,mem_sortDectreeList,id]
    constructor
    · rintro ⟨made,⟨d,member,rfl⟩,kept⟩
      split at kept
      case isTrue => cases kept
      case isFalse split_ => exact ⟨d,member,not_not.mp split_,(Option.some.inj kept).symm⟩
    · rintro ⟨d,member,split_,rfl⟩
      exact ⟨some (tableOf (sortDectreeList nodes) d),⟨d,member,by rw [if_neg (by simp [split_])]⟩,rfl⟩

theorem outputTables_refused {nodes : List DecTree} {d : DecTree} (member : d ∈ nodes) (large : 32 < bitCount d.mask) :
    outputTables nodes = none := by
  have fails (dl : List DecTree) : ∀ xs : List DecTree, d ∈ xs → xs.mapM (outputTable dl) = none := by
    intro xs
    induction xs with
    | nil => exact nofun
    | cons e rest ih =>
      intro member
      rw [List.mapM_cons]
      rcases List.mem_cons.mp member with rfl | later
      · rw [outputTable,if_pos large]
        rfl
      · rw [ih later]
        cases outputTable dl e <;> rfl
  rw [outputTables,fails _ _ (mem_sortDectreeList.mpr member)]
  rfl

theorem getIthSon_spec (sons : List DecTree) {i : Nat}
    (numbers : ∀ d ∈ sons, ∃ v m, d.name.getLast? = some v ∧ toInt v = some m)
    (exists_ : ∃ d ∈ sons, ∃ v, d.name.getLast? = some v ∧ toInt v = some (i : Int)) :
    ∃ d ∈ sons, getIthSon i sons = some (some d) ∧
      ∃ v, d.name.getLast? = some v ∧ toInt v = some (i : Int) := by
  induction sons with
  | nil => simp at exists_
  | cons e rest ih =>
    obtain ⟨v,m,last,number⟩ := numbers e List.mem_cons_self
    by_cases here : m = i
    · subst here
      exact ⟨e,List.mem_cons_self,by simp [getIthSon,last,number],v,last,number⟩
    · have later : ∃ d ∈ rest, ∃ v, d.name.getLast? = some v ∧ toInt v = some (i : Int) := by
        obtain ⟨d,member,v',last',number'⟩ := exists_
        rcases List.mem_cons.mp member with rfl | inside
        · rw [last] at last'
          cases last'
          rw [number] at number'
          cases number'
          exact absurd rfl here
        · exact ⟨d,inside,v',last',number'⟩
      obtain ⟨d,member,got,known⟩ := ih (fun d inside => numbers d (List.mem_cons_of_mem e inside)) later
      exact ⟨d,List.mem_cons_of_mem e member,by simp [getIthSon,last,number,here,got],known⟩

theorem isSon_iff {d1 d2 : DecTree} :
    isSon d1 d2 = true ↔ d1.name.length = d2.name.length + 1 ∧ d2.name <+: d1.name := by
  simp [isSon]

/-! ### The walk through the tables -/

section
variable {inversed : Bool} {n : Nat} {nodes : List DecTree} {d s : DecTree} {sons : List DecTree} {turns : Nat}

structure Holds (inversed : Bool) (nodes : List DecTree) (turns : Nat) (d : DecTree) : Prop where
  below : ∀ e ∈ subtree inversed turns d, e ∈ nodes
  only : ∀ e ∈ nodes, d.name <+: e.name → e ∈ subtree inversed turns d

theorem SonsOf.holds (known : SonsOf inversed n d sons) (split : buildSonsOfTree inversed d = .ok sons)
    (many : 1 < d.specs.length) (holds : Holds inversed nodes (turns + 1) d) (son : s ∈ sons) :
    Holds inversed nodes turns s where
  below := fun e member => holds.below e (by
    rw [subtree_node many split]
    exact List.mem_cons_of_mem _ (List.mem_flatMap.mpr ⟨s,son,member⟩))
  only := by
    intro e member begins
    obtain ⟨v,name,-⟩ := known.name s son
    have longer : d.name.length + 1 ≤ e.name.length := by
      have length := begins.length_le
      rwa [name,List.length_append,List.length_singleton] at length
    have inside := holds.only e member ((name ▸ List.prefix_append d.name [v]).trans begins)
    rw [subtree_node many split] at inside
    rcases List.mem_cons.mp inside with rfl | below
    · simp [DecTree.emptied] at longer
    · obtain ⟨s',son',below⟩ := List.mem_flatMap.mp below
      obtain ⟨v',name',-⟩ := known.name s' son'
      have begins' := prefix_subtree (known.good s' son') below
      have same : s'.name = s.name := by
        have lengths : s'.name.length = s.name.length := by simp [name,name']
        exact (List.prefix_of_prefix_length_le begins' begins lengths.le).eq_of_length lengths
      rwa [known.unique s' son' s son same] at below

theorem mem_findSonsOfNode (known : SonsOf inversed n d sons) (split : buildSonsOfTree inversed d = .ok sons)
    (many : 1 < d.specs.length) (holds : Holds inversed nodes (turns + 1) d)
    (few : ∀ e ∈ nodes, e.specs.length ≤ 1) {e : DecTree} :
    e ∈ findSonsOfNode d.emptied (sortDectreeList nodes) ↔
      ∃ s ∈ sons, e = if s.specs.length ≤ 1 then s else s.emptied := by
  rw [findSonsOfNode,List.mem_filter,mem_sortDectreeList,isSon_iff]
  constructor
  · rintro ⟨member,length,begins⟩
    have inside := holds.only e member begins
    rw [subtree_node many split] at inside
    rcases List.mem_cons.mp inside with rfl | below
    · exact absurd length (Nat.succ_ne_self _).symm
    · obtain ⟨s,son,below⟩ := List.mem_flatMap.mp below
      obtain ⟨v,name,-⟩ := known.name s son
      have begins := prefix_subtree (known.good s son) below
      have lengths : s.name.length = e.name.length := by
        rw [name,length]
        simp [DecTree.emptied]
      exact ⟨s,son,eq_of_name (known.good s son) below (few e member) (begins.eq_of_length lengths).symm⟩
  · rintro ⟨s,son,same⟩
    obtain ⟨v,name,-⟩ := known.name s son
    obtain ⟨e',below,named⟩ := named_subtree inversed turns s
    have member : e' ∈ nodes := (known.holds split many holds son).below e' below
    have kept := eq_of_name (known.good s son) below (few e' member) named
    rw [← same] at kept
    subst kept
    refine ⟨member,?_,?_⟩
    · simp [named,name,DecTree.emptied]
    · rw [named,name]
      exact List.prefix_append d.name [v]

theorem SonsOf.bitCount_pos (good : Good inversed n d) (known : SonsOf inversed n d sons) : 0 < bitCount d.mask := by
  by_contra none
  obtain ⟨s,son,s',son',other⟩ := known.two
  have empty (s : DecTree) (son : s ∈ sons) : s.name = d.name ++ [[]] := by
    obtain ⟨v,name,values⟩ := known.name s son
    obtain ⟨x,inside⟩ := List.exists_mem_of_ne_nil _ (known.some_ s son)
    obtain ⟨spec,value⟩ := values x inside
    have length := (good.value spec).2.2
    rw [value,Nat.eq_zero_of_not_pos none] at length
    rw [name,List.eq_nil_of_length_eq_zero length]
  exact other (known.unique s son s' son' ((empty s son).trans (empty s' son').symm))

theorem SonsOf.number (good : Good inversed n d) (known : SonsOf inversed n d sons) (short : bitCount d.mask ≤ 31)
    (son : s ∈ sons) : ∃ v, s.name = d.name ++ [v] ∧ toInt v = some (bitsValue (ones v) : Int) ∧ .x ∉ v ∧
      v.length = bitCount d.mask ∧ ∀ x ∈ s.specs, x ∈ d.specs ∧ valueOn inversed d.mask x = v := by
  obtain ⟨v,name,values⟩ := known.name s son
  obtain ⟨x,inside⟩ := List.exists_mem_of_ne_nil _ (known.some_ s son)
  obtain ⟨spec,value⟩ := values x inside
  obtain ⟨-,plain,length⟩ := good.value spec
  rw [value] at plain length
  have some_ : v ≠ [] := by
    rintro rfl
    have positive := known.bitCount_pos good
    simp at length
    omega
  exact ⟨v,name,toInt_eq some_ (by omega) plain,plain,length,values⟩

theorem produceIthSon_spec (good : Good inversed n d) (known : SonsOf inversed n d sons)
    (split : buildSonsOfTree inversed d = .ok sons) (many : 1 < d.specs.length)
    (holds : Holds inversed nodes (turns + 1) d) (few : ∀ e ∈ nodes, e.specs.length ≤ 1)
    (short : bitCount d.mask ≤ 31) {spec : Spec} {bits : List Bool} (member : spec ∈ d.specs)
    (agrees : Agrees inversed spec bits) (long : d.mask.length ≤ bits.length) :
    ∃ s ∈ sons, spec ∈ s.specs ∧
      produceIthSon (findSonsOfNode d.emptied (sortDectreeList nodes)) (bitsValue (select (ones d.mask) bits)) =
        some (if s.specs.length ≤ 1 then .instruction (some spec.name) else .table s.name) := by
  obtain ⟨s,son,inside⟩ := known.all spec member
  refine ⟨s,son,inside,?_⟩
  obtain ⟨v,name,number,plain,length,values⟩ := known.number good short son
  have value : v = (select (ones d.mask) bits).map digitOf := by
    rw [← (values spec inside).2,valueOn,
      maskedValue_of_agrees (good.within spec member) (good.length member) long agrees,Option.getD_some]
  have read : toInt v = some (bitsValue (select (ones d.mask) bits) : Int) := by
    rw [number,value,ones_digits]
  have nameOf (s : DecTree) : (if s.specs.length ≤ 1 then s else s.emptied).name = s.name := by
    split <;> rfl
  have found (e : DecTree) := mem_findSonsOfNode known split many holds few (e := e)
  obtain ⟨e,listed,got,w,last,same⟩ := getIthSon_spec (findSonsOfNode d.emptied (sortDectreeList nodes))
    (fun e listed => by
      obtain ⟨s',son',rfl⟩ := (found e).mp listed
      obtain ⟨v',name',number',-⟩ := known.number good short son'
      exact ⟨v',_,by rw [nameOf,name',List.getLast?_concat],number'⟩)
    ⟨_,(found _).mpr ⟨s,son,rfl⟩,v,by rw [nameOf,name,List.getLast?_concat],read⟩
  obtain ⟨s',son',rfl⟩ := (found e).mp listed
  obtain ⟨v',name',number',plain',length',-⟩ := known.number good short son'
  rw [nameOf,name',List.getLast?_concat,Option.some.injEq] at last
  subst last
  have equal : v' = v := by
    refine ones_inj plain' plain (bitsValue_inj (by simp [length,length']) ?_)
    rw [number'] at same
    rw [number] at read
    have left := Option.some.inj same
    have right := Option.some.inj read
    omega
  obtain rfl : s' = s := known.unique s' son' s son (by rw [name,name',equal])
  rw [produceIthSon,got]
  split
  case isTrue leaf =>
    obtain ⟨x,only⟩ := List.length_eq_one_iff.mp (Nat.le_antisymm leaf (List.length_pos_of_mem inside))
    rw [only,List.mem_singleton] at inside
    simp [only,inside]
  case isFalse => rfl

theorem walk_finds {S : Type} {value : S → Bitmask → S × Nat} (reading : S → Prop) {bits : List Bool}
    (long : orderedLength inversed n ≤ bits.length)
    (reads : ∀ s mask, reading s → mask.length = orderedLength inversed n → bitCount mask ≤ 31 →
      reading (value s mask).1 ∧ (value s mask).2 = bitsValue (select (ones mask) bits))
    {tables : List Table}
    (made : ∀ t, t ∈ tables ↔ ∃ e ∈ nodes, e.specs = [] ∧ t = tableOf (sortDectreeList nodes) e)
    (few : ∀ e ∈ nodes, e.specs.length ≤ 1) (short : ∀ e ∈ nodes, e.specs = [] → bitCount e.mask ≤ 31)
    (good : Good inversed n d) (many : 1 < d.specs.length) (holds : Holds inversed nodes turns d) {spec : Spec}
    (member : spec ∈ d.specs) (agrees : Agrees inversed spec bits) {state : S} (start : reading state) :
    ∃ fuel, walk value tables fuel state d.name = some (some spec.name) := by
  induction turns generalizing d state with
  | zero =>
    have here := few d (holds.below d (List.mem_singleton_self d))
    omega
  | succ turns ih =>
    rcases buildSonsOfTree_spec good many with ⟨same,failed⟩ | ⟨sons,split,known⟩
    · have whole : subtree inversed (turns + 1) d = [d] := by rw [subtree,if_neg (by omega),failed]
      have here := few d (holds.below d (whole ▸ List.mem_singleton_self d))
      omega
    have node : d.emptied ∈ nodes := holds.below _ (by rw [subtree_node many split]; exact List.mem_cons_self)
    have short' : bitCount d.mask ≤ 31 := short d.emptied node rfl
    -- the only table with the name is the one of the node
    have table : tables.find? (fun t => t.name = d.name) = some (tableOf (sortDectreeList nodes) d.emptied) := by
      have listed := (made _).mpr ⟨d.emptied,node,rfl,rfl⟩
      cases got : tables.find? (fun t => t.name = d.name) with
      | none => exact absurd (decide_eq_true rfl) (List.find?_eq_none.mp got _ listed)
      | some t =>
        obtain ⟨e,inside,empty,rfl⟩ := (made t).mp (List.mem_of_find?_eq_some got)
        have here := List.find?_some got
        have named : e.name = d.name := of_decide_eq_true here
        have below := holds.only e inside (by rw [named])
        rw [eq_of_name good below (few e inside) named,if_neg (by omega)]
    obtain ⟨next,read⟩ := reads state d.mask start good.mask short'
    obtain ⟨s,son,inside,entry⟩ := produceIthSon_spec good known split many holds few short' member agrees
      (good.mask ▸ long)
    have bound : bitsValue (select (ones d.mask) bits) < 2 ^ bitCount d.mask := by
      have less := bitsValue_lt (select (ones d.mask) bits)
      rwa [length_select (by simpa [good.mask] using long)] at less
    have turn (fuel : Nat) : walk value tables (fuel + 1) state d.name =
        match (if s.specs.length ≤ 1 then .instruction (some spec.name) else .table s.name : Entry) with
        | .table next => walk value tables fuel (value state d.mask).1 next
        | .instruction x => some x := by
      rw [walk,table]
      have entry' : (tableOf (sortDectreeList nodes) d.emptied).entry (value state d.mask).2 =
          some (if s.specs.length ≤ 1 then .instruction (some spec.name) else .table s.name) := by
        rw [read,← entry]
        exact if_pos bound
      simp only [Option.bind_eq_bind,Option.bind_some]
      exact (congrArg (fun e => Option.bind e _) entry').trans rfl
    by_cases leaf : s.specs.length ≤ 1
    · exact ⟨1,by rw [turn 0,if_pos leaf]⟩
    · obtain ⟨fuel,found⟩ := ih (known.good s son) (by omega) (known.holds split many holds son) inside next
      exact ⟨fuel + 1,by rw [turn fuel,if_neg leaf]; exact found⟩

end

def memoryBits (memory : Nat → BitVec 32) (n : Nat) : List Bool :=
  (List.range n).map fun p => (memory (p / 32)).getLsbD (31 - p % 32)

theorem fetch_reads {w : Nat} (code : BitVec w) {mask : Bitmask} (length : mask.length = w)
    (short : bitCount mask ≤ 31) :
    ((valeurSurMaskBloc code (BitVec.ofNat w (bitsValue (ones mask)))).setWidth w).toNat =
      bitsValue (select (ones mask) (wordBits code w)) := by
  have less := bitsValue_lt (select (ones mask) (wordBits code w))
  rw [length_select (by simp [wordBits,length])] at less
  have count : bitCount mask ≤ w := by
    rw [← length,← length_ones mask]
    exact List.count_le_length
  have small : bitsValue (select (ones mask) (wordBits code w)) < 2 ^ 32 :=
    Nat.lt_of_lt_of_le less (Nat.pow_le_pow_right (by decide) (by rw [← bitCount]; omega))
  have fits : bitsValue (select (ones mask) (wordBits code w)) < 2 ^ w :=
    Nat.lt_of_lt_of_le less (Nat.pow_le_pow_right (by decide) count)
  rw [valeurSurMaskBloc_eq,wordBits_ofNat length,BitVec.toNat_setWidth,BitVec.toNat_ofNat,Nat.mod_eq_of_lt small,
    Nat.mod_eq_of_lt fits]

def Reading (memory : Nat → BitVec 32) (code : List (BitVec 32)) : Prop :=
  code = (List.range code.length).map memory

theorem readChunks_spec {memory : Nat → BitVec 32} {length : Nat} (turns : Nat) {code : List (BitVec 32)}
    (reading : Reading memory code) (enough : length ≤ 32 * code.length + turns) :
    Reading memory (readChunks memory length turns code) ∧
      length ≤ 32 * (readChunks memory length turns code).length := by
  induction turns generalizing code with
  | zero => exact ⟨reading,enough⟩
  | succ turns ih =>
    rw [readChunks]
    split
    case isTrue =>
      refine ih ?_ (by rw [List.length_append,List.length_singleton]; omega)
      rw [Reading,List.length_append,List.length_singleton,List.range_succ,List.map_append,← reading]
      rfl
    case isFalse => exact ⟨reading,by omega⟩

theorem chunkBit_of_reading {memory : Nat → BitVec 32} {code : List (BitVec 32)} (reading : Reading memory code)
    {i : Nat} (inside : i < 32 * code.length) : chunkBit code i = (memory (i / 32)).getLsbD (31 - i % 32) := by
  have index : i / 32 < code.length := by omega
  have chunk : code[i / 32]? = some (memory (i / 32)) := by
    rw [reading,List.getElem?_map,List.getElem?_range index]
    rfl
  rw [chunkBit,chunk,Option.getD_some]

theorem fetchGeneric_reads {memory : Nat → BitVec 32} {code : List (BitVec 32)} {mask : Bitmask} {n : Nat}
    (reading : Reading memory code) (length : mask.length ≤ n) (short : bitCount mask ≤ 31) :
    Reading memory (readChunks memory mask.length mask.length code) ∧
    (valueOnMask ⟨readChunks memory mask.length mask.length code,
        32 * (readChunks memory mask.length mask.length code).length⟩ ⟨toInt32List mask,mask.length⟩).toNat =
      bitsValue (select (ones mask) (memoryBits memory n)) := by
  obtain ⟨reading',enough⟩ := readChunks_spec mask.length reading (Nat.le_add_left _ _)
  generalize readChunks memory mask.length mask.length code = buffer at reading' enough
  refine ⟨reading',?_⟩
  have masked : ∀ i ∈ List.range mask.length,
      (⟨toInt32List mask,mask.length⟩ : Mask).getBitN i = bitWord ((ones mask)[i]?.getD false) := by
    intro i member
    have inside : i < mask.length := List.mem_range.mp member
    obtain ⟨b,known⟩ : ∃ b, (ones mask)[i]? = some b := ⟨_,List.getElem?_eq_getElem (by simpa using inside)⟩
    rw [getBitN_eq inside,known,Option.getD_some]
    exact congrArg bitWord (chunkBit_toInt32List known)
  have bits : ∀ i ∈ List.range mask.length,
      (⟨buffer,32 * buffer.length⟩ : Mask).getBitN i = bitWord ((memory (i / 32)).getLsbD (31 - i % 32)) := by
    intro i member
    have inside : i < 32 * buffer.length := Nat.lt_of_lt_of_le (List.mem_range.mp member) enough
    rw [getBitN_eq inside]
    exact congrArg bitWord (chunkBit_of_reading reading' inside)
  have positions : (List.range mask.length).map (fun i => (ones mask)[i]?.getD false) = ones mask := by
    apply List.ext_getElem?
    intro i
    by_cases inside : i < mask.length
    · obtain ⟨b,known⟩ : ∃ b, (ones mask)[i]? = some b := ⟨_,List.getElem?_eq_getElem (by simpa using inside)⟩
      rw [List.getElem?_map,List.getElem?_range inside,Option.map_some,known,Option.getD_some]
    · rw [List.getElem?_eq_none (by simpa using inside),List.getElem?_eq_none (by simpa using inside)]
  have same : select (ones mask) (memoryBits memory mask.length) = select (ones mask) (memoryBits memory n) := by
    refine select_congr (by simp [memoryBits]) (by simpa [memoryBits] using length) fun p set => ?_
    have inside : p < mask.length := by simpa using (List.getElem?_eq_some_iff.mp set).1
    rw [memoryBits,memoryBits,List.getElem?_map,List.getElem?_map,List.getElem?_range inside,
      List.getElem?_range (by omega)]
  have loop := valueOnMask_loop masked bits 0
  rw [positions] at loop
  have value : valueOnMask ⟨buffer,32 * buffer.length⟩ ⟨toInt32List mask,mask.length⟩ =
      BitVec.ofNat 32 (bitsValue (select (ones mask) (memoryBits memory mask.length))) := loop
  have less := bitsValue_lt (select (ones mask) (memoryBits memory n))
  rw [length_select (by simpa [memoryBits] using length)] at less
  rw [value,same,BitVec.toNat_ofNat,Nat.mod_eq_of_lt]
  exact Nat.lt_of_lt_of_le less (Nat.pow_le_pow_right (by decide) (by rw [← bitCount]; omega))

/-- The tables made of the nodes lead each word that agrees with the fixed bits of one image
    to its instruction. -/
def Decodes (inversed : Bool) (n : Nat) (specs : List Spec) (nodes : List DecTree) : Prop :=
  ∃ tables, outputTables nodes = some tables ∧
    (n ∈ fetchSizes → ∀ (code : BitVec n) (spec : Spec), AgreesOnly inversed specs spec (wordBits code n) →
      ∃ turns, fetch tables turns code = some (some spec.name)) ∧
    (n ∉ fetchSizes → ∀ (memory : Nat → BitVec 32) (spec : Spec),
      AgreesOnly inversed specs spec (memoryBits memory n) →
      ∃ turns, fetchGeneric tables turns memory = some (some spec.name))

theorem orderedLength_le (inversed : Bool) (n : Nat) : orderedLength inversed n ≤ n := by
  rw [orderedLength]
  split <;> omega

theorem orderedLength_fetchSizes (inversed : Bool) {n : Nat} (size : n ∈ fetchSizes) :
    orderedLength inversed n = n := by
  simp only [fetchSizes,List.mem_cons,List.not_mem_nil,or_false] at size
  rw [orderedLength]
  split <;> omega

/-- The nodes are built or some instructions have the same image. A mask of more than 32
    bits is refused. When the masks of the tables have fewer bits, the tables decode. -/
theorem fetch_finds (inversed : Bool) (n : Nat) (specs : List Spec) (two : 2 ≤ specs.length)
    (sizes : ∀ s ∈ specs, s.size = n) :
    (∃ fuel r, buildDecNodes inversed fuel specs = some r ∧ ∀ e, r = .error e → ∃ same, e = .sameImage same) ∧
    ∀ fuel nodes, buildDecNodes inversed fuel specs = some (.ok nodes) →
      ((∃ d ∈ nodes, 32 < bitCount d.mask) → outputTables nodes = none) ∧
      ((∀ d ∈ nodes, bitCount d.mask ≤ 32) → (∀ d ∈ nodes, d.specs = [] → bitCount d.mask ≤ 31) →
        Decodes inversed n specs nodes) := by
  have some_ : specs ≠ [] := by
    rintro rfl
    simp at two
  obtain ⟨mask,common,length,-,within⟩ := specListMask_spec inversed some_ sizes
  have good : Good inversed n ⟨[],specs,mask,mask⟩ := ⟨sizes,length,length,within⟩
  refine ⟨?_,fun fuel nodes built =>
    ⟨fun ⟨d,member,large⟩ => outputTables_refused member large,fun small short => ?_⟩⟩
  · obtain ⟨r,made,failure⟩ := splitNodes_returns specs.length [⟨[],specs,mask,mask⟩] fun d member => by
      rw [List.mem_singleton.mp member]
      exact ⟨good,Nat.le_succ _⟩
    exact ⟨specs.length + 1,r,by rw [buildDecNodes,common]; exact made,failure⟩
  · rw [buildDecNodes,common] at built
    obtain ⟨all,few⟩ := splitNodes_subtree built
    rw [List.flatMap_singleton] at all
    have holds : Holds inversed nodes fuel ⟨[],specs,mask,mask⟩ :=
      ⟨fun e member => all ▸ member,fun e member _ => all ▸ member⟩
    obtain ⟨tables,output,made⟩ := outputTables_spec small
    refine ⟨tables,output,fun size code spec agrees => ?_,fun _ memory spec agrees => ?_⟩
    · have whole := orderedLength_fetchSizes inversed size
      exact walk_finds (fun _ : Unit => True) (by simp [wordBits,whole])
        (fun _ m _ mLength mShort => ⟨trivial,fetch_reads code (mLength.trans whole) mShort⟩)
        made few short good two holds agrees.1 agrees.2.1 trivial
    · exact walk_finds (Reading memory) (by simpa [memoryBits] using orderedLength_le inversed n)
        (fun _ m reading mLength mShort =>
          fetchGeneric_reads reading (mLength ▸ orderedLength_le inversed n) mShort)
        made few short good two holds agrees.1 agrees.2.1 rfl

/-- Three instructions of 8 bits: the first bit tells the first one, the second bit the two
    others. -/
def threeBytes : List Spec :=
  [⟨"A",[.digit .zero,.field 7]⟩,⟨"B",[.digit .one,.digit .zero,.field 6]⟩,
    ⟨"C",[.digit .one,.digit .one,.digit .x,.digit .x,.field 4]⟩]

theorem fetch_finds_threeBytes : ∃ nodes, buildDecNodes false 3 threeBytes = some (.ok nodes) ∧
    nodes.map (fun d => (d.specs.map Spec.name,bitCount d.mask)) = [([],1),(["A"],0),([],1),(["C"],0),(["B"],0)] ∧
    Decodes false 8 threeBytes nodes := by
  have built : (buildDecNodes false 3 threeBytes).map
      (fun r => r.map fun nodes => nodes.map fun d => (d.specs.map Spec.name,bitCount d.mask)) =
      some (.ok [([],1),(["A"],0),([],1),(["C"],0),(["B"],0)]) := by decide +kernel
  obtain ⟨r,made,shape⟩ := Option.map_eq_some_iff.mp built
  cases r with
  | error e => cases shape
  | ok nodes =>
    have shape : nodes.map (fun d => (d.specs.map Spec.name,bitCount d.mask)) =
        [([],1),(["A"],0),([],1),(["C"],0),(["B"],0)] := Except.ok.inj shape
    have small : ∀ d ∈ nodes, bitCount d.mask ≤ 1 := by
      intro d member
      have listed := List.mem_map_of_mem (f := fun d : DecTree => (d.specs.map Spec.name,bitCount d.mask)) member
      rw [shape] at listed
      simp only [List.mem_cons,Prod.mk.injEq,List.not_mem_nil,or_false] at listed
      omega
    have decodes := ((fetch_finds false 8 threeBytes (by decide) (by decide)).2 3 nodes made).2
      (fun d member => Nat.le_trans (small d member) (by decide))
      (fun d member _ => Nat.le_trans (small d member) (by decide))
    exact ⟨nodes,made,shape,decodes⟩

def twoWords : List Spec :=
  [⟨"A",List.replicate 64 (.digit .zero)⟩,⟨"B",List.replicate 63 (.digit .zero) ++ [.digit .one]⟩]

/-- No table is made for a mask of 64 bits. -/
theorem twoWords_refused : ¬∀ (inversed : Bool) (n : Nat) (specs : List Spec), 2 ≤ specs.length →
    (∀ s ∈ specs, s.size = n) →
    (∃ fuel r, buildDecNodes inversed fuel specs = some r ∧ ∀ e, r = .error e → ∃ same, e = .sameImage same) ∧
    ∀ fuel nodes, buildDecNodes inversed fuel specs = some (.ok nodes) → Decodes inversed n specs nodes := by
  intro decoded
  have built : (buildDecNodes false 3 twoWords).map (fun r => r.map fun nodes => nodes.map fun d => bitCount d.mask) =
      some (.ok [64,0,0]) := by decide +kernel
  obtain ⟨r,made,counts⟩ := Option.map_eq_some_iff.mp built
  cases r with
  | error e => cases counts
  | ok nodes =>
    have counts : nodes.map (fun d => bitCount d.mask) = [64,0,0] := Except.ok.inj counts
    have large : 64 ∈ nodes.map fun d => bitCount d.mask := counts ▸ List.mem_cons_self
    obtain ⟨d,member,count⟩ := List.mem_map.mp large
    obtain ⟨tables,output,-⟩ := (decoded false 64 twoWords (by decide) (by decide)).2 3 nodes made
    rw [outputTables_refused member (by omega)] at output
    cases output

end Otawa.Gep
