import Otawa.OrFusion

/-!
The rewriting of the assignments to the parameters of fused modes (`affect_constraint`): an assignment in a
sequence whose target is one parameter becomes a switch on `__val` of the parameter. What stands under a
condition is not rewritten and a concatenated target stops the pass: a statement is rewritten so that each
assignment goes to the location of the son that the code selects when neither occurs (`modifyStat_iff`).
-/
namespace Otawa.Optirg

/-! ### The pass on a statement -/

def getNamesFromLocation : Location → List String
  | .none => []
  | .ref _ st _ _ _ => [st]
  | .concat _ loc1 loc2 => getNamesFromLocation loc1 ++ getNamesFromLocation loc2

def nameOfTyp : Typ → String
  | .id name => name
  | .expr _ => "TYPE_EXPR"

def stringOfRefExpr : Expr → Option String
  | .ref str => some str
  | .eline _ _ e => stringOfRefExpr e
  | _ => none

def createCaseStat (loc : Location) (expr : Expr) : Expr × Expr → Option (Expr × Stat)
  | (code,refExpr) => match loc with
    | .ref a _ b c d => do
        let name ← stringOfRefExpr refExpr
        some (code,.set (.ref a name b c d) expr)
    | _ => none

/-- `switch_from_node` and `case_list`. -/
def caseList (syms : Syms) (type : String) : Option (List (Expr × Expr)) :=
  match syms type with
  | .andMode _ _ (.switchExpr _ _ l _) _ => some l
  | _ => none

def typeOfLoc (listParam : List (String × Typ)) (nameOfLoc : String) : String :=
  match listParam.lookup nameOfLoc with
  | some type => nameOfTyp type
  | none => " "

section
variable (listName : List String) (cases : String → Option (List (Expr × Expr))) (listParam : List (String × Typ))

/-- The branch of `modify_stat` for the assignments. -/
def modifySet (set : Stat) (loc : Location) (e : Expr) : Option Stat := do
  let nameOfLoc ← (getNamesFromLocation loc).head?
  if typeOfLoc listParam nameOfLoc ∈ listName then do
    let l ← cases (typeOfLoc listParam nameOfLoc)
    let stats ← l.mapM (createCaseStat loc e)
    some (.switchStat (.fieldof .unknowType nameOfLoc "__val") stats .nop)
  else some set

def modifyStat : Stat → Option Stat
  | .line file line s => do
      let s' ← modifyStat s
      some (.line file line s')
  | .seq s1 s2 => do
      let s1' ← modifyStat s1
      let s2' ← modifyStat s2
      some (.seq s1' s2')
  | .set loc e => modifySet listName cases listParam (.set loc e) loc e
  | .setspe loc e => modifySet listName cases listParam (.setspe loc e) loc e
  | s => some s

theorem modifyStat_idem {s s' : Stat} (done : modifyStat listName cases listParam s = some s') :
    modifyStat listName cases listParam s' = some s' := by
  have set : ∀ {s s' loc e}, modifyStat listName cases listParam s = modifySet listName cases listParam s loc e →
      modifySet listName cases listParam s loc e = some s' → modifyStat listName cases listParam s' = some s' := by
    intro s s' loc e same done
    have kept := done
    simp only [modifySet,Option.bind_eq_bind,Option.bind_eq_some_iff] at done
    obtain ⟨name,-,branch⟩ := done
    split at branch
    · simp only [Option.bind_eq_some_iff,Option.some.injEq] at branch
      obtain ⟨l,-,stats,-,rfl⟩ := branch
      rfl
    · obtain rfl := Option.some.inj branch
      exact same.trans kept
  fun_induction modifyStat listName cases listParam s generalizing s' with
  | case1 file line s ih =>
    simp only [Option.bind_eq_bind,Option.bind_eq_some_iff,Option.some.injEq] at done
    obtain ⟨t,inner,rfl⟩ := done
    simp [modifyStat,ih inner]
  | case2 s1 s2 ih1 ih2 =>
    simp only [Option.bind_eq_bind,Option.bind_eq_some_iff,Option.some.injEq] at done
    obtain ⟨t1,inner1,t2,inner2,rfl⟩ := done
    simp [modifyStat,ih1 inner1,ih2 inner2]
  | case3 loc e => exact set rfl done
  | case4 loc e => exact set rfl done
  | case5 s =>
    obtain rfl := Option.some.inj done
    simp_all [modifyStat]

end

/-- A name in a target: an item of the state or a parameter of the node. -/
inductive Place
  | item (name : String)
  | param (name : String)

inductive Target
  | none
  | ref (type : TypeExpr) (place : Option Place) (idx low up : Expr)
  | concat (type : TypeExpr) (target1 target2 : Target)

def paramSons (sonsOf : String → Option (List Spec)) (params : List (String × Typ)) (name : String) :
    Option (List Spec) :=
  match params.lookup name with
  | some (.id mode) => sonsOf mode
  | _ => none

def placeOf (params : List (String × Typ)) (name : String) : Place :=
  if (params.lookup name).isSome then .param name else .item name

/-- A location as it stands in a node. -/
def targetOf (params : List (String × Typ)) : Location → Target
  | .none => .none
  | .ref type name idx low up => .ref type (some (placeOf params name)) idx low up
  | .concat type loc1 loc2 => .concat type (targetOf params loc1) (targetOf params loc2)

section
variable (sonsOf : String → Option (List Spec)) (params : List (String × Typ)) (son : String → Spec)

/-- A location where the parameters of fused modes are the items of the sons chosen for them. -/
def denoted : Location → Target
  | .none => .none
  | .ref type name idx low up =>
      .ref type
        (if (paramSons sonsOf params name).isSome then ((son name).value.bind stringOfRefExpr).map .item
        else some (placeOf params name)) idx low up
  | .concat type loc1 loc2 => .concat type (denoted loc1) (denoted loc2)

/-- A son is chosen for each parameter of a fused mode. -/
def Choice : Prop := ∀ name sons, paramSons sonsOf params name = some sons → son name ∈ sons

/-- A statement, with the switches on `__val` of a parameter of a fused mode resolved for the chosen son. -/
def selected : Stat → Option Stat
  | .switchStat (.fieldof type name attr) cases default =>
      if attr = "__val" ∧ (paramSons sonsOf params name).isSome then
        (caseCodeFromSpec (son name)).map fun code => (pick code cases).getD default
      else some (.switchStat (.fieldof type name attr) cases default)
  | s => some s

def Assigns (after : Stat) (target : Target) (e : Expr) : Prop :=
  ∃ loc, (selected sonsOf params son after = some (.set loc e) ∨
    selected sonsOf params son after = some (.setspe loc e)) ∧ targetOf params loc = target

mutual
/-- The statement after the pass makes, in its place, each assignment of the one before, to the location
    of the chosen sons. -/
def Follows : Stat → Stat → Prop
  | .set loc e, after | .setspe loc e, after => Assigns sonsOf params son after (denoted sonsOf params son loc) e
  | .seq s1 s2, after => ∃ s1' s2', after = .seq s1' s2' ∧ Follows s1 s1' ∧ Follows s2 s2'
  | .ifStat cond sThen sElse, after =>
      ∃ sThen' sElse', after = .ifStat cond sThen' sElse' ∧ Follows sThen sThen' ∧ Follows sElse sElse'
  | .switchStat cond cases default, after =>
      ∃ cases' default', after = .switchStat cond cases' default' ∧ FollowsCases cases cases' ∧
        Follows default default'
  | .line file line s, after => ∃ s', after = .line file line s' ∧ Follows s s'
  | .nop, after => after = .nop
  | .eval attr, after => after = .eval attr
  | .evalind name attr, after => after = .evalind name attr
  | .canon name args, after => after = .canon name args
  | .error text, after => after = .error text
  | .inline text, after => after = .inline text
def FollowsCases : List (Expr × Stat) → List (Expr × Stat) → Prop
  | [], after => after = []
  | (c,s) :: cases, after => ∃ s' cases', after = (c,s') :: cases' ∧ Follows s s' ∧ FollowsCases cases cases'
end

end

mutual
def Stat.targets : Stat → List String
  | .set loc _ | .setspe loc _ => getNamesFromLocation loc
  | .seq s1 s2 | .ifStat _ s1 s2 => s1.targets ++ s2.targets
  | .switchStat _ cases default => targetsOfCases cases ++ default.targets
  | .line _ _ s => s.targets
  | .nop | .eval _ | .evalind _ _ | .canon _ _ | .error _ | .inline _ => []
def targetsOfCases : List (Expr × Stat) → List String
  | [] => []
  | (_,s) :: cases => s.targets ++ targetsOfCases cases
end

section
variable (sonsOf : String → Option (List Spec)) (params : List (String × Typ))

/-- No parameter of a fused mode is among the names. -/
def Untouched (names : List String) : Prop := ∀ name ∈ names, paramSons sonsOf params name = none

variable (listName : List String)

/-- A target whose first name has a fused type is this parameter, of a fused mode, and the sons of the mode
    are names of items; another one has no parameter of a fused mode. -/
def HandledSet (loc : Location) : Prop :=
  ∃ name, (getNamesFromLocation loc).head? = some name ∧
    if typeOfLoc params name ∈ listName then
      ∃ sons, paramSons sonsOf params name = some sons ∧ (∃ type idx low up, loc = .ref type name idx low up) ∧
        ∀ son ∈ sons, ∃ e item, son.value = some e ∧ stringOfRefExpr e = some item ∧ params.lookup item = none
    else Untouched sonsOf params (getNamesFromLocation loc)

/-- The targets in sequences are handled, and nothing else assigns to a parameter of a fused mode. -/
def Handled : Stat → Prop
  | .line _ _ s => Handled s
  | .seq s1 s2 => Handled s1 ∧ Handled s2
  | .set loc _ | .setspe loc _ => HandledSet sonsOf params listName loc
  | s => Untouched sonsOf params s.targets

end

section
variable (sonsOf : String → Option (List Spec)) (params : List (String × Typ)) (son : String → Spec)

private theorem placeOf_param {name : String} (fused : (paramSons sonsOf params name).isSome) :
    placeOf params name = .param name := by
  unfold paramSons at fused
  split at fused
  · rename_i found
    simp [placeOf,found]
  · cases fused

theorem targetOf_eq_denoted (loc : Location) :
    targetOf params loc = denoted sonsOf params son loc ↔ Untouched sonsOf params (getNamesFromLocation loc) := by
  induction loc with
  | none => simp [targetOf,denoted,getNamesFromLocation,Untouched]
  | ref type name idx low up =>
    by_cases fused : (paramSons sonsOf params name).isSome
    · have isParam := placeOf_param sonsOf params fused
      have touched := Option.isSome_iff_ne_none.mp fused
      have other : ∀ item : Option String, some (Place.param name) ≠ item.map .item := by
        intro item
        cases item <;> simp
      simp only [targetOf,denoted,fused,if_true,isParam,Target.ref.injEq,true_and,and_true]
      exact iff_of_false (other _) (by simpa [Untouched,getNamesFromLocation] using touched)
    · have untouched := Option.not_isSome_iff_eq_none.mp fused
      simp [targetOf,denoted,getNamesFromLocation,Untouched,untouched]
  | concat type loc1 loc2 ih1 ih2 =>
    simp only [targetOf,denoted,getNamesFromLocation,Untouched,Target.concat.injEq,true_and,ih1,ih2,
      List.mem_append,or_imp,forall_and]

private theorem assigns_self (loc : Location) (e : Expr) :
    Assigns sonsOf params son (.set loc e) (denoted sonsOf params son loc) e ↔
      Untouched sonsOf params (getNamesFromLocation loc) := by
  simp [Assigns,selected,targetOf_eq_denoted]

private theorem assigns_self_spe (loc : Location) (e : Expr) :
    Assigns sonsOf params son (.setspe loc e) (denoted sonsOf params son loc) e ↔
      Untouched sonsOf params (getNamesFromLocation loc) := by
  simp [Assigns,selected,targetOf_eq_denoted]

private theorem untouched_append (names1 names2 : List String) : Untouched sonsOf params (names1 ++ names2) ↔
    Untouched sonsOf params names1 ∧ Untouched sonsOf params names2 := by
  simp only [Untouched,List.mem_append,or_imp,forall_and]

mutual
theorem follows_self : ∀ s : Stat, Follows sonsOf params son s s ↔ Untouched sonsOf params s.targets
  | .set loc e => by rw [Follows,Stat.targets,assigns_self]
  | .setspe loc e => by rw [Follows,Stat.targets,assigns_self_spe]
  | .seq s1 s2 => by
      rw [Follows,Stat.targets,untouched_append,← follows_self s1,← follows_self s2]
      simp
  | .ifStat cond sThen sElse => by
      rw [Follows,Stat.targets,untouched_append,← follows_self sThen,← follows_self sElse]
      simp
  | .switchStat cond cases default => by
      rw [Follows,Stat.targets,untouched_append,← followsCases_self cases,← follows_self default]
      simp
  | .line file line s => by
      rw [Follows,Stat.targets,← follows_self s]
      simp
  | .nop | .eval _ | .evalind _ _ | .canon _ _ | .error _ | .inline _ => by simp [Follows,Stat.targets,Untouched]
theorem followsCases_self : ∀ cases : List (Expr × Stat),
    FollowsCases sonsOf params son cases cases ↔ Untouched sonsOf params (targetsOfCases cases)
  | [] => by simp [FollowsCases,targetsOfCases,Untouched]
  | (c,s) :: cases => by
      rw [FollowsCases,targetsOfCases,untouched_append,← follows_self s,← followsCases_self cases]
      simp
end

end

/-! ### What is rewritten -/

theorem stringOfRefExpr_strip (e : Expr) : stringOfRefExpr e.strip = stringOfRefExpr e := by
  fun_induction stringOfRefExpr e with
  | case1 str => rfl
  | case2 file line e ih => simpa [Expr.strip] using ih
  | case3 e noRef noLine =>
    cases e with
    | const type c =>
      cases c with
      | string text canonical t => cases canonical <;> rfl
      | _ => rfl
    | ref str => exact absurd rfl (noRef str)
    | eline file line e => exact absurd rfl (noLine file line e)
    | _ => simp [Expr.strip,stringOfRefExpr]

theorem pick_mapM {α β : Type} {f : Expr × α → Option (Expr × β)} {g : α → Option β}
    (under : ∀ c a, f (c,a) = (g a).map (c,·)) {l : List (Expr × α)} {l' : List (Expr × β)}
    (made : l.mapM f = some l') {code : Nat} {a : α} (picked : pick code l = some a) :
    ∃ b, g a = some b ∧ pick code l' = some b := by
  rw [mapM_eq_some_iff] at made
  induction made with
  | nil => cases picked
  | @cons case case' _ _ head _ ih =>
    obtain ⟨c,a0⟩ := case
    rw [under,Option.map_eq_some_iff] at head
    obtain ⟨b,rewritten,rfl⟩ := head
    rw [pick] at picked ⊢
    split_ifs at picked ⊢
    · obtain rfl := Option.some.inj picked
      exact ⟨b,rewritten,rfl⟩
    · exact ih picked

structure FusedModes (listName : List String) (cases : String → Option (List (Expr × Expr)))
    (sonsOf : String → Option (List Spec)) : Prop where
  listed : ∀ mode sons, sonsOf mode = some sons → mode ∈ listName
  notMode : ∀ type ∈ listName, sonsOf type = none → cases type = none
  nonempty : ∀ mode sons, sonsOf mode = some sons → sons ≠ []
  cases : ∀ mode sons, sonsOf mode = some sons →
    ∃ size l, cases mode = some l ∧ sons.mapM (caseFromValueExpr size) = some l
  kept : ∀ mode sons, sonsOf mode = some sons → ∀ son ∈ sons, ∀ code e, caseCodeFromSpec son = some code →
    son.value = some e → ∃ first e', firstOf sons code = some first ∧ first.value = some e' ∧ SameExpr e' e

section
variable {listName : List String} {cases : String → Option (List (Expr × Expr))}
variable {sonsOf : String → Option (List Spec)} (modes : FusedModes listName cases sonsOf)
variable (params : List (String × Typ))
include modes

theorem FusedModes.type {name : String} {sons : List Spec} (fused : paramSons sonsOf params name = some sons) :
    ∃ mode, params.lookup name = some (.id mode) ∧ sonsOf mode = some sons ∧ typeOfLoc params name = mode ∧
      mode ∈ listName := by
  unfold paramSons at fused
  split at fused
  · rename_i mode found
    exact ⟨mode,found,fused,by simp [typeOfLoc,found,nameOfTyp],modes.listed mode sons fused⟩
  · cases fused

theorem FusedModes.exists_choice : ∃ son, Choice sonsOf params son := by
  refine ⟨fun x => ((paramSons sonsOf params x).bind List.head?).getD .undef,?_⟩
  intro x sons found
  obtain ⟨mode,-,fused,-⟩ := modes.type params found
  cases sons with
  | nil => exact absurd rfl (modes.nonempty mode [] fused)
  | cons first rest => simp [found]

theorem FusedModes.choose {name : String} {sons : List Spec} (fused : paramSons sonsOf params name = some sons)
    {son0 : Spec} (mem : son0 ∈ sons) : ∃ son, Choice sonsOf params son ∧ son name = son0 := by
  obtain ⟨base,choice⟩ := modes.exists_choice params
  refine ⟨fun x => if x = name then son0 else base x,?_,if_pos rfl⟩
  intro x sons' found
  by_cases same : x = name
  · subst same
    obtain rfl := Option.some.inj (fused.symm.trans found)
    simpa using mem
  · simpa [same] using choice x sons' found

theorem FusedModes.picked {mode : String} {sons : List Spec} (fused : sonsOf mode = some sons)
    {l : List (Expr × Expr)} (switch : cases mode = some l) {type : TypeExpr} {name : String}
    {idx low up expr : Expr} {stats : List (Expr × Stat)}
    (made : l.mapM (createCaseStat (.ref type name idx low up) expr) = some stats) {son : Spec} (mem : son ∈ sons) :
    ∃ code e item, caseCodeFromSpec son = some code ∧ son.value = some e ∧ stringOfRefExpr e = some item ∧
      pick code stats = some (.set (.ref type item idx low up) expr) := by
  obtain ⟨size,l',switch',values⟩ := modes.cases mode sons fused
  obtain rfl : l' = l := Option.some.inj (switch'.symm.trans switch)
  obtain ⟨_,-,case⟩ := mapM_mem values mem
  obtain ⟨code,e,coded,value,-⟩ := caseFrom_eq_some case
  obtain ⟨first,e',found,value',same,-⟩ := modes.kept mode sons fused son mem code e coded value
  have picked : pick code l' = some e' := by rw [pick_cases values,found]; exact value'
  obtain ⟨stat,rewritten,pickedStat⟩ := pick_mapM
    (g := fun refExpr => (stringOfRefExpr refExpr).map fun item => Stat.set (.ref type item idx low up) expr)
    (fun c a => by cases read : stringOfRefExpr a <;> simp [createCaseStat,read]) made picked
  obtain ⟨item,named,rfl⟩ := Option.map_eq_some_iff.mp rewritten
  rw [← stringOfRefExpr_strip,same,stringOfRefExpr_strip] at named
  exact ⟨code,e,item,coded,value,named,pickedStat⟩

/-- The switch on `__val` assigns to the items of the sons when these are not parameters. -/
theorem FusedModes.assigns_iff {name : String} {sons : List Spec} (fused : paramSons sonsOf params name = some sons)
    {l : List (Expr × Expr)} (switch : cases (typeOfLoc params name) = some l) {type : TypeExpr}
    {idx low up expr : Expr} {stats : List (Expr × Stat)}
    (made : l.mapM (createCaseStat (.ref type name idx low up) expr) = some stats)
    {son : String → Spec} (chosen : son name ∈ sons) :
    Assigns sonsOf params son (.switchStat (.fieldof .unknowType name "__val") stats .nop)
        (denoted sonsOf params son (.ref type name idx low up)) expr ↔
      ∃ e item, (son name).value = some e ∧ stringOfRefExpr e = some item ∧ params.lookup item = none := by
  obtain ⟨mode,-,sonsMode,typed,-⟩ := modes.type params fused
  rw [typed] at switch
  obtain ⟨code,e,item,coded,value,named,picked⟩ := modes.picked sonsMode switch made chosen
  have assigned : selected sonsOf params son (.switchStat (.fieldof .unknowType name "__val") stats .nop) =
      some (.set (.ref type item idx low up) expr) := by simp [selected,fused,coded,picked]
  cases found : params.lookup item <;>
    simp [Assigns,assigned,targetOf,denoted,fused,value,named,placeOf,found,-List.lookup_eq_none_iff]

theorem modifySet_iff {set : Stat} {loc : Location} {e : Expr} (isSet : set = .set loc e ∨ set = .setspe loc e) :
    (∃ after, modifySet listName cases params set loc e = some after ∧
      ∀ son, Choice sonsOf params son → Assigns sonsOf params son after (denoted sonsOf params son loc) e) ↔
    HandledSet sonsOf params listName loc := by
  obtain ⟨anySon,anyChoice⟩ := modes.exists_choice params
  unfold modifySet HandledSet
  cases names : (getNamesFromLocation loc).head? with
  | none => simp
  | some name =>
    by_cases listed : typeOfLoc params name ∈ listName
    · simp only [Option.bind_eq_bind,Option.bind_some,listed,if_true,Option.some.injEq,exists_eq_left']
      constructor
      · rintro ⟨after,rewritten,assigns⟩
        simp only [Option.bind_eq_some_iff,Option.some.injEq] at rewritten
        obtain ⟨l,switch,stats,made,rfl⟩ := rewritten
        -- a switch is an assignment for parameters of fused modes only
        obtain ⟨sons,fused⟩ : ∃ sons, paramSons sonsOf params name = some sons := by
          obtain ⟨loc',assigned,-⟩ := assigns anySon anyChoice
          cases found : paramSons sonsOf params name with
          | none => simp [selected,found] at assigned
          | some sons => exact ⟨sons,rfl⟩
        obtain ⟨type,idx,low,up,rfl⟩ : ∃ type idx low up, loc = .ref type name idx low up := by
          obtain ⟨mode,-,sonsMode,typed,-⟩ := modes.type params fused
          obtain ⟨size,l',switch',values⟩ := modes.cases mode sons sonsMode
          obtain rfl : l' = l := Option.some.inj (switch'.symm.trans (typed ▸ switch))
          obtain ⟨first,mem⟩ := List.exists_mem_of_ne_nil sons (modes.nonempty mode sons sonsMode)
          obtain ⟨⟨c,refExpr⟩,mem',-⟩ := mapM_mem values mem
          obtain ⟨stat,-,made'⟩ := mapM_mem made mem'
          cases loc with
          | ref type st idx low up =>
            obtain rfl : st = name := Option.some.inj names
            exact ⟨type,idx,low,up,rfl⟩
          | none => cases made'
          | concat type loc1 loc2 => cases made'
        refine ⟨sons,fused,⟨type,idx,low,up,rfl⟩,fun son0 mem => ?_⟩
        obtain ⟨son,choice,rfl⟩ := modes.choose params fused mem
        exact (modes.assigns_iff params fused switch made mem).mp (assigns son choice)
      · rintro ⟨sons,fused,⟨type,idx,low,up,rfl⟩,items⟩
        obtain ⟨mode,-,sonsMode,typed,-⟩ := modes.type params fused
        obtain ⟨size,l,switch,values⟩ := modes.cases mode sons sonsMode
        rw [← typed] at switch
        obtain ⟨stats,made⟩ : ∃ stats, l.mapM (createCaseStat (.ref type name idx low up) e) = some stats := by
          refine mapM_total fun ⟨c,refExpr⟩ mem => ?_
          obtain ⟨son,member,case⟩ := mapM_mem_right values mem
          obtain ⟨code,value,-,has,eq⟩ := caseFrom_eq_some case
          obtain ⟨e',item,has',named,-⟩ := items son member
          obtain rfl : value = e' := Option.some.inj (has.symm.trans has')
          obtain ⟨-,rfl⟩ := Prod.mk.inj eq
          exact ⟨(c,.set (.ref type item idx low up) e),by simp [createCaseStat,named]⟩
        refine ⟨.switchStat (.fieldof .unknowType name "__val") stats .nop,by simp [switch,made],
          fun son choice => ?_⟩
        have chosen := choice name sons fused
        exact (modes.assigns_iff params fused switch made chosen).mpr (items (son name) chosen)
    · simp only [Option.bind_eq_bind,Option.bind_some,listed,if_false,Option.some.injEq,exists_eq_left']
      have self : ∀ son, Assigns sonsOf params son set (denoted sonsOf params son loc) e ↔
          Untouched sonsOf params (getNamesFromLocation loc) := by
        intro son
        rcases isSet with rfl | rfl
        · exact assigns_self sonsOf params son loc e
        · exact assigns_self_spe sonsOf params son loc e
      exact ⟨fun assigns => (self anySon).mp (assigns anySon anyChoice),
        fun untouched son _ => (self son).mpr untouched⟩

/-- A statement is rewritten so that each assignment goes to the location of the chosen sons when the
    statement is handled. -/
theorem modifyStat_iff (s : Stat) :
    (∃ after, modifyStat listName cases params s = some after ∧
      ∀ son, Choice sonsOf params son → Follows sonsOf params son s after) ↔
    Handled sonsOf params listName s := by
  obtain ⟨anySon,anyChoice⟩ := modes.exists_choice params
  have other : ∀ s : Stat, modifyStat listName cases params s = some s →
      ((∃ after, modifyStat listName cases params s = some after ∧
        ∀ son, Choice sonsOf params son → Follows sonsOf params son s after) ↔
      Untouched sonsOf params s.targets) := by
    intro s same
    simp only [same,Option.some.injEq,exists_eq_left',follows_self]
    exact ⟨fun untouched => untouched anySon anyChoice,fun untouched _ _ => untouched⟩
  match s with
  | .line file line s =>
    rw [Handled,← modifyStat_iff s]
    cases done : modifyStat listName cases params s <;> simp [modifyStat,Follows,done]
  | .seq s1 s2 =>
    rw [Handled,← modifyStat_iff s1,← modifyStat_iff s2]
    cases done1 : modifyStat listName cases params s1 <;>
      cases done2 : modifyStat listName cases params s2 <;>
        simp [modifyStat,Follows,done1,done2,imp_and,forall_and]
  | .set loc e => simpa only [Follows,modifyStat,Handled] using modifySet_iff modes params (.inl rfl)
  | .setspe loc e => simpa only [Follows,modifyStat,Handled] using modifySet_iff modes params (.inr rfl)
  | .ifStat .. | .switchStat .. | .nop | .eval _ | .evalind .. | .canon .. | .error _ | .inline _ => exact other _ rfl

end

end Otawa.Optirg
