import Otawa.ClpUnion

/-!
When the header iteration with `clp::Value::widening` settles. A widened walk has one of
two forms, upwards from its start or downwards from its stop, that denote the same words
and are different values for `operator==`. A step that turns a walk from one form to the
other may be undone by the next one; all the other changes go down a finite scale
(`rank`), so that the iteration settles exactly when it turns finitely often.
-/
namespace Otawa.Clp.Value

/-! ### The form of a widened value -/

/-- A widened walk: its count is the one that `widening` gives to its step. -/
def Widened (v : Value) : Prop := v.isConst = false ∧ v.mtimes = umax / abs v.delta

instance (v : Value) : Decidable (Widened v) := inferInstanceAs (Decidable (_ ∧ _))

/-- The same walk from its other end. -/
def turned (v : Value) : Value := {v with lower := v.lower + v.delta * v.mtimes, delta := -v.delta}

/-- The joined value `u` moves the ends of `v` against the direction of the walk, by
    nothing or by the step of `v` (which is also its own), or the step is 1. -/
def Against (v u : Value) : Prop :=
  if u.start.sle v.start ∧ u.stop.sle v.stop then
    v.delta.slt 0 = false ∧ (abs v.delta = 1 ∨ StepKept v u (v.stop - u.stop) (v.start - u.start))
  else
    v.start.sle u.start ∧ v.stop.sle u.stop ∧ v.delta.slt 0 ∧
      (abs v.delta = 1 ∨ StepKept v u (u.start - v.start) (u.stop - v.stop))

def Turns (v u : Value) : Prop :=
  v.kind ≠ .ALL ∧ u.kind ≠ .ALL ∧ ¬ (v.kind = .NONE ∧ u.kind = .NONE) ∧ v ≠ u ∧ Widened v ∧ Against v u

/-- A scale that every other change of a widening goes down. -/
def rank (v : Value) : Nat :=
  if v = all then 0
  else if v.kind = .ALL then 1
  else if v.isConst then if v.delta = 0 ∧ v.mtimes = umax then 5 else 6
  else if Widened v then if abs v.delta = 1 then 2 else 3
  else 4

theorem abs_neg (x : Word) : abs (-x) = abs x := by
  apply BitVec.eq_of_toNat_eq
  rw [abs_toNat,abs_toNat,natAbs_neg]

theorem abs_abs (x : Word) : abs (abs x) = abs x := by
  by_cases negative : x.slt 0
  · rw [show abs x = -x from if_pos negative,abs_neg]
    exact if_pos negative
  · have same : abs x = x := if_neg negative
    rw [same,same]

theorem eq_zero_of_abs {x : Word} (zero : abs x = 0) : x = 0 := by
  have size := abs_toNat x
  rw [zero] at size
  exact BitVec.eq_of_toInt_eq (y := 0) (by rw [Int.natAbs_eq_zero.mp size.symm]; rfl)

theorem widened_mk {kind : Kind} {b d g : Word} (step : d = g ∨ d = -g) (size : abs g = g) (some : g ≠ 0) :
    Widened ⟨kind,b,d,umax / g⟩ := by
  have same : abs d = g := by
    rcases step with rfl | rfl
    · exact size
    · rw [abs_neg,size]
  have nonzero : d ≠ 0 := by
    rintro rfl
    exact some (by rw [← same]; rfl)
  have positive : g.toNat ≠ 0 := fun zero => some (BitVec.eq_of_toNat_eq zero)
  have small : g.toNat ≤ umax.toNat := by
    have bound := g.isLt
    have full : umax.toNat = 2 ^ 32 - 1 := by decide
    omega
  have count : umax / g ≠ 0 := by
    intro zero
    have quotient := congrArg BitVec.toNat zero
    rw [BitVec.toNat_udiv] at quotient
    have := Nat.div_pos small (Nat.pos_of_ne_zero positive)
    have none : (0 : Word).toNat = 0 := rfl
    omega
  refine ⟨?_,?_⟩
  · simp only [isConst,Bool.or_eq_false_iff,beq_eq_false_iff_ne]
    exact ⟨nonzero,count⟩
  · simp only [same]

/-! ### One step -/

theorem widening_cases (v u : Value) :
    v.widening u = v ∨ v.widening u = all ∨
    (v.kind ≠ .ALL ∧ v.isConst ∧ v.widening u = {v with delta := u.lower - v.lower, mtimes := umax}) ∨
    (v.kind ≠ .ALL ∧ u.kind ≠ .ALL ∧ ¬ (v.kind = .NONE ∧ u.kind = .NONE) ∧ v ≠ u ∧
      ((u.start.sle v.start ∧ u.stop.sle v.stop) ∧
          v.widening u = ⟨v.kind,v.stop,-widenStep v u (v.stop - u.stop) (v.start - u.start),
            umax / widenStep v u (v.stop - u.stop) (v.start - u.start)⟩ ∨
        (¬ (u.start.sle v.start ∧ u.stop.sle v.stop) ∧ v.start.sle u.start ∧ v.stop.sle u.stop) ∧
          v.widening u = ⟨v.kind,v.start,widenStep v u (u.start - v.start) (u.stop - v.stop),
            umax / widenStep v u (u.start - v.start) (u.stop - v.stop)⟩) ∧
      ¬ (v.isConst ∧ u.isConst)) := by
  unfold widening
  by_cases none : v.kind = .NONE ∧ u.kind = .NONE
  · exact .inl (if_pos none)
  rw [if_neg none]
  by_cases top : v.kind = .ALL ∨ u.kind = .ALL
  · exact .inr (.inl (if_pos top))
  rw [if_neg top]
  push Not at top
  by_cases same : v = u
  · exact .inl (if_pos same)
  rw [if_neg same]
  by_cases consts : v.isConst ∧ u.isConst
  · exact .inr (.inr (.inl ⟨top.1,consts.1,if_pos consts⟩))
  rw [if_neg consts]
  by_cases down : u.start.sle v.start ∧ u.stop.sle v.stop
  · exact .inr (.inr (.inr ⟨top.1,top.2,none,same,.inl ⟨down,if_pos down⟩,consts⟩))
  rw [if_neg down]
  by_cases up : v.start.sle u.start ∧ v.stop.sle u.stop
  · exact .inr (.inr (.inr ⟨top.1,top.2,none,same,.inr ⟨⟨down,up⟩,if_pos up⟩,consts⟩))
  · exact .inr (.inl (if_neg up))

theorem widenStep_size {v u : Value} (near far : Word) (walks : ¬ (v.isConst ∧ u.isConst)) :
    abs (widenStep v u near far) = widenStep v u near far ∧ widenStep v u near far ≠ 0 := by
  by_cases kept : StepKept v u near far
  · rw [widenStep_kept kept]
    refine ⟨abs_abs _,fun zero => ?_⟩
    exact (kept_steps walks kept).1 (eq_zero_of_abs zero)
  · rw [widenStep_unit kept]
    decide

theorem rank_widened {v : Value} (kind : v.kind ≠ .ALL) (widened : Widened v) :
    rank v = if abs v.delta = 1 then 2 else 3 := by
  have notTop : v ≠ all := fun same => kind (by rw [same]; rfl)
  have walk : ¬ v.isConst = true := by simp [widened.1]
  rw [rank,if_neg notTop,if_neg kind,if_neg walk,if_pos widened]

theorem rank_not_widened {v : Value} (kind : v.kind ≠ .ALL) (fresh : ¬ Widened v) : 4 ≤ rank v := by
  have notTop : v ≠ all := fun same => kind (by rw [same]; rfl)
  rw [rank,if_neg notTop,if_neg kind]
  split
  case isTrue =>
    split
    case isTrue => omega
    case isFalse => omega
  case isFalse => exact Nat.le_refl 4

theorem walk_up {v : Value} (widened : Widened v) (up : v.delta.slt 0 = false) :
    v = ⟨v.kind,v.start,abs v.delta,umax / abs v.delta⟩ := by
  have start : v.start = v.lower := by simp only [start,up,Bool.false_eq_true,↓reduceIte]
  have step : abs v.delta = v.delta := by simp only [abs,up,Bool.false_eq_true,↓reduceIte]
  rw [← widened.2,start,step]

theorem walk_down {v : Value} (widened : Widened v) (down : v.delta.slt 0 = true) :
    v = ⟨v.kind,v.stop,-abs v.delta,umax / abs v.delta⟩ := by
  have stop : v.stop = v.lower := by simp only [stop,down,↓reduceIte]
  have step : -abs v.delta = v.delta := by simp only [abs,down,↓reduceIte,neg_neg]
  rw [← widened.2,stop,step]

theorem step_or_unit (v u : Value) (near far : Word) :
    (widenStep v u near far = abs v.delta ∧ (abs v.delta = 1 ∨ StepKept v u near far)) ∨
      (widenStep v u near far = 1 ∧ abs v.delta ≠ 1) := by
  by_cases kept : StepKept v u near far
  · exact .inl ⟨widenStep_kept kept,.inr kept⟩
  · by_cases unit : abs v.delta = 1
    · exact .inl ⟨(widenStep_unit kept).trans unit.symm,.inl unit⟩
    · exact .inr ⟨widenStep_unit kept,unit⟩

private theorem rank_fall {v r : Value} {g : Word} (kind : v.kind ≠ .ALL) (kind' : r.kind ≠ .ALL) (widened : Widened r)
    (step : abs r.delta = g) (fresh : ¬ Widened v ∨ g = 1 ∧ abs v.delta ≠ 1) : rank r < rank v := by
  rw [rank_widened kind' widened,step]
  by_cases before : Widened v
  · obtain ⟨one,more⟩ := fresh.resolve_left fun fresh => fresh before
    rw [rank_widened kind before,if_pos one,if_neg more]
    omega
  · have above := rank_not_widened kind before
    split
    case isTrue => omega
    case isFalse => omega

private theorem rank_const {v u : Value} (kind : v.kind ≠ .ALL) (const : v.isConst)
    (result : v.widening u = {v with delta := u.lower - v.lower, mtimes := umax}) :
    v.widening u = v ∨ rank (v.widening u) < rank v := by
  have notTop (b d n : Word) : (⟨v.kind,b,d,n⟩ : Value) ≠ all := fun same => kind (congrArg Value.kind same)
  have before : rank v = if v.delta = 0 ∧ v.mtimes = umax then 5 else 6 := by
    rw [rank,if_neg (notTop v.lower v.delta v.mtimes),if_neg kind,if_pos const]
  by_cases still : u.lower - v.lower = 0
  · by_cases already : v.delta = 0 ∧ v.mtimes = umax
    · refine .inl ?_
      rw [result,still,← already.1,← already.2]
    · refine .inr ?_
      have after : (⟨v.kind,v.lower,0,umax⟩ : Value).isConst = true := rfl
      rw [before,if_neg already,result,still,rank,if_neg (notTop _ _ _),if_neg kind,if_pos after,if_pos ⟨rfl,rfl⟩]
      omega
  · refine .inr ?_
    have after : ¬ (⟨v.kind,v.lower,u.lower - v.lower,umax⟩ : Value).isConst = true := by
      simp only [isConst,Bool.or_eq_true,beq_iff_eq,not_or]
      exact ⟨still,by decide⟩
    rw [before,result,rank,if_neg (notTop _ _ _),if_neg kind,if_neg after]
    repeat' split
    all_goals omega

theorem rank_widening (v u : Value) : v.widening u = v ∨ Turns v u ∨ rank (v.widening u) < rank v := by
  rcases widening_cases v u with same | top | ⟨kind,const,result⟩ | ⟨kind,kind',some,differ,ends,walks⟩
  · exact .inl same
  · by_cases already : v = all
    · exact .inl (top.trans already.symm)
    · refine .inr (.inr ?_)
      rw [top,show rank all = 0 by decide,rank,if_neg already]
      repeat' split
      all_goals omega
  · rcases rank_const kind const result with same | less
    · exact .inl same
    · exact .inr (.inr less)
  rcases ends with ⟨down,result⟩ | ⟨⟨notDown,up⟩,result⟩
  · generalize move : widenStep v u (v.stop - u.stop) (v.start - u.start) = g at result
    obtain ⟨size,nonzero⟩ := move ▸ widenStep_size (v.stop - u.stop) (v.start - u.start) walks
    have widened : Widened (v.widening u) := result ▸ widened_mk (.inr rfl) size nonzero
    have step : abs (v.widening u).delta = g := by rw [result]; exact (abs_neg g).trans size
    have falls (fresh : ¬ Widened v ∨ g = 1 ∧ abs v.delta ≠ 1) :=
      rank_fall kind (by rw [result]; exact kind) widened step fresh
    by_cases before : Widened v
    · rcases move ▸ step_or_unit v u (v.stop - u.stop) (v.start - u.start) with ⟨same,against⟩ | unit
      · cases side : v.delta.slt 0 with
        | true => exact .inl (result.trans (same ▸ (walk_down before side).symm))
        | false => exact .inr (.inl ⟨kind,kind',some,differ,before,by rw [Against,if_pos down]; exact ⟨side,against⟩⟩)
      · exact .inr (.inr (falls (.inr unit)))
    · exact .inr (.inr (falls (.inl before)))
  · generalize move : widenStep v u (u.start - v.start) (u.stop - v.stop) = g at result
    obtain ⟨size,nonzero⟩ := move ▸ widenStep_size (u.start - v.start) (u.stop - v.stop) walks
    have widened : Widened (v.widening u) := result ▸ widened_mk (.inl rfl) size nonzero
    have step : abs (v.widening u).delta = g := by rw [result]; exact size
    have falls (fresh : ¬ Widened v ∨ g = 1 ∧ abs v.delta ≠ 1) :=
      rank_fall kind (by rw [result]; exact kind) widened step fresh
    by_cases before : Widened v
    · rcases move ▸ step_or_unit v u (u.start - v.start) (u.stop - v.stop) with ⟨same,against⟩ | unit
      · cases side : v.delta.slt 0 with
        | true =>
          have turns : Against v u := by rw [Against,if_neg notDown]; exact ⟨up.1,up.2,side,against⟩
          exact .inr (.inl ⟨kind,kind',some,differ,before,turns⟩)
        | false => exact .inl (result.trans (same ▸ (walk_up before side).symm))
      · exact .inr (.inr (falls (.inr unit)))
    · exact .inr (.inr (falls (.inl before)))

private theorem kept_or_unit {v u : Value} {near far : Word} (against : abs v.delta = 1 ∨ StepKept v u near far) :
    widenStep v u near far = abs v.delta := by
  rcases step_or_unit v u near far with ⟨same,-⟩ | ⟨unit,more⟩
  · exact same
  · rcases against with one | kept
    · exact absurd one more
    · exact widenStep_kept kept

theorem widening_turns {v u : Value} (turns : Turns v u) : v.widening u = turned v := by
  obtain ⟨kind,kind',some,differ,widened,against⟩ := turns
  have walks : ¬ (v.isConst ∧ u.isConst) := by simp [widened.1]
  have top : ¬ (v.kind = .ALL ∨ u.kind = .ALL) := by simp [kind,kind']
  rw [widening,if_neg some,if_neg top,if_neg differ,if_neg walks]
  unfold Against at against
  split at against
  case isTrue down =>
    obtain ⟨up,against⟩ := against
    have step : abs v.delta = v.delta := by simp only [abs,up,Bool.false_eq_true,↓reduceIte]
    have stop : v.stop = v.lower + v.delta * v.mtimes := by simp only [stop,up,Bool.false_eq_true,↓reduceIte]
    rw [if_pos down]
    simp only [kept_or_unit against,← widened.2]
    rw [step,stop,turned]
  case isFalse notDown =>
    obtain ⟨starts,stops,down,against⟩ := against
    have step : abs v.delta = -v.delta := by simp only [abs,down,↓reduceIte]
    have start : v.start = v.lower + v.delta * v.mtimes := by simp only [start,down,↓reduceIte]
    rw [if_neg notDown,if_pos ⟨starts,stops⟩]
    simp only [kept_or_unit against,← widened.2]
    rw [step,start,turned]

theorem turned_ne {v : Value} (widened : Widened v) : turned v ≠ v := by
  intro same
  have opposite : -v.delta = v.delta := congrArg delta same
  have base : v.lower + v.delta * v.mtimes = v.lower := congrArg lower same
  have nonzero : v.delta ≠ 0 := by
    intro zero
    have := widened.1
    simp [isConst,zero] at this
  have half : v.delta = BitVec.intMin 32 := by
    apply BitVec.eq_of_toNat_eq
    have size := congrArg BitVec.toNat opposite
    have range := v.delta.isLt
    have positive : v.delta.toNat ≠ 0 := fun zero => nonzero (BitVec.eq_of_toNat_eq zero)
    rw [BitVec.toNat_neg,Nat.mod_eq_of_lt (by omega)] at size
    rw [show (BitVec.intMin 32).toNat = 2 ^ 31 by decide]
    omega
  have count : v.mtimes = 1 := by
    rw [widened.2,half]
    decide
  rw [half,count,mul_one] at base
  exact absurd (add_eq_left.mp base) (by decide)

/-- The values of a register at a loop header: each one is widened by its join with the
    value of the next iteration. -/
def WideningRun (v w : Nat → Value) : Prop :=
  ∀ n, ∃ u, (v n).join (w n) = some u ∧ v (n + 1) = (v n).widening u

/-- The value becomes constant. -/
def Settles (v : Nat → Value) : Prop := ∃ N, ∀ n ≥ N, v n = v N

/-- The step turns a walk. -/
def TurnsAt (v w : Nat → Value) (n : Nat) : Prop := ∃ u, (v n).join (w n) = some u ∧ Turns (v n) u

/-- A sequence that changes only down a scale settles. -/
private theorem settles_of_rank {v : Nat → Value} {N : Nat} (steps : ∀ n ≥ N, v (n + 1) = v n ∨ rank (v (n + 1)) < rank (v n)) :
    Settles v := by
  generalize level : rank (v N) = r
  induction r using Nat.strong_induction_on generalizing N with
  | _ r ih =>
    by_cases still : ∀ n ≥ N, v (n + 1) = v n
    · refine ⟨N,fun n later => ?_⟩
      induction n, later using Nat.le_induction with
      | base => rfl
      | succ n later same => exact (still n later).trans same
    · classical
      push Not at still
      -- the first change, up to which the value is that of the start
      obtain ⟨⟨later,moves⟩,first⟩ := Nat.find_spec still,fun m (below : m < Nat.find still) => Nat.find_min still below
      generalize Nat.find still = k at later moves first
      have same : v k = v N := by
        have all : ∀ m, N ≤ m → m ≤ k → v m = v N := by
          intro m after
          induction m, after using Nat.le_induction with
          | base => exact fun _ => rfl
          | succ m after kept =>
            intro before
            have stays := first m (by omega)
            simp only [not_and,not_not,ne_eq] at stays
            exact (stays after).trans (kept (by omega))
        exact all k later (le_refl k)
      have falls := (steps k later).resolve_left moves
      rw [same,level] at falls
      exact ih _ falls (fun n after => steps n (by omega)) rfl

/-- The value of a register settles exactly when its walk turns finitely often. -/
theorem widening_settles_iff {v w : Nat → Value} (run : WideningRun v w) :
    Settles v ↔ ∃ N, ∀ n ≥ N, ¬ TurnsAt v w n := by
  constructor
  · rintro ⟨N,still⟩
    refine ⟨N,fun n later turns => ?_⟩
    obtain ⟨u,joined,turns⟩ := turns
    obtain ⟨u',joined',next⟩ := run n
    obtain rfl : u = u' := Option.some.inj (joined.symm.trans joined')
    rw [widening_turns turns,still n later,still (n + 1) (by omega)] at next
    have widened : Widened (v N) := still n later ▸ turns.2.2.2.2.1
    exact turned_ne widened next.symm
  · rintro ⟨N,straight⟩
    refine settles_of_rank (N := N) fun n later => ?_
    obtain ⟨u,joined,next⟩ := run n
    rcases rank_widening (v n) u with same | turns | less
    · exact .inl (next.trans same)
    · exact absurd ⟨u,joined,turns⟩ (straight n later)
    · exact .inr (next ▸ less)

def counter (n : Nat) : Value := if n = 0 then const 0 else ⟨.VAL,0,1,umax⟩

theorem counter_run : WideningRun counter fun _ => const 4 := by
  intro n
  cases n with
  | zero => exact ⟨⟨.VAL,0,4,1⟩,by decide,by decide⟩
  | succ n =>
    refine ⟨⟨.VAL,0,1,umax⟩,?_,rfl⟩
    show (⟨.VAL,0,1,umax⟩ : Value).join (const 4) = _
    rw [join_walks rfl rfl (by decide) (by decide) (by decide +kernel)]
    decide +kernel

theorem widening_settles_iff_counter : Settles counter ↔ ∃ N, ∀ n ≥ N, ¬ TurnsAt counter (fun _ => const 4) n :=
  widening_settles_iff counter_run

def swing (n : Nat) : Value := if n % 2 = 0 then ⟨.VAL,0,-1,umax⟩ else ⟨.VAL,1,1,umax⟩

def swingInput (n : Nat) : Value := if n % 2 = 0 then ⟨.VAL,1,2,2 ^ 31 + 5⟩ else const 0

theorem swing_run : WideningRun swing swingInput := by
  intro n
  rcases Nat.mod_two_eq_zero_or_one n with even | odd
  · have next : ¬ (n + 1) % 2 = 0 := by omega
    refine ⟨⟨.VAL,1,1,10⟩,?_,?_⟩
    · rw [swing,swingInput,if_pos even,if_pos even,
        join_walks rfl rfl (by decide) (by decide) (by decide +kernel)]
      decide +kernel
    · rw [swing,swing,if_pos even,if_neg next]
      decide
  · have this : ¬ n % 2 = 0 := by omega
    have next : (n + 1) % 2 = 0 := by omega
    refine ⟨⟨.VAL,0,1,0⟩,?_,?_⟩
    · rw [swing,swingInput,if_neg this,if_neg this,
        join_walks rfl rfl (by decide) (by decide) (by decide +kernel)]
      decide +kernel
    · rw [swing,swing,if_neg this,if_pos next]
      decide

/-- The value swings for ever between the two forms of the set of all words. -/
theorem widening_swings : ¬ ∀ v w : Nat → Value, WideningRun v w → Settles v := by
  intro settles
  obtain ⟨N,still⟩ := settles swing swingInput swing_run
  have same := still (N + 1) (by omega)
  rcases Nat.mod_two_eq_zero_or_one N with even | odd
  · have next : ¬ (N + 1) % 2 = 0 := by omega
    rw [swing,swing,if_pos even,if_neg next] at same
    exact absurd same (by decide)
  · have this : ¬ N % 2 = 0 := by omega
    have next : (N + 1) % 2 = 0 := by omega
    rw [swing,swing,if_neg this,if_pos next] at same
    exact absurd same (by decide)

end Otawa.Clp.Value
