import LeechJit.IR.Progress
import LeechJit.Opt.ChecksExact

/-! # Results of executions after the elimination of checks

Where a check is gone, the check that dominates it has succeeded on the same operands. The
execution before steps over such a check, and the one after waits for it.
-/

namespace LeechJit.Opt.ChecksElimination

open IR Store Steps

variable {World : Type} {meaning : Meaning World} {args : List ConstVal} {world : World}
  {config config' next : Config World} {before store store' : Store} {func : Function}
  {op other id : InstId} {bb : BlockId} {inst : Inst} {front back rest gone : List InstId}
  {isDominatorBB : BlockId → BlockId → Bool} {order : Store → InstId → List InstId}
  {result : Option ConstVal × World}

/-- Dominance puts a definition before each use. -/
theorem definedBefore_of_strictlyDominates (wellFormed : before.WellFormed func)
    (bbMem : bb ∈ func.bbs) (split : before.instructions bb = front ++ op :: back)
    (dominates : before.StrictlyDominates func other op) :
    before.DefinedBefore func other bb front := by
  rcases dominates with ⟨home, homeMem, front', back', splitHome, defined⟩
  have here : op ∈ before.instructions bb := by simp [split]
  have there : op ∈ before.instructions home := by simp [splitHome]
  have same := wellFormed.home_unique bbMem homeMem here there
  subst same
  have nodup := wellFormed.instructions_nodup bbMem
  rw [splitHome, List.nodup_middle, List.nodup_cons, List.mem_append, not_or] at nodup
  have parts := splitHome.symm.trans split
  rw [List.append_cons_inj_of_notMem nodup.1.1 nodup.1.2] at parts
  rwa [← parts.1]

/-- A check does not depend on its type. -/
theorem act_check {kind : InstKind} (isKind : IsCheckKind kind) (type type' : ValueType)
    (operands : List (Option ConstVal)) :
    meaning.act args type kind operands world = meaning.act args type' kind operands world := by
  rcases isKind with rfl | rfl <;> rfl

theorem IsCheckKind.isPure {kind : InstKind} (isKind : IsCheckKind kind) :
    kind.isPure = true := by
  rcases isKind with rfl | rfl <;> rfl

/-- The execution after the elimination has the values of everything that is left. -/
structure Skips (meaning : Meaning World) (before : Store) (func : Function)
    (gone : List InstId) (config config' : Config World) : Prop where
  progressing : ∃ front, Progressing meaning before func front config
  pred : config'.pred = config.pred
  bb : config'.bb = config.bb
  world : config'.world = config.world
  rest : config'.rest = config.rest.filter (· ∉ gone)
  values : ∀ id ∉ gone, config'.values id = config.values id
  entered : ∀ id ∉ gone, config'.entered id = config.entered id

/-- Some of the checks that the same check dominates are gone, and none of them is used. -/
structure Thinned (before : Store) (func : Function) (gone : List InstId) (store : Store) : Prop
    extends Trimmed before func gone store where
  redundant : ∀ op ∈ gone, Redundant before func op
  unused : ∀ op ∈ gone, ∀ user ∈ before.listed func, op ∉ before.inputs user

section Thinned

variable (wellFormed : before.WellFormed func) (thinned : Thinned before func gone store)

include wellFormed thinned

theorem Thinned.skips_start :
    Skips meaning before func gone (before.start func world) (store.start func world) where
  progressing := ⟨[], progressing_start wellFormed.strict world⟩
  pred := rfl
  bb := rfl
  world := rfl
  rest := thinned.lists _ wellFormed.closed.entry_mem
  values _ _ := rfl
  entered _ _ := rfl

/-- The execution before steps over a check that is gone. -/
theorem Thinned.step_gone (progressing : Progressing meaning before func front config)
    (isRest : config.rest = op :: rest) (isGone : op ∈ gone) :
    ∃ held, before.step meaning args config = some (.goes { config with
      values := Function.update config.values op (some held), rest }) := by
  have placed := progressing.placed
  rw [isRest] at placed
  rcases thinned.redundant op isGone with ⟨other, otherMem, same, dominates⟩
  rcases same with ⟨inst, otherInst, found, otherFound, isKind, kinds, inputs⟩
  have isPure : before.IsPure other := ⟨otherInst, otherFound, by rw [kinds, isKind.isPure]⟩
  have defined := definedBefore_of_strictlyDominates wellFormed progressing.bbMem placed dominates
  rcases progressing.determined other isPure defined with ⟨again, held, foundAgain, -, acts⟩
  cases Option.some.inj (otherFound.symm.trans foundAgain)
  refine ⟨held, ?_⟩
  have operands : inst.reads config = otherInst.inputs.map config.values := by
    rw [reads_of_not_phi (InstKind.isPhi_of_isPure isKind.isPure), inputs]
  rw [step_eq isRest found, operands, act_check isKind inst.type otherInst.type, ← kinds, acts]
  rfl

omit wellFormed in
/-- Whatever is left reads the same values. -/
theorem Thinned.reads_eq (skips : Skips meaning before func gone config config')
    (member : id ∈ before.listed func)
    (found : before.insts id = some inst) {inst' : Inst} (kind : inst'.kind = inst.kind)
    (inputs : inst'.inputs = inst.inputs) : inst'.reads config' = inst.reads config := by
  have left : ∀ input ∈ inst.inputs, input ∉ gone := by
    intro input isInput isGone
    apply thinned.unused input isGone id member
    rwa [inputs_eq found]
  have same : inst'.inputs = inst.inputs.map fun input => input := by rw [inputs, List.map_id']
  apply Store.reads_eq kind same skips.pred
  · intro _ input isInput
    exact skips.values input (left input isInput)
  · intro vars _ input entry matched _
    exact skips.entered input (left input (List.of_mem_zip matched).1)

/-- Both executions step alike where nothing is gone. -/
theorem Thinned.matches_left (skips : Skips meaning before func gone config config')
    (isRest : config.rest = id :: rest) (isLeft : id ∉ gone) :
    Matches (before.step meaning args) (store.step meaning args)
      (Skips meaning before func gone) config config' := by
  rcases skips.progressing with ⟨front, progressing⟩
  have member : id ∈ before.listed func :=
    Consistent.mem_listed progressing.bbMem (by simp [progressing.placed, isRest])
  rcases wellFormed.housed.linked.stored id member with ⟨inst, found⟩
  rcases thinned.insts id member isLeft inst found with ⟨users, found'⟩
  have isRest' : config'.rest = id :: rest.filter (· ∉ gone) := by
    rw [skips.rest, isRest, List.filter_cons_of_pos (by simpa using isLeft)]
  have reads : ({ inst with users := users } : Inst).reads config' = inst.reads config :=
    thinned.reads_eq skips member found rfl rfl
  have here' : store.step meaning args config' = _ := step_eq isRest' found'
  rw [reads, skips.world] at here'
  apply Matches.of_map (step_eq isRest found) here'
  case goes =>
    intro action next acts performs
    have goes : before.step meaning args config = some (.goes next) := by
      rw [step_eq isRest found, acts, Option.map_some, performs]
    rcases progressing.step wellFormed.strict goes with ⟨frontNext, progressingNext⟩
    cases action with
    | value val world =>
        cases performs
        refine ⟨_, rfl, ?_⟩
        constructor
        case progressing => exact ⟨frontNext, progressingNext⟩
        case pred => exact skips.pred
        case bb => exact skips.bb
        case world => rfl
        case rest => rfl
        case entered => exact skips.entered
        case values =>
          intro key keyLeft
          dsimp only
          by_cases isId : key = id
          · rw [isId, Function.update_self, Function.update_self]
          · rw [Function.update_of_ne isId, Function.update_of_ne isId]
            exact skips.values key keyLeft
    | jump target =>
        cases performs
        refine ⟨_, rfl, ?_⟩
        constructor
        case progressing => exact ⟨frontNext, progressingNext⟩
        case pred => exact congrArg some skips.bb
        case bb => rfl
        case world => exact skips.world
        case rest => exact thinned.lists target progressingNext.bbMem
        case entered => exact skips.values
        case values => exact skips.values
    | ret val => cases performs
  case returns =>
    intro action result performs
    rw [← performs]
    cases action with
    | ret val => rw [Store.perform, Store.perform, skips.world]
    | value _ _ | jump _ => cases performs

/-- The execution after waits where a check is gone. -/
theorem Thinned.matches_or_waits (skips : Skips meaning before func gone config config') :
    Matches (before.step meaning args) (store.step meaning args)
        (Skips meaning before func gone) config config' ∨
      ∃ next, before.step meaning args config = some (.goes next) ∧
        Skips meaning before func gone next config' ∧
        next.rest.length < config.rest.length := by
  cases isRest : config.rest with
  | nil =>
      left
      have stuck : before.step meaning args config = none := by simp [Store.step, isRest]
      have stuck' : store.step meaning args config' = none := by
        simp [Store.step, skips.rest, isRest]
      constructor
      case stuck => exact fun _ => stuck'
      case goes =>
        intro next goes
        cases stuck.symm.trans goes
      case returns =>
        intro result returns
        cases stuck.symm.trans returns
  | cons id rest =>
      by_cases isGone : id ∈ gone
      · right
        rcases skips.progressing with ⟨front, progressing⟩
        rcases thinned.step_gone wellFormed progressing isRest isGone with ⟨held, goes⟩
        refine ⟨_, goes, ?_, by simp⟩
        constructor
        case progressing => exact progressing.step wellFormed.strict goes
        case pred => exact skips.pred
        case bb => exact skips.bb
        case world => exact skips.world
        case entered => exact skips.entered
        case rest =>
          rw [skips.rest, isRest, List.filter_cons_of_neg (by simpa using isGone)]
        case values =>
          intro key keyLeft
          have notOp : key ≠ id := fun same => keyLeft (same ▸ isGone)
          dsimp only
          rw [skips.values key keyLeft, Function.update_of_ne notOp]
      · exact .inl (thinned.matches_left wellFormed skips isRest isGone)

/-- Checks that are gone change no result. -/
theorem Thinned.results_iff : store.Results func meaning args world result ↔
    before.Results func meaning args world result := by
  symm
  apply completes_iff_of_waits (fun config => config.rest.length)
  · exact fun _ _ skips => thinned.matches_or_waits wellFormed skips
  · exact thinned.skips_start wellFormed

end Thinned

/-- What a run leaves. -/
theorem thinned_run (wellFormed : before.WellFormed func) (enumerates : Enumerates order)
    (answers : AnswersDominance isDominatorBB before func)
    (selfChecks : SelfChecksRedundant before func)
    (unused : ∀ op ∈ before.listed func, IsCheck before op → Redundant before func op →
      ∀ user ∈ before.listed func, op ∉ before.inputs user)
    (completes : run isDominatorBB order before func = .ok store') :
    ∃ gone, Thinned before func gone store' := by
  rcases trimmed_run wellFormed enumerates answers completes with ⟨gone, trimmed, isGone⟩
  have redundant : ∀ op ∈ gone, Redundant before func op := by
    intro op opGone
    rcases (isGone op).mp opGone with ⟨member, -, other, otherMem, covers, dominates⟩
    rcases covers.same_or_self wellFormed member otherMem with
      same | ⟨index, bound, opBounds, otherBounds⟩
    · exact ⟨other, otherMem, same, dominates⟩
    · exact selfChecks op member other otherMem index bound opBounds otherBounds dominates
  refine ⟨gone, trimmed, redundant, ?_⟩
  intro op opGone
  rcases (isGone op).mp opGone with ⟨member, isCheck, -⟩
  exact unused op member isCheck (redundant op opGone)

/-- The elimination changes no result of an execution when redundant checks are not used as
operands, and no check of a value against itself is taken for redundant to another one. -/
theorem elimination_keeps_results (wellFormed : before.WellFormed func)
    (enumerates : Enumerates order) (answers : AnswersDominance isDominatorBB before func)
    (selfChecks : SelfChecksRedundant before func)
    (unused : ∀ op ∈ before.listed func, IsCheck before op → Redundant before func op →
      ∀ user ∈ before.listed func, op ∉ before.inputs user)
    (completes : run isDominatorBB order before func = .ok store') (meaning : Meaning World)
    (args : List ConstVal) (world : World) (result : Option ConstVal × World) :
    store'.Results func meaning args world result ↔
      before.Results func meaning args world result := by
  rcases thinned_run wellFormed enumerates answers selfChecks unused completes with
    ⟨gone, thinned⟩
  exact thinned.results_iff wellFormed

/-- A bounds check passes below the bound. -/
def bounded : Meaning Unit where
  binOp
    | .kBoundsCheck, .I64 index, .I64 bound => if index.slt bound then some (.I1 true) else none
    | _, _, _ => none
  unaryOp _ val := some val
  cast _ val := some val
  isTrue val := val = .I1 true
  call _ _ _ := none

theorem selfChecksRedundant_checks : SelfChecksRedundant (checks 0 [2, 3]) checking := by
  intro op member other otherMem index bound isSelf
  rcases isSelf with ⟨inst, found, kind, inputs⟩
  have isListed : op ∈ [0, 1, 2, 3, 4] := member
  simp only [List.mem_cons, List.not_mem_nil, or_false] at isListed
  rcases isListed with rfl | rfl | rfl | rfl | rfl <;> cases found <;> cases inputs

theorem elimination_keeps_results_checks :
    ∃ store', run (fun _ _ => true) Store.users (checks 0 [2, 3]) checking = .ok store' ∧
      store'.listed checking = [0, 1, 2, 4] ∧
      (store'.Results checking bounded [.I64 3, .I64 5] () (none, ()) ↔
        (checks 0 [2, 3]).Results checking bounded [.I64 3, .I64 5] () (none, ())) := by
  have wellFormed : (checks 0 [2, 3]).WellFormed checking := checkWellFormed_sound rfl
  have runs : ∃ store', run (fun _ _ => true) Store.users (checks 0 [2, 3]) checking =
      .ok store' ∧ store'.listed checking = [0, 1, 2, 4] := ⟨_, rfl, by decide⟩
  have unused : ∀ op ∈ (checks 0 [2, 3]).listed checking, IsCheck (checks 0 [2, 3]) op →
      Redundant (checks 0 [2, 3]) checking op → ∀ user ∈ (checks 0 [2, 3]).listed checking,
        op ∉ (checks 0 [2, 3]).inputs user := by
    intro op member isCheck _
    rcases isCheck with ⟨inst, found, isKind⟩
    have isListed : op ∈ [0, 1, 2, 3, 4] := member
    simp only [List.mem_cons, List.not_mem_nil, or_false] at isListed
    rcases isListed with rfl | rfl | rfl | rfl | rfl
    · cases found
      rcases isKind with kind | kind <;> cases kind
    · cases found
      rcases isKind with kind | kind <;> cases kind
    · decide
    · decide
    · decide
  rcases runs with ⟨store', completes, isListed⟩
  exact ⟨store', completes, isListed, elimination_keeps_results wellFormed (fun _ _ _ => .rfl)
    (answersDominance_checks wellFormed) selfChecksRedundant_checks unused completes bounded
    [.I64 3, .I64 5] () _⟩

end LeechJit.Opt.ChecksElimination
