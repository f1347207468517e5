import LeechJit.IR.Execution
import LeechJit.IR.Precedence

/-! # What holds along an execution

At every point of an execution of a function in SSA form, an operation whose definition
dominates the point has the value that its operator yields on the present values of its
operands.
-/

namespace LeechJit.IR.Store

variable {World : Type} {store : Store} {func : Function} {meaning : Meaning World}
  {args : List ConstVal} {config next : Config World} {id value : InstId}
  {values : Values} {val : Option ConstVal} {front back : List InstId} {bb : BlockId}

def IsConst (store : Store) (id : InstId) : Prop :=
  ∃ inst val, store.insts id = some inst ∧ inst.kind = .kConst val

/-- All ids but those of the constants of the function. -/
def nonConstants (store : Store) (func : Function) : Set InstId :=
  { id | ¬ (id ∈ store.listed func ∧ store.IsConst id) }

/-- What an execution relies on. The definitions of constants need not come before their
uses. -/
structure Flows (store : Store) (func : Function) : Prop extends store.Housed func where
  reachable : ∀ bb ∈ func.bbs, (store.cfg func).Reachable bb
  defined : store.UsesDefined func (store.nonConstants func)
  branches : ∀ bb ∈ func.bbs, ∀ front id back, store.instructions bb = front ++ id :: back →
    ∀ inst, store.insts id = some inst → ∀ target ∈ inst.kind.targets,
      back = [] ∧ target ∈ store.succs bb

/-- The value of an operation is what its operator yields on its operands. -/
def Computed (meaning : Meaning World) (store : Store) (values : Values) (id : InstId) : Prop :=
  ∃ inst oper lhs rhs left right val, store.insts id = some inst ∧ inst.kind = .kBinOp oper ∧
    inst.inputs = [lhs, rhs] ∧ values lhs = some left ∧ values rhs = some right ∧
    meaning.binOp oper left right = some val ∧ values id = some val

/-- Constants have their value, if any. -/
def ConstsHold (store : Store) (values : Values) : Prop :=
  ∀ id inst val held, store.insts id = some inst → inst.kind = .kConst val →
    values id = some held → held = val

/-- What holds at a point of an execution with `front` behind it. -/
structure Coherent (meaning : Meaning World) (store : Store) (func : Function)
    (front : List InstId) (config : Config World) : Prop where
  bbMem : config.bb ∈ func.bbs
  placed : store.instructions config.bb = front ++ config.rest
  consts : store.ConstsHold config.values
  computed : ∀ id, store.IsBinOp id → store.DefinedBefore func id config.bb front →
    Computed meaning store config.values id
  constsEntered : store.ConstsHold config.entered
  atEntry : ∀ pred, config.pred = some pred → ∀ id, store.IsBinOp id →
    store.DefinedAtEnd func id pred → Computed meaning store config.entered id

/-! ## Well-formed functions -/

theorem IsBinOp.mem_nonConstants (binOp : store.IsBinOp id) : id ∈ store.nonConstants func := by
  rintro ⟨-, inst, val, found, isConst⟩
  rcases binOp with ⟨again, oper, foundAgain, kind⟩
  cases Option.some.inj (found.symm.trans foundAgain)
  cases kind.symm.trans isConst

theorem WellFormed.flows (wellFormed : store.WellFormed func) : store.Flows func where
  toHoused := wellFormed.housed
  reachable := wellFormed.reachable
  defined := wellFormed.usesDefined _
  branches bb bbMem front id back split inst found target isTarget := by
    have terminates : inst.kind.isTerminator := by
      cases kind : inst.kind with
      | kIf _ _ | kJump _ => rfl
      | _ =>
          rw [kind] at isTarget
          cases isTarget
    rcases wellFormed.branches bb bbMem with
      ⟨others, last, lastInst, ends, lastFound, -, succs, notTerminators⟩
    have isLast : id = last := by
      have member : id ∈ others ++ [last] := by
        rw [← ends, split]
        simp
      rcases List.mem_append.mp member with inOthers | isLast
      · rw [notTerminators id inOthers inst found] at terminates
        cases terminates
      · exact List.mem_singleton.mp isLast
    subst isLast
    cases Option.some.inj (found.symm.trans lastFound)
    have nodup := wellFormed.instructions_nodup bbMem
    rw [split] at ends nodup
    have alone := (List.nodup_cons.mp (List.nodup_middle.mp nodup)).1
    rw [List.mem_append, not_or] at alone
    refine ⟨((List.append_cons_inj_of_notMem alone.1 alone.2).mp ends).2.2, ?_⟩
    rw [succs]
    exact isTarget

/-! ## Values -/

theorem ConstsHold.update (consts : store.ConstsHold values)
    (own : ∀ inst const, store.insts id = some inst → inst.kind = .kConst const →
      val = some const) : store.ConstsHold (Function.update values id val) := by
  intro key inst const held found isConst holds
  by_cases same : key = id
  · subst same
    rw [Function.update_self, own inst const found isConst] at holds
    exact (Option.some.inj holds).symm
  · rw [Function.update_of_ne same] at holds
    exact consts key inst const held found isConst holds

theorem Computed.of_inputs (computed : Computed meaning store values id) {inst : Inst}
    {oper : BinOp.Oper} {lhs rhs : InstId} (found : store.insts id = some inst)
    (kind : inst.kind = .kBinOp oper) (inputs : store.inputs id = [lhs, rhs]) :
    ∃ left right val, values lhs = some left ∧ values rhs = some right ∧
      meaning.binOp oper left right = some val ∧ values id = some val := by
  rcases computed with
    ⟨again, oper', lhs', rhs', left, right, val, foundAgain, kind', inputs', isLeft, isRight,
      evaluated, holds⟩
  cases Option.some.inj (found.symm.trans foundAgain)
  cases kind.symm.trans kind'
  cases inputs.symm.trans ((inputs_eq found).trans inputs')
  exact ⟨left, right, val, isLeft, isRight, evaluated, holds⟩

/-- A new value does not disturb an operation that does not use it, or not another one. -/
theorem Computed.update {key : InstId} (computed : Computed meaning store values key)
    (different : key ≠ id)
    (same : ∀ held, id ∈ store.inputs key → values id = some held → val = some held) :
    Computed meaning store (Function.update values id val) key := by
  rcases computed with
    ⟨inst, oper, lhs, rhs, left, right, result, found, kind, inputs, isLeft, isRight, evaluated,
      holds⟩
  have operand : ∀ input held, input ∈ inst.inputs → values input = some held →
      Function.update values id val input = some held := by
    intro input held isInput before
    by_cases isId : input = id
    · subst isId
      rw [Function.update_self]
      exact same held (by rwa [inputs_eq found]) before
    · rwa [Function.update_of_ne isId]
  refine ⟨inst, oper, lhs, rhs, left, right, result, found, kind, inputs, ?_, ?_, evaluated, ?_⟩
  · exact operand lhs left (by simp [inputs]) isLeft
  · exact operand rhs right (by simp [inputs]) isRight
  · rwa [Function.update_of_ne different]

namespace Flows

theorem inOrder_nodup (flows : store.Flows func) : (store.inOrder func).Nodup :=
  ((Graph.reversePostOrder_perm flows.closed flows.reachable).flatMap_right
    store.instructions).nodup_iff.mpr flows.nodup

/-- What is defined before an instruction does not use it. -/
theorem not_uses (flows : store.Flows func) (bbMem : bb ∈ func.bbs)
    (split : store.instructions bb = front ++ id :: back) (binOp : store.IsBinOp value)
    (defined : store.DefinedBefore func value bb front)
    (isNeeded : id ∈ store.nonConstants func) : id ∉ store.inputs value := by
  intro uses
  have home : ∃ home ∈ func.bbs, value ∈ store.instructions home := by
    rcases defined with here | ⟨dom, domMem, inDom, -⟩
    · exact ⟨bb, bbMem, by simp [split, here]⟩
    · exact ⟨dom, domMem, inDom⟩
  rcases home with ⟨home, homeMem, inHome⟩
  rcases List.append_of_mem inHome with ⟨before, after, splitHome⟩
  rcases binOp with ⟨inst, oper, found, kind⟩
  have notPhi : inst.kind.isPhi = false := Inst.not_phi kind
  rw [inputs_eq found] at uses
  have earlier := flows.defined.uses home homeMem before value after splitHome inst found notPhi id
    uses isNeeded
  have first := Graph.idxOf_lt_of_sublist flows.inOrder_nodup
    (inOrder_sublist flows.closed (flows.reachable home homeMem) splitHome earlier)
  have second := Graph.idxOf_lt_of_sublist flows.inOrder_nodup
    (inOrder_sublist flows.closed (flows.reachable bb bbMem) split defined)
  exact Nat.lt_asymm first second

end Flows

/-! ## Between blocks -/

/-- What is defined at a point behind a branch is defined when the branch is taken. -/
theorem definedAtEnd_of_edge {target : BlockId} (edge : target ∈ store.succs bb)
    (defined : store.DefinedBefore func value target []) : store.DefinedAtEnd func value bb := by
  rcases defined with inNil | ⟨dom, domMem, inDom, different, dominates⟩
  · cases inNil
  · exact ⟨dom, domMem, inDom, dominates.of_edge different edge⟩

/-- What is defined at the end of a block is defined before its branch. -/
theorem definedBefore_of_atEnd (split : store.instructions bb = front ++ [id])
    (different : value ≠ id) (defined : store.DefinedAtEnd func value bb) : store.DefinedBefore func value bb front := by
  rcases defined with ⟨dom, domMem, inDom, dominates⟩
  by_cases same : dom = bb
  · subst same
    rw [split, List.mem_append, List.mem_singleton] at inDom
    exact .inl (inDom.resolve_right different)
  · exact .inr ⟨dom, domMem, inDom, same, dominates⟩

/-! ## Steps -/

theorem coherent_start (flows : store.Flows func) (world : World) :
    Coherent meaning store func [] (store.start func world) where
  bbMem := flows.closed.entry_mem
  placed := rfl
  consts _ _ _ _ _ _ holds := by cases holds
  constsEntered _ _ _ _ _ _ holds := by cases holds
  atEntry _ isPred := by cases isPred
  computed id _ defined := by
    rcases defined with inNil | ⟨dom, -, -, different, dominates⟩
    · cases inNil
    · exact absurd (List.mem_singleton.mp (dominates [root func] (.here _))) different

namespace Coherent

variable {rest : List InstId} {inst : Inst} {world : World}

/-- An operation finds the values of its operands. -/
theorem binOp_computed (flows : store.Flows func)
    (coherent : Coherent meaning store func front config) (isRest : config.rest = id :: rest)
    {oper : BinOp.Oper} (found : store.insts id = some inst) (kind : inst.kind = .kBinOp oper)
    (acts : meaning.act args inst.type inst.kind (inst.reads config) config.world =
      some (.value val world)) :
    Computed meaning store (Function.update config.values id val) id := by
  have member : id ∈ store.listed func := by
    apply Consistent.mem_listed coherent.bbMem
    simp [coherent.placed, isRest]
  have notSelf := flows.linked.not_self member ⟨inst, oper, found, kind⟩
  rcases flows.linked.two_inputs member found kind with ⟨lhs, rhs, inputs⟩
  rw [reads_of_binOp kind, kind, inputs] at acts
  rcases Meaning.act_binOp acts with ⟨left, right, result, isLeft, isRight, evaluated, equal⟩
  cases equal
  simp only [List.map_cons, List.getElem?_cons_zero, List.getElem?_cons_succ,
    Option.some.injEq] at isLeft isRight
  rw [inputs_eq found, inputs, List.mem_pair, not_or] at notSelf
  refine ⟨inst, oper, lhs, rhs, left, right, result, found, kind, inputs, ?_, ?_, evaluated, ?_⟩
  · rwa [Function.update_of_ne (Ne.symm notSelf.1)]
  · rwa [Function.update_of_ne (Ne.symm notSelf.2)]
  · exact Function.update_self ..

theorem afterValue (flows : store.Flows func)
    (coherent : Coherent meaning store func front config) (isRest : config.rest = id :: rest)
    (found : store.insts id = some inst)
    (acts : meaning.act args inst.type inst.kind (inst.reads config) config.world =
      some (.value val world)) :
    Coherent meaning store func (front ++ [id])
      { config with values := Function.update config.values id val, rest, world } := by
  have own : ∀ again const, store.insts id = some again → again.kind = .kConst const →
      val = some const := by
    intro again const foundAgain isConst
    cases Option.some.inj (found.symm.trans foundAgain)
    rw [isConst] at acts
    cases acts
    rfl
  have placed := coherent.placed
  rw [isRest] at placed
  constructor
  case bbMem => exact coherent.bbMem
  case placed => simp [placed]
  case consts => exact coherent.consts.update own
  case constsEntered => exact coherent.constsEntered
  case atEntry => exact coherent.atEntry
  case computed =>
    intro key binOp defined
    by_cases same : key = id
    · subst same
      rcases binOp with ⟨again, oper, foundAgain, kind⟩
      cases Option.some.inj (found.symm.trans foundAgain)
      exact binOp_computed flows coherent isRest found kind acts
    · have before : store.DefinedBefore func key config.bb front := by
        rcases defined with inFront | outside
        · rw [List.mem_append, List.mem_singleton] at inFront
          exact .inl (inFront.resolve_right same)
        · exact .inr outside
      apply (coherent.computed key binOp before).update same
      -- Only a constant is executed after what uses it, and it has its value already.
      intro held uses holds
      by_cases isNeeded : id ∈ store.nonConstants func
      · exact absurd uses (flows.not_uses coherent.bbMem placed binOp before isNeeded)
      · rcases Classical.not_not.mp isNeeded with ⟨-, again, const, foundAgain, isConst⟩
        rw [own again const foundAgain isConst,
          coherent.consts id again const held foundAgain isConst holds]

theorem afterJump (flows : store.Flows func)
    (coherent : Coherent meaning store func front config) (isRest : config.rest = id :: rest)
    (found : store.insts id = some inst) {target : BlockId} (isTarget : target ∈ inst.kind.targets) :
    Coherent meaning store func [] (store.enter target config) := by
  have placed := coherent.placed
  rw [isRest] at placed
  rcases flows.branches config.bb coherent.bbMem front id rest placed inst found target isTarget with
    ⟨rfl, edge⟩
  have computed : ∀ key, store.IsBinOp key → store.DefinedAtEnd func key config.bb →
      Computed meaning store config.values key := by
    intro key binOp defined
    have different : key ≠ id := by
      rintro rfl
      rcases binOp with ⟨again, oper, foundAgain, kind⟩
      cases Option.some.inj (found.symm.trans foundAgain)
      rw [kind] at isTarget
      cases isTarget
    exact coherent.computed key binOp
      (definedBefore_of_atEnd placed different defined)
  constructor
  case bbMem => exact flows.closed.succs_mem _ coherent.bbMem _ edge
  case placed => rfl
  case consts => exact coherent.consts
  case constsEntered => exact coherent.consts
  case atEntry =>
    intro pred isPred
    cases isPred
    exact computed
  case computed =>
    intro key binOp defined
    exact computed key binOp (definedAtEnd_of_edge edge defined)

theorem step (flows : store.Flows func)
    (coherent : Coherent meaning store func front config)
    (steps : store.step meaning args config = some (.goes next)) :
    ∃ front', Coherent meaning store func front' next := by
  rcases step_eq_some steps with ⟨id, rest, inst, action, isRest, found, acts, performs⟩
  cases action with
  | value val world =>
      cases performs
      exact ⟨_, coherent.afterValue flows isRest found acts⟩
  | jump target =>
      cases performs
      exact ⟨_, coherent.afterJump flows isRest found (Meaning.target_mem acts)⟩
  | ret val => cases performs

end Coherent

theorem coherent_next (flows : store.Flows func)
    (coherent : ∃ front, Coherent meaning store func front config)
    (steps : store.step meaning args config = some (.goes next)) :
    ∃ front, Coherent meaning store func front next := by
  rcases coherent with ⟨front, coherent⟩
  exact coherent.step flows steps

end LeechJit.IR.Store
