import LeechJit.IR.Check
import LeechJit.IR.Coherence

/-! # Operands are there when they are read

Along an execution of a function in which every definition, those of constants included,
dominates its uses, whatever has been executed has its value. An instruction without
effects then has the value that it would yield again, and the execution stops only where
the meaning of an instruction has nothing to say about the values of its operands.
-/

namespace LeechJit.IR

/-- What an instruction yields depends on nothing but the values of its operands. -/
def InstKind.isPure : InstKind → Bool
  | .kBinOp _ | .kUnaryOp _ | .kCast => true
  | _ => false

theorem InstKind.isPhi_of_isPure {kind : InstKind} (isPure : kind.isPure = true) :
    kind.isPhi = false := by
  cases kind with
  | kPhi vars => cases isPure
  | _ => rfl

/-- The instructions whose values are read, for a phi those that go with the predecessor. -/
def Inst.operandsFrom (inst : Inst) (pred : Option BlockId) : List InstId :=
  match inst.kind with
  | .kPhi vars =>
      ((inst.inputs.zip vars).filter fun use => decide (some use.2.bb = pred)).map Prod.fst
  | _ => inst.inputs

/-- The values they are read from. -/
def Inst.source {World : Type} (inst : Inst) (config : Config World) : Values :=
  if inst.kind.isPhi then config.entered else config.values

/-- There is no argument, or the meaning has no result for these values. -/
def Meaning.Refuses {World : Type} (meaning : Meaning World) (args : List ConstVal) (inst : Inst)
    (vals : List ConstVal) (world : World) : Prop :=
  match inst.kind, vals with
  | .kParam idx, _ => args.length ≤ idx
  | .kBinOp oper, [lhs, rhs] => meaning.binOp oper lhs rhs = none
  | .kUnaryOp oper, [val] => meaning.unaryOp oper val = none
  | .kCast, [val] => meaning.cast inst.type val = none
  | .kCall callee, vals => meaning.call callee vals world = none
  | _, _ => False

namespace Meaning

variable {World : Type} {meaning : Meaning World} {args args' : List ConstVal} {type : ValueType}
  {kind : InstKind} {operands : List (Option ConstVal)} {world world' : World}
  {val : Option ConstVal}

theorem act_pure (isPure : kind.isPure = true)
    (acts : meaning.act args type kind operands world = some (.value val world')) :
    world' = world ∧ ∃ held, val = some held ∧
      ∀ args' other, meaning.act args' type kind operands other = some (.value val other) := by
  cases kind with
  | kBinOp oper =>
      rcases act_binOp acts with ⟨lhs, rhs, held, isLhs, isRhs, evaluated, equal⟩
      cases equal
      refine ⟨rfl, held, rfl, fun args' other => ?_⟩
      simp [act, operand, isLhs, isRhs, evaluated]
  | kUnaryOp oper =>
      simp only [act, Option.bind_eq_bind, Option.bind_eq_some_iff] at acts
      rcases acts with ⟨input, isInput, held, evaluated, equal⟩
      cases equal
      refine ⟨rfl, held, rfl, fun args' other => ?_⟩
      simp [act, isInput, evaluated]
  | kCast =>
      simp only [act, Option.bind_eq_bind, Option.bind_eq_some_iff] at acts
      rcases acts with ⟨input, isInput, held, evaluated, equal⟩
      cases equal
      refine ⟨rfl, held, rfl, fun args' other => ?_⟩
      simp [act, isInput, evaluated]
  | _ => cases isPure

/-- Only a call may come back without a value. -/
theorem act_value (notCall : ∀ callee, kind ≠ .kCall callee)
    (acts : meaning.act args type kind operands world = some (.value val world')) :
    ∃ held, val = some held := by
  cases kind with
  | kConst held =>
      cases acts
      exact ⟨held, rfl⟩
  | kBinOp _ | kUnaryOp _ | kCast =>
      rcases act_pure rfl acts with ⟨-, held, isHeld, -⟩
      exact ⟨held, isHeld⟩
  | kCall callee => exact absurd rfl (notCall callee)
  | kParam idx | kPhi vars =>
      simp only [act, Option.bind_eq_bind, Option.bind_eq_some_iff] at acts
      rcases acts with ⟨held, -, equal⟩
      cases equal
      exact ⟨held, rfl⟩
  | kIf trueBB falseBB => simp [act, Option.bind_eq_some_iff] at acts
  | kJump target => cases acts
  | kRet =>
      cases operands with
      | nil => cases acts
      | cons first rest => cases first <;> cases acts

/-- A branch or a return has no value. -/
theorem not_value_of_terminator (terminates : kind.isTerminator = true) :
    meaning.act args type kind operands world ≠ some (.value val world') := by
  intro acts
  cases kind with
  | kIf trueBB falseBB => simp [act, Option.bind_eq_some_iff] at acts
  | kJump target => cases acts
  | kRet =>
      cases operands with
      | nil => cases acts
      | cons first rest => cases first <;> cases acts
  | _ => cases terminates

theorem mapM_some (vals : List ConstVal) : vals.mapM some = some vals := by
  induction vals with
  | nil => rfl
  | cons val rest induction => simp [List.mapM_cons, induction]

/-- With the values of all operands only a meaning without a result stops an instruction. -/
theorem refuses_of_act_none {inst : Inst} {vals : List ConstVal} (shaped : inst.Shaped)
    (fits : inst.kind.isPhi = false → vals.length = inst.inputs.length)
    (stuck : meaning.act args inst.type inst.kind (vals.map some) world = none) :
    meaning.Refuses args inst vals world ∨ (inst.kind.isPhi = true ∧ vals = []) := by
  unfold Inst.Shaped at shaped
  unfold Refuses
  cases kind : inst.kind with
  | kConst _ | kJump _ => simp [act, kind] at stuck
  | kParam idx =>
      left
      cases held : args[idx]? with
      | none => exact List.getElem?_eq_none_iff.mp held
      | some val => simp [act, kind, held] at stuck
  | kPhi vars =>
      cases vals with
      | nil => exact .inr ⟨rfl, rfl⟩
      | cons val rest => simp [act, kind, operand] at stuck
  | kCall callee =>
      left
      apply Option.eq_none_iff_forall_ne_some.mpr
      simpa [act, kind, mapM_some] using stuck
  | kRet =>
      cases vals with
      | nil => simp [act, kind] at stuck
      | cons val rest => simp [act, kind] at stuck
  | kBinOp oper =>
      rw [kind] at shaped
      rcases List.length_eq_two.mp ((fits (by rw [kind]; rfl)).trans shaped) with ⟨lhs, rhs, rfl⟩
      left
      apply Option.eq_none_iff_forall_ne_some.mpr
      simpa [act, kind, operand] using stuck
  | kIf _ _ =>
      rw [kind] at shaped
      rcases List.length_eq_one_iff.mp ((fits (by rw [kind]; rfl)).trans shaped) with ⟨val, rfl⟩
      simp [act, kind, operand] at stuck
  | kUnaryOp _ | kCast =>
      rw [kind] at shaped
      rcases List.length_eq_one_iff.mp ((fits (by rw [kind]; rfl)).trans shaped) with ⟨val, rfl⟩
      left
      apply Option.eq_none_iff_forall_ne_some.mpr
      simpa [act, kind, operand] using stuck

end Meaning

namespace Store

variable {World : Type} {store : Store} {func : Function} {meaning : Meaning World}
  {args : List ConstVal} {config next : Config World} {id value : InstId} {inst : Inst}
  {values : Values} {val : Option ConstVal} {front back rest : List InstId} {bb : BlockId}

/-- The instruction leaves a value wherever it is executed. A call may return without one. -/
def Yields (store : Store) (id : InstId) : Prop :=
  ∃ inst, store.insts id = some inst ∧ producesValue inst.kind = true ∧
    ∀ callee, inst.kind ≠ .kCall callee

def IsPure (store : Store) (id : InstId) : Prop :=
  ∃ inst, store.insts id = some inst ∧ inst.kind.isPure = true

/-- An instruction without effects has the value that it yields on its operands. -/
def Determined (meaning : Meaning World) (store : Store) (values : Values) (id : InstId) : Prop :=
  ∃ inst held, store.insts id = some inst ∧ values id = some held ∧ ∀ args world,
    meaning.act args inst.type inst.kind (inst.inputs.map values) world =
      some (.value (some held) world)

/-- The definitions of all values dominate their uses. -/
structure Strict (store : Store) (func : Function) : Prop extends store.Housed func where
  reachable : ∀ bb ∈ func.bbs, (store.cfg func).Reachable bb
  usesDefined : store.UsesDefined func Set.univ
  branches : ∀ bb ∈ func.bbs, ∀ front id back, store.instructions bb = front ++ id :: back →
    ∀ inst, store.insts id = some inst → ∀ target ∈ inst.kind.targets,
      back = [] ∧ target ∈ store.succs bb

/-- What holds at a point of an execution with `front` behind it. -/
structure Progressing (meaning : Meaning World) (store : Store) (func : Function)
    (front : List InstId) (config : Config World) : Prop where
  bbMem : config.bb ∈ func.bbs
  placed : store.instructions config.bb = front ++ config.rest
  edge : ∀ pred, config.pred = some pred → pred ∈ func.bbs ∧ config.bb ∈ store.succs pred
  filled : ∀ id, store.Yields id → store.DefinedBefore func id config.bb front →
    ∃ held, config.values id = some held
  filledEntered : ∀ pred, config.pred = some pred → ∀ id, store.Yields id →
    store.DefinedAtEnd func id pred → ∃ held, config.entered id = some held
  determined : ∀ id, store.IsPure id → store.DefinedBefore func id config.bb front →
    Determined meaning store config.values id

/-! ## Strict functions -/

theorem Strict.flows (strict : store.Strict func) : store.Flows func where
  toHoused := strict.toHoused
  reachable := strict.reachable
  defined := strict.usesDefined.mono (Set.subset_univ _)
  branches := strict.branches

theorem WellFormed.strict (wellFormed : store.WellFormed func) : store.Strict func where
  toHoused := wellFormed.housed
  reachable := wellFormed.reachable
  usesDefined := wellFormed.usesDefined _
  branches := wellFormed.flows.branches

/-- What is defined before an instruction is another one, and does not use it. -/
theorem Strict.not_uses (strict : store.Strict func) (bbMem : bb ∈ func.bbs)
    (split : store.instructions bb = front ++ id :: back) (found : store.insts value = some inst)
    (notPhi : inst.kind.isPhi = false)
    (defined : value = id ∨ store.DefinedBefore func value bb front) : id ∉ inst.inputs := by
  intro uses
  have home : ∃ home ∈ func.bbs, value ∈ store.instructions home := by
    rcases defined with rfl | here | ⟨dom, domMem, inDom, -⟩
    · exact ⟨bb, bbMem, by simp [split]⟩
    · exact ⟨bb, bbMem, by simp [split, here]⟩
    · exact ⟨dom, domMem, inDom⟩
  rcases home with ⟨home, homeMem, inHome⟩
  rcases List.append_of_mem inHome with ⟨before, after, splitHome⟩
  have earlier := strict.usesDefined.uses home homeMem before value after splitHome inst found
    notPhi id uses (Set.mem_univ _)
  have nodup := strict.flows.inOrder_nodup
  have first := Graph.idxOf_lt_of_sublist nodup
    (inOrder_sublist strict.closed (strict.reachable home homeMem) splitHome earlier)
  rcases defined with rfl | defined
  · exact Nat.lt_irrefl _ first
  · have second := Graph.idxOf_lt_of_sublist nodup
      (inOrder_sublist strict.closed (strict.reachable bb bbMem) split defined)
    exact Nat.lt_asymm first second

/-! ## Steps -/

theorem Determined.update (determined : Determined meaning store values value)
    (different : value ≠ id)
    (notUsed : ∀ inst, store.insts value = some inst → id ∉ inst.inputs) :
    Determined meaning store (Function.update values id val) value := by
  rcases determined with ⟨inst, held, found, holds, acts⟩
  have operands : inst.inputs.map (Function.update values id val) = inst.inputs.map values := by
    apply List.map_congr_left
    intro input isInput
    have other : input ≠ id := fun equal => notUsed inst found (equal ▸ isInput)
    exact Function.update_of_ne other ..
  refine ⟨inst, held, found, ?_, ?_⟩
  · rwa [Function.update_of_ne different]
  · rwa [operands]

theorem progressing_start (strict : store.Strict func) (world : World) :
    Progressing meaning store func [] (store.start func world) := by
  have nothing : ∀ id, ¬ store.DefinedBefore func id (root func) [] := by
    rintro id (inNil | ⟨dom, -, -, different, dominates⟩)
    · cases inNil
    · exact different (List.mem_singleton.mp (dominates [root func] (.here _)))
  constructor
  case bbMem => exact strict.closed.entry_mem
  case placed => rfl
  case edge =>
    intro pred isPred
    cases isPred
  case filled => exact fun id _ defined => absurd defined (nothing id)
  case filledEntered =>
    intro pred isPred
    cases isPred
  case determined => exact fun id _ defined => absurd defined (nothing id)

namespace Progressing

theorem afterValue {world : World} (strict : store.Strict func)
    (progressing : Progressing meaning store func front config) (isRest : config.rest = id :: rest)
    (found : store.insts id = some inst)
    (acts : meaning.act args inst.type inst.kind (inst.reads config) config.world =
      some (.value val world)) :
    Progressing meaning store func (front ++ [id])
      { config with values := Function.update config.values id val, rest, world } := by
  have placed := progressing.placed
  rw [isRest] at placed
  have before : ∀ key, key ≠ id → store.DefinedBefore func key config.bb (front ++ [id]) →
      store.DefinedBefore func key config.bb front := by
    rintro key different (inFront | outside)
    · rw [List.mem_append, List.mem_singleton] at inFront
      exact .inl (inFront.resolve_right different)
    · exact .inr outside
  constructor
  case bbMem => exact progressing.bbMem
  case placed => simp [placed]
  case edge => exact progressing.edge
  case filledEntered => exact progressing.filledEntered
  case filled =>
    intro key yields defined
    dsimp only
    by_cases same : key = id
    · subst same
      rcases yields with ⟨again, foundAgain, -, notCall⟩
      cases Option.some.inj (found.symm.trans foundAgain)
      rw [Function.update_self]
      exact Meaning.act_value notCall acts
    · rw [Function.update_of_ne same]
      exact progressing.filled key yields (before key same defined)
  case determined =>
    intro key isPure defined
    by_cases same : key = id
    · subst same
      rcases isPure with ⟨again, foundAgain, isPure⟩
      cases Option.some.inj (found.symm.trans foundAgain)
      have notPhi := InstKind.isPhi_of_isPure isPure
      have notSelf := strict.not_uses progressing.bbMem placed found notPhi (.inl rfl)
      rw [reads_of_not_phi notPhi] at acts
      rcases Meaning.act_pure isPure acts with ⟨-, held, rfl, always⟩
      have operands : inst.inputs.map (Function.update config.values key (some held)) =
          inst.inputs.map config.values := by
        apply List.map_congr_left
        intro input isInput
        have other : input ≠ key := fun equal => notSelf (equal ▸ isInput)
        exact Function.update_of_ne other ..
      refine ⟨inst, held, found, Function.update_self .., ?_⟩
      rwa [operands]
    · have earlier := before key same defined
      apply (progressing.determined key isPure earlier).update same
      intro again foundAgain
      rcases isPure with ⟨own, foundOwn, isPure⟩
      cases Option.some.inj (foundAgain.symm.trans foundOwn)
      exact strict.not_uses progressing.bbMem placed foundAgain
        (InstKind.isPhi_of_isPure isPure) (.inr earlier)

theorem afterJump (strict : store.Strict func)
    (progressing : Progressing meaning store func front config) (isRest : config.rest = id :: rest)
    (found : store.insts id = some inst) {target : BlockId}
    (isTarget : target ∈ inst.kind.targets) :
    Progressing meaning store func [] (store.enter target config) := by
  have placed := progressing.placed
  rw [isRest] at placed
  rcases strict.branches config.bb progressing.bbMem front id rest placed inst found target
    isTarget with ⟨rfl, edge⟩
  -- The branch itself leaves no value.
  have before : ∀ key again, store.insts key = some again → producesValue again.kind = true →
      store.DefinedAtEnd func key config.bb → store.DefinedBefore func key config.bb front := by
    intro key again foundAgain produces defined
    apply definedBefore_of_atEnd placed _ defined
    rintro rfl
    cases Option.some.inj (found.symm.trans foundAgain)
    cases kind : inst.kind with
    | kIf _ _ | kJump _ =>
        rw [kind] at produces
        cases produces
    | _ =>
        rw [kind] at isTarget
        cases isTarget
  have filled : ∀ key, store.Yields key → store.DefinedAtEnd func key config.bb →
      ∃ held, config.values key = some held := by
    rintro key ⟨again, foundAgain, produces, notCall⟩ defined
    exact progressing.filled key ⟨again, foundAgain, produces, notCall⟩
      (before key again foundAgain produces defined)
  constructor
  case bbMem => exact strict.closed.succs_mem _ progressing.bbMem _ edge
  case placed => rfl
  case edge =>
    intro pred isPred
    cases isPred
    exact ⟨progressing.bbMem, edge⟩
  case filled => exact fun key yields defined => filled key yields (definedAtEnd_of_edge edge defined)
  case filledEntered =>
    intro pred isPred
    cases isPred
    exact filled
  case determined =>
    rintro key ⟨again, foundAgain, isPure⟩ defined
    have produces : producesValue again.kind = true := by
      cases kind : again.kind with
      | kBinOp _ | kUnaryOp _ | kCast => rfl
      | _ =>
          rw [kind] at isPure
          cases isPure
    exact progressing.determined key ⟨again, foundAgain, isPure⟩
      (before key again foundAgain produces (definedAtEnd_of_edge edge defined))

theorem step (strict : store.Strict func)
    (progressing : Progressing meaning store func front config)
    (steps : store.step meaning args config = some (.goes next)) :
    ∃ front', Progressing meaning store func front' next := by
  rcases step_eq_some steps with ⟨id, rest, inst, action, isRest, found, acts, performs⟩
  cases action with
  | value val world =>
      cases performs
      exact ⟨_, progressing.afterValue strict isRest found acts⟩
  | jump target =>
      cases performs
      exact ⟨_, progressing.afterJump strict isRest found (Meaning.target_mem acts)⟩
  | ret val => cases performs

end Progressing

theorem progressing_of_reaches (strict : store.Strict func) {world : World}
    (reaches : Steps.Reaches (store.step meaning args) (store.start func world) config) :
    ∃ front, Progressing meaning store func front config := by
  induction reaches with
  | refl => exact ⟨[], progressing_start strict world⟩
  | tail _ last induction =>
      rcases induction with ⟨front, progressing⟩
      exact progressing.step strict last

/-! ## Where an execution stops -/

/-- The next instruction has no result for the values of its operands, reads an operand
that came without a value, or is a phi of the first block, not entered over an edge. -/
def Stops (store : Store) (meaning : Meaning World) (args : List ConstVal)
    (config : Config World) : Prop :=
  ∃ id rest inst, config.rest = id :: rest ∧ store.insts id = some inst ∧
    ((∃ vals, inst.reads config = vals.map some ∧
        meaning.Refuses args inst vals config.world) ∨
      (∃ value ∈ inst.operandsFrom config.pred, ¬ store.Yields value ∧
        inst.source config value = none) ∨
      (inst.kind.isPhi = true ∧ config.pred = none))

theorem reads_eq_map : inst.reads config =
    (inst.operandsFrom config.pred).map (inst.source config) := by
  cases kind : inst.kind with
  | kPhi vars =>
      simp only [Inst.reads, Inst.operandsFrom, Inst.source, kind, InstKind.isPhi, if_true,
        List.map_map]
      rfl
  | _ =>
      simp only [Inst.reads, Inst.operandsFrom, Inst.source, kind, InstKind.isPhi,
        Bool.false_eq_true, if_false]

theorem exists_map_some {ids : List InstId}
    (complete : ∀ id ∈ ids, ∃ held, values id = some held) :
    ∃ vals : List ConstVal, ids.map values = vals.map some := by
  induction ids with
  | nil => exact ⟨[], rfl⟩
  | cons id rest induction =>
      rcases complete id List.mem_cons_self with ⟨held, isHeld⟩
      rcases induction fun other member => complete other (List.mem_cons_of_mem _ member) with
        ⟨vals, others⟩
      refine ⟨held :: vals, ?_⟩
      rw [List.map_cons, List.map_cons, isHeld, others]

theorem zip_vars {vars : List PhiEntry} :
    (vars.map PhiEntry.val).zip vars = vars.map fun own => (own.val, own) := by
  induction vars with
  | nil => rfl
  | cons first rest induction => simp [induction]

/-- Of entries for different blocks one goes with each. -/
theorem filter_entry {vars : List PhiEntry} {entry : PhiEntry}
    (nodup : (vars.map PhiEntry.bb).Nodup) (member : entry ∈ vars) :
    vars.filter (fun own => decide (some own.bb = some entry.bb)) = [entry] := by
  induction vars with
  | nil => cases member
  | cons first rest induction =>
      have parts := List.nodup_cons.mp nodup
      rcases List.mem_cons.mp member with rfl | inRest
      · have others : rest.filter (fun own => decide (some own.bb = some entry.bb)) = [] := by
          rw [List.filter_eq_nil_iff]
          intro own isOwn equal
          apply parts.1
          rw [← Option.some.inj (of_decide_eq_true equal)]
          exact List.mem_map_of_mem isOwn
        simp only [List.filter_cons, decide_true, if_true, others]
      · have different : ¬ some first.bb = some entry.bb := fun equal =>
          parts.1 (Option.some.inj equal ▸ List.mem_map_of_mem inRest)
        rw [List.filter_cons_of_neg (by simpa using different)]
        exact induction parts.2 inRest

section WellFormed

variable (wellFormed : store.WellFormed func)

include wellFormed

/-- A phi that is entered over an edge reads the one operand that goes with it. -/
theorem operandsFrom_phi {pred : BlockId} {vars : List PhiEntry}
    (progressing : Progressing meaning store func front config)
    (isPred : config.pred = some pred) (inBlock : id ∈ store.instructions config.bb)
    (found : store.insts id = some inst) (isPhi : inst.kind = .kPhi vars) :
    ∃ entry ∈ vars, entry.bb = pred ∧ inst.operandsFrom config.pred = [entry.val] := by
  rcases progressing.edge pred isPred with ⟨predMem, edge⟩
  have isPredecessor : pred ∈ store.preds config.bb := by
    have mirrored := wellFormed.mirrored pred predMem config.bb progressing.bbMem
    rw [← List.count_pos_iff, ← mirrored]
    exact List.count_pos_iff.mpr edge
  rcases wellFormed.entries config.bb progressing.bbMem id inBlock inst vars found isPhi with
    ⟨nodup, entries⟩
  rcases List.mem_map.mp ((entries pred).mpr isPredecessor) with ⟨entry, member, isEntry⟩
  have shaped := wellFormed.shaped (Consistent.mem_listed progressing.bbMem inBlock) found
  unfold Inst.Shaped at shaped
  rw [isPhi] at shaped
  refine ⟨entry, member, isEntry, ?_⟩
  have inputs : inst.inputs = vars.map PhiEntry.val := shaped
  have one := filter_entry nodup member
  simp only [Inst.operandsFrom, isPhi, inputs, zip_vars, isPred, List.filter_map, ← isEntry,
    Function.comp_def]
  rw [one]
  rfl

/-- What is read has a value, unless it may come without one. -/
theorem operand_filled (progressing : Progressing meaning store func front config)
    (isRest : config.rest = id :: rest) (found : store.insts id = some inst)
    (isOperand : value ∈ inst.operandsFrom config.pred) (yields : store.Yields value) :
    ∃ held, inst.source config value = some held := by
  have placed := progressing.placed
  rw [isRest] at placed
  cases isPhi : inst.kind.isPhi with
  | false =>
      have isInput : value ∈ inst.inputs := by
        unfold Inst.operandsFrom at isOperand
        split at isOperand
        case h_1 vars kind => simp [kind, InstKind.isPhi] at isPhi
        case h_2 => exact isOperand
      simp only [Inst.source, isPhi, Bool.false_eq_true, if_false]
      exact progressing.filled value yields
        (wellFormed.uses config.bb progressing.bbMem front id rest placed inst found isPhi value
          isInput)
  | true =>
      cases kind : inst.kind with
      | kPhi vars =>
          simp only [Inst.source, isPhi, if_true]
          cases isPred : config.pred with
          | none => simp [Inst.operandsFrom, kind, isPred] at isOperand
          | some pred =>
              have inBlock : id ∈ store.instructions config.bb := by simp [placed]
              rcases operandsFrom_phi wellFormed progressing isPred inBlock found kind with
                ⟨entry, member, isEntry, operands⟩
              rw [operands, List.mem_singleton] at isOperand
              subst isOperand
              apply progressing.filledEntered pred isPred entry.val yields
              rw [← isEntry]
              exact wellFormed.phiUses config.bb progressing.bbMem id inBlock inst vars found kind
                entry member
      | _ => simp [kind, InstKind.isPhi] at isPhi

/-- An execution does not run past the end of a block. -/
theorem rest_ne_nil {world : World}
    (reaches : Steps.Reaches (store.step meaning args) (store.start func world) config) :
    config.rest ≠ [] := by
  have nonempty : ∀ bb ∈ func.bbs, store.instructions bb ≠ [] := by
    intro bb bbMem
    rcases wellFormed.branches bb bbMem with ⟨front, last, -, ends, -⟩
    simp [ends]
  induction reaches with
  | refl => exact nonempty _ wellFormed.closed.entry_mem
  | tail earlier last induction =>
      rcases progressing_of_reaches wellFormed.strict earlier with ⟨front, progressing⟩
      rcases step_eq_some last with ⟨id, rest, inst, action, isRest, found, acts, performs⟩
      have placed := progressing.placed
      rw [isRest] at placed
      cases action with
      | value val world =>
          cases performs
          -- The last instruction of a block ends it.
          rintro rfl
          rcases wellFormed.branches _ progressing.bbMem with
            ⟨others, final, own, ends, foundOwn, terminates, -⟩
          have same : final = id := by
            have lists := placed.symm.trans ends
            exact (List.append_inj' lists rfl).2 |> List.singleton_inj.mp |> Eq.symm
          subst same
          cases Option.some.inj (found.symm.trans foundOwn)
          exact Meaning.not_value_of_terminator terminates acts
      | jump target =>
          cases performs
          rcases wellFormed.strict.branches _ progressing.bbMem front id rest placed inst found
            target (Meaning.target_mem acts) with ⟨-, edge⟩
          exact nonempty target (wellFormed.closed.succs_mem _ progressing.bbMem _ edge)
      | ret val => cases performs

/-- An execution of a well-formed function only stops where it has reason to. -/
theorem stops_of_stuck {world : World}
    (reaches : Steps.Reaches (store.step meaning args) (store.start func world) config)
    (stuck : store.step meaning args config = none) : store.Stops meaning args config := by
  rcases progressing_of_reaches wellFormed.strict reaches with ⟨front, progressing⟩
  rcases List.exists_cons_of_ne_nil (rest_ne_nil wellFormed reaches) with ⟨id, rest, isRest⟩
  have inBlock : id ∈ store.instructions config.bb := by simp [progressing.placed, isRest]
  have member := Consistent.mem_listed progressing.bbMem inBlock
  rcases wellFormed.housed.linked.stored id member with ⟨inst, found⟩
  refine ⟨id, rest, inst, isRest, found, ?_⟩
  rw [step_eq isRest found, Option.map_eq_none_iff] at stuck
  by_cases complete : ∀ value ∈ inst.operandsFrom config.pred,
      ∃ held, inst.source config value = some held
  · rw [reads_eq_map] at stuck ⊢
    rcases exists_map_some complete with ⟨vals, isVals⟩
    rw [isVals] at stuck ⊢
    have shaped := wellFormed.shaped member found
    have length : vals.length = (inst.operandsFrom config.pred).length := by
      simpa using (congrArg List.length isVals).symm
    have fits : inst.kind.isPhi = false → vals.length = inst.inputs.length := by
      intro notPhi
      rw [length]
      unfold Inst.operandsFrom
      split
      case h_1 vars kind => simp [kind, InstKind.isPhi] at notPhi
      case h_2 => rfl
    rcases Meaning.refuses_of_act_none shaped fits stuck with refuses | ⟨isPhi, rfl⟩
    · exact .inl ⟨vals, rfl, refuses⟩
    · refine .inr (.inr ⟨isPhi, ?_⟩)
      cases kind : inst.kind with
      | kPhi vars =>
          cases isPred : config.pred with
          | none => rfl
          | some pred =>
              rcases operandsFrom_phi wellFormed progressing isPred inBlock found kind with
                ⟨entry, -, -, operands⟩
              rw [operands] at length
              cases length
      | _ => simp [kind, InstKind.isPhi] at isPhi
  · simp only [not_forall, not_exists] at complete
    rcases complete with ⟨value, isOperand, missing⟩
    refine .inr (.inl ⟨value, isOperand, ?_, Option.eq_none_iff_forall_ne_some.mpr missing⟩)
    intro yields
    rcases operand_filled wellFormed progressing isRest found isOperand yields with ⟨held, isHeld⟩
    exact missing held isHeld

end WellFormed

/-- A loop that checks the sum of its argument and what it has computed so far. -/
def checkedLoop : Store :=
  .ofTables
    [{ type := .I32, kind := .kParam 0, users := [2, 3], bb := some 0 },
      { kind := .kJump 1, bb := some 0 },
      { type := .I32, kind := .kPhi [⟨0, 0⟩, ⟨3, 1⟩], users := [3], bb := some 1,
        inputs := [0, 3] },
      { type := .I32, kind := .kBinOp .kAdd, users := [2, 4, 5, 6], bb := some 1,
        inputs := [2, 0] },
      { type := .I32, kind := .kUnaryOp .kZeroCheck, bb := some 1, inputs := [3] },
      { kind := .kIf 1 2, bb := some 1, inputs := [3] },
      { kind := .kRet, bb := some 2, inputs := [3] }]
    [{ instructions := [0, 1], succ := [1] },
      { instructions := [2, 3, 4, 5], pred := [0, 1], succ := [1, 2], id := 1 },
      { instructions := [6], pred := [1], id := 2 }] []

def checking : Function :=
  { bbs := [0, 1, 2], resType := .I32, args := [.I32] }

/-- Sums are their left operand, and no value passes a check. -/
def failing : Meaning Unit where
  binOp _ lhs _ := some lhs
  unaryOp _ _ := none
  cast _ _ := none
  isTrue _ := false
  call _ _ _ := none

theorem stops_of_stuck_check :
    ∃ config, Steps.Reaches (checkedLoop.step failing [.I32 7]) (checkedLoop.start checking ())
      config ∧ checkedLoop.Stops failing [.I32 7] config := by
  have wellFormed : checkedLoop.WellFormed checking := checkWellFormed_sound rfl
  have ran : Steps.runFor (checkedLoop.step failing [.I32 7]) 5 (checkedLoop.start checking ()) =
      some none := by rfl
  rcases Steps.exists_stuck_of_runFor ran with ⟨config, reaches, stuck⟩
  exact ⟨config, reaches, stops_of_stuck wellFormed reaches stuck⟩

end Store

end LeechJit.IR
