import Mathlib.Data.List.TakeWhile
import LeechJit.Graph.Dominance
import LeechJit.IR.WellFormed

/-! # Checking that a function is well formed

The conditions of `WellFormed`, computed for a store given by tables.
-/

namespace LeechJit.IR

namespace Store

/-- A store of the given instructions, blocks and functions, keyed by position. -/
def ofTables (insts : List Inst) (blocks : List BasicBlock) (functions : List Function) :
    Store where
  insts id := insts[id]?
  blocks bb := blocks[bb]?
  functions func := functions[func]?
  nextInst := insts.length
  nextBlock := blocks.length

variable (store : Store) (func : Function)

/-- The instruction under a key has a property. -/
def instSatisfies (id : InstId) (holds : Inst → Bool) : Bool :=
  (store.insts id).any holds

def checkInst (bb : BlockId) (id : InstId) : Bool :=
  store.instSatisfies id fun inst =>
    decide (inst.bb = some bb ∧ id < store.nextInst ∧ inst.Shaped) &&
    (inst.inputs.all fun input => decide (input ∈ store.listed func) &&
      store.instSatisfies input fun other => decide (id ∈ other.users)) &&
    inst.users.all fun user => decide (user ∈ store.listed func) &&
      store.instSatisfies user fun other => decide (id ∈ other.inputs)

def checkConsistent : Bool :=
  decide (func.bbs ≠ [] ∧ (store.cfg func).Closed ∧ (store.listed func).Nodup) &&
  func.bbs.all fun bb =>
    decide (bb ∈ (store.cfg func).depthFirstSearchPreOrder) && (store.blocks bb).isSome &&
    (store.instructions bb).all fun id => store.checkInst func bb id

def checkDominates (dom bb : BlockId) : Bool :=
  decide (dom = root func) ||
    decide (bb ∉ ((store.cfg func).without dom).depthFirstSearchPreOrder)

def checkDefinedAtEnd (value : InstId) (bb : BlockId) : Bool :=
  func.bbs.any fun dom => decide (value ∈ store.instructions dom) &&
    store.checkDominates func dom bb

def checkDefinedBefore (value : InstId) (bb : BlockId) (front : List InstId) : Bool :=
  decide (value ∈ front) || func.bbs.any fun dom =>
    decide (value ∈ store.instructions dom) && decide (dom ≠ bb) &&
      store.checkDominates func dom bb

/-- The uses of the instructions behind `front`. -/
def checkUses (bb : BlockId) : List InstId → List InstId → Bool
  | _, [] => true
  | front, id :: back =>
      (store.instSatisfies id fun inst => inst.kind.isPhi ||
        inst.inputs.all fun input => store.checkDefinedBefore func input bb front) &&
      checkUses bb (front ++ [id]) back

def checkPhis (id : InstId) (bb : BlockId) : Bool :=
  store.instSatisfies id fun inst =>
    match inst.kind with
    | .kPhi vars =>
        decide (vars.map PhiEntry.bb).Nodup &&
        (vars.all fun entry => decide (entry.bb ∈ store.preds bb) &&
          store.checkDefinedAtEnd func entry.val entry.bb) &&
        (store.preds bb).all fun pred => decide (pred ∈ vars.map PhiEntry.bb)
    | _ => true

def checkBranch (bb : BlockId) : Bool :=
  match (store.instructions bb).getLast? with
  | none => false
  | some last =>
      (store.instSatisfies last fun inst => inst.kind.isTerminator &&
        decide (store.succs bb = inst.kind.targets)) &&
      (store.instructions bb).dropLast.all fun id =>
        store.instSatisfies id fun inst => !inst.kind.isTerminator

def isPhiAt (id : InstId) : Bool :=
  store.instSatisfies id fun inst => inst.kind.isPhi

def checkWellFormed : Bool :=
  store.checkConsistent func && func.bbs.all fun bb =>
    ((store.preds bb).all fun pred => decide (pred ∈ func.bbs)) &&
    (func.bbs.all fun succ =>
      decide ((store.succs bb).count succ = (store.preds succ).count bb)) &&
    store.checkBranch bb &&
    ((store.instructions bb).dropWhile store.isPhiAt).all (fun id => !store.isPhiAt id) &&
    ((store.instructions bb).all fun id => store.checkPhis func id bb) &&
    store.checkUses func bb [] (store.instructions bb)

/-! ## The checks are right -/

variable {store : Store} {func : Function}

theorem instSatisfies_iff {id : InstId} {holds : Inst → Bool} :
    store.instSatisfies id holds = true ↔
      ∃ inst, store.insts id = some inst ∧ holds inst = true := by
  cases found : store.insts id <;> simp [instSatisfies, found]

theorem checkInst_sound {bb : BlockId} {id : InstId}
    (checked : store.checkInst func bb id = true) :
    ∃ inst, store.insts id = some inst ∧ store.InstConsistent func bb id inst := by
  rcases instSatisfies_iff.mp checked with ⟨inst, found, holds⟩
  simp only [Bool.and_eq_true, decide_eq_true_eq, List.all_eq_true,
    instSatisfies_iff] at holds
  exact ⟨inst, found,
    { home := holds.1.1.1
      allocated := holds.1.1.2.1
      shaped := holds.1.1.2.2
      inputs := holds.1.2
      users := holds.2 }⟩

theorem checkConsistent_sound (checked : store.checkConsistent func = true) :
    store.Consistent func := by
  simp only [checkConsistent, Bool.and_eq_true, decide_eq_true_eq, List.all_eq_true] at checked
  rcases checked with ⟨⟨nonempty, closed, nodup⟩, blocks⟩
  exact
    { nonempty := nonempty
      closed := closed
      reachable := fun bb member => (Graph.mem_preOrder closed).mp (blocks bb member).1.1
      blocks := fun bb member => Option.isSome_iff_exists.mp (blocks bb member).1.2
      nodup := nodup
      insts := fun bb member id inBlock => checkInst_sound ((blocks bb member).2 id inBlock) }

theorem checkDominates_sound (closed : (store.cfg func).Closed) {dom bb : BlockId}
    (checked : store.checkDominates func dom bb = true) : store.BlockDominates func dom bb := by
  apply (Graph.dominates_iff closed).mpr
  rw [checkDominates, Bool.or_eq_true, decide_eq_true_eq, decide_eq_true_eq] at checked
  exact checked

theorem checkDefinedAtEnd_sound (closed : (store.cfg func).Closed) {value : InstId}
    {bb : BlockId} (checked : store.checkDefinedAtEnd func value bb = true) :
    store.DefinedAtEnd func value bb := by
  simp only [checkDefinedAtEnd, List.any_eq_true, Bool.and_eq_true, decide_eq_true_eq] at checked
  rcases checked with ⟨dom, member, defined, dominates⟩
  exact ⟨dom, member, defined, checkDominates_sound closed dominates⟩

theorem checkDefinedBefore_sound (closed : (store.cfg func).Closed) {value : InstId}
    {bb : BlockId} {front : List InstId}
    (checked : store.checkDefinedBefore func value bb front = true) :
    store.DefinedBefore func value bb front := by
  simp only [checkDefinedBefore, Bool.or_eq_true, List.any_eq_true, Bool.and_eq_true,
    decide_eq_true_eq] at checked
  rcases checked with inFront | ⟨dom, member, ⟨defined, different⟩, dominates⟩
  · exact .inl inFront
  · exact .inr ⟨dom, member, defined, different, checkDominates_sound closed dominates⟩

theorem checkUses_sound (closed : (store.cfg func).Closed) {bb : BlockId}
    {front rest : List InstId} (checked : store.checkUses func bb front rest = true) :
    ∀ middle id back, rest = middle ++ id :: back → ∀ inst, store.insts id = some inst →
      inst.kind.isPhi = false →
      ∀ input ∈ inst.inputs, store.DefinedBefore func input bb (front ++ middle) := by
  induction rest generalizing front with
  | nil =>
      intro middle id back split
      simp at split
  | cons head tail induction =>
      simp only [checkUses, Bool.and_eq_true] at checked
      intro middle id back split inst found notPhi input isInput
      cases middle with
      | nil =>
          rw [List.nil_append, List.cons.injEq] at split
          rcases split with ⟨rfl, rfl⟩
          rcases instSatisfies_iff.mp checked.1 with ⟨again, foundAgain, holds⟩
          cases Option.some.inj (foundAgain.symm.trans found)
          rw [notPhi, Bool.false_or, List.all_eq_true] at holds
          rw [List.append_nil]
          exact checkDefinedBefore_sound closed (holds input isInput)
      | cons first middle =>
          rw [List.cons_append, List.cons.injEq] at split
          rcases split with ⟨rfl, split⟩
          have later := induction checked.2 middle id back split inst found notPhi input isInput
          simpa using later

theorem checkPhis_sound (closed : (store.cfg func).Closed) {bb : BlockId} {id : InstId}
    (checked : store.checkPhis func id bb = true) {inst : Inst} {vars : List PhiEntry}
    (found : store.insts id = some inst) (kind : inst.kind = .kPhi vars) :
    (vars.map PhiEntry.bb).Nodup ∧
      (∀ pred, pred ∈ vars.map PhiEntry.bb ↔ pred ∈ store.preds bb) ∧
      ∀ entry ∈ vars, store.DefinedAtEnd func entry.val entry.bb := by
  rcases instSatisfies_iff.mp checked with ⟨again, foundAgain, holds⟩
  cases Option.some.inj (foundAgain.symm.trans found)
  simp only [kind, Bool.and_eq_true, decide_eq_true_eq, List.all_eq_true] at holds
  refine ⟨holds.1.1, fun pred => ⟨?_, holds.2 pred⟩, fun entry member =>
    checkDefinedAtEnd_sound closed (holds.1.2 entry member).2⟩
  intro member
  rcases List.mem_map.mp member with ⟨entry, entryMem, rfl⟩
  exact (holds.1.2 entry entryMem).1

theorem checkBranch_sound {bb : BlockId} (checked : store.checkBranch bb = true) :
    ∃ front last inst, store.instructions bb = front ++ [last] ∧
      store.insts last = some inst ∧ inst.kind.isTerminator ∧
      store.succs bb = inst.kind.targets ∧
      ∀ id ∈ front, ∀ other, store.insts id = some other →
        other.kind.isTerminator = false := by
  unfold checkBranch at checked
  split at checked
  case h_1 => cases checked
  case h_2 last atLast =>
    rw [Bool.and_eq_true, List.all_eq_true] at checked
    rcases instSatisfies_iff.mp checked.1 with ⟨inst, found, holds⟩
    rw [Bool.and_eq_true, decide_eq_true_eq] at holds
    refine ⟨_, last, inst, (List.dropLast_append_getLast? last atLast).symm, found, holds.1,
      holds.2, ?_⟩
    intro id member other otherFound
    rcases instSatisfies_iff.mp (checked.2 id member) with ⟨again, foundAgain, notLast⟩
    cases Option.some.inj (foundAgain.symm.trans otherFound)
    simpa using notLast

theorem checkWellFormed_sound (checked : store.checkWellFormed func = true) :
    store.WellFormed func := by
  rw [checkWellFormed, Bool.and_eq_true, List.all_eq_true] at checked
  have consistent := checkConsistent_sound checked.1
  have closed := consistent.closed
  have blocks := fun bb member => checked.2 bb member
  simp only [Bool.and_eq_true, List.all_eq_true, decide_eq_true_eq] at blocks
  have phiAt : ∀ id inst, store.insts id = some inst →
      store.isPhiAt id = inst.kind.isPhi := by
    intro id inst found
    simp [isPhiAt, instSatisfies, found]
  exact
    { toConsistent := consistent
      predsMem := fun bb member => (blocks bb member).1.1.1.1.1
      mirrored := fun bb member => (blocks bb member).1.1.1.1.2
      branches := fun bb member => checkBranch_sound (blocks bb member).1.1.1.2
      phisFirst := by
        intro bb member
        refine ⟨(store.instructions bb).takeWhile store.isPhiAt,
          (store.instructions bb).dropWhile store.isPhiAt,
          List.takeWhile_append_dropWhile.symm, ?_, ?_⟩
        · intro id inPhis inst found
          have isPhi := List.mem_takeWhile_imp inPhis
          rw [phiAt id inst found] at isPhi
          exact isPhi
        · intro id inOthers inst found
          have notPhi := (blocks bb member).1.1.2 id inOthers
          rw [phiAt id inst found] at notPhi
          simpa using notPhi
      entries := by
        intro bb member id inBlock inst vars found kind
        have parts := checkPhis_sound closed ((blocks bb member).1.2 id inBlock) found kind
        exact ⟨parts.1, parts.2.1⟩
      uses := by
        intro bb member front id back split
        exact checkUses_sound closed (blocks bb member).2 front id back split
      phiUses := by
        intro bb member id inBlock inst vars found kind
        exact (checkPhis_sound closed ((blocks bb member).1.2 id inBlock) found kind).2.2 }

end Store

end LeechJit.IR
