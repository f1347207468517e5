import LeechJit.Opt.PeepHoleRules

/-! # Runs of the passes

Constant folding and peephole rewriting collect candidates and rewrite one after
the other. What holds of a store and is kept by a round holds after any run.
-/

namespace LeechJit.Opt

open IR Store

/-- A pass over a function. -/
inductive Pass where
  | constantFolding
  | peepHole
  deriving DecidableEq, Repr

namespace Pass

def candidates (pass : Pass) (store : Store) (func : Function) : Result (List InstId) :=
  match pass with
  | constantFolding => ConstantFolding.findFoldable store func
  | peepHole => PeepHole.findCandidates store func

/-- One round of the loop of `run`. -/
def rewrite (pass : Pass) (store : Store) (id : InstId) : Result Store :=
  match pass with
  | constantFolding => ConstantFolding.foldInst store id
  | peepHole => PeepHole.fold store id

def run (pass : Pass) (store : Store) (func : Function) : Result Store :=
  match pass with
  | constantFolding => ConstantFolding.run store func
  | peepHole => PeepHole.run store func

theorem run_eq (pass : Pass) (store : Store) (func : Function) :
    pass.run store func = (do
      let candidates ← pass.candidates store func
      candidates.foldlM pass.rewrite store) := by
  cases pass <;> rfl

/-- Whether a round takes the candidate itself out of the function. -/
def vanishes (pass : Pass) (store : Store) (id : InstId) : Bool :=
  match pass with
  | constantFolding => true
  | peepHole => (PeepHole.replacement store id).isSome

/-- What a round that returned has done. -/
inductive Change (pass : Pass) (store : Store) (scope : Set InstId) (id : InstId)
    (store' : Store) : Prop where
  | swapped (stays : pass.vanishes store id = false) (binOp : store.IsBinOp id)
      (swapped : PeepHole.Swapped store id store')
  | replaced (value : InstId) (vanishes : pass.vanishes store id = true)
      (isInput : value ∈ store.inputs id) (binOp : store.IsBinOp id)
      (rewritten : store.Rewritten scope id none
        (fun key => (store.inputs key).map (redirect id value)) store')
  | folded (val : ConstVal) (vanishes : pass.vanishes store id = true)
      (folds : ConstantFolding.fold store id = .ok val)
      (rewritten : store.Rewritten scope id (some (.kConst val)) (fun key =>
        if key = store.nextInst then [] else
          (store.inputs key).map (redirect id store.nextInst)) store')
  | merged (fstShr rval left fstShamt : InstId) (stays : pass.vanishes store id = false)
      (fits : Merge.Fits store scope id fstShr rval)
      (merge : Nonempty (Merge store id fstShr rval left fstShamt store'))

variable {pass : Pass} {store store' : Store} {scope : Set InstId} {id : InstId}

theorem isBinOp_of_fold (result : PeepHole.fold store id = .ok store') : store.IsBinOp id := by
  rcases Result.bind_eq_ok.mp result with ⟨inst, found, folding⟩
  rw [inst_eq_ok] at found
  rcases inst with ⟨type, kind, users, bb, inputs⟩
  cases kind with
  | kBinOp oper => exact ⟨_, oper, found, rfl⟩
  | _ => cases folding

theorem mem_stored (result : pass.rewrite store id = .ok store') : id ∈ store.stored := by
  cases pass with
  | constantFolding =>
      rcases Result.bind_eq_ok.mp result with ⟨val, folding, -⟩
      rcases Result.bind_eq_ok.mp folding with ⟨inst, found, -⟩
      exact ⟨inst, inst_eq_ok.mp found⟩
  | peepHole =>
      rcases Result.bind_eq_ok.mp result with ⟨inst, found, -⟩
      exact ⟨inst, inst_eq_ok.mp found⟩

theorem change (linked : store.Linked scope) (member : id ∈ scope)
    (result : pass.rewrite store id = .ok store') : pass.Change store scope id store' := by
  cases pass with
  | constantFolding =>
      rcases foldInst_rewritten linked member result with ⟨val, folds, rewritten⟩
      exact .folded val rfl folds rewritten
  | peepHole =>
      have binOp := isBinOp_of_fold result
      rcases PeepHole.fold_cases linked member result with
        ⟨value, isReplacement, isInput, rewritten⟩ |
          ⟨notReplaced, ⟨-, swapped, -⟩ | ⟨fstShr, rval, left, fstShamt, merges, merge⟩⟩
      · exact .replaced value (by simp [vanishes, isReplacement]) isInput binOp rewritten
      · exact .swapped (by simp [vanishes, notReplaced]) binOp swapped
      · exact .merged fstShr rval left fstShamt (by simp [vanishes, notReplaced])
          (PeepHole.fits_of_merges linked member merges) merge

/-- A round keeps the set of instructions linked. -/
theorem Change.linked (change : pass.Change store scope id store') (linked : store.Linked scope) :
    ∃ scope', store'.Linked scope' := by
  cases change with
  | swapped _ _ swapped => exact ⟨scope, swapped.linked linked⟩
  | replaced _ _ _ _ rewritten => exact ⟨_, rewritten.linked⟩
  | folded _ _ _ rewritten => exact ⟨_, rewritten.linked⟩
  | merged _ _ _ _ _ fits merge => exact ⟨_, (merge.some.rewritten linked fits).linked⟩

end Pass

/-! ## Sequences of runs -/

/-- The rounds of a run: the store before each of them, and the candidate. -/
def rounds (rewrite : Store → InstId → Result Store) :
    List InstId → Store → List (Store × InstId)
  | [], _ => []
  | id :: rest, store =>
      (store, id) :: match rewrite store id with
        | .ok next => rounds rewrite rest next
        | .error _ => []

/-- A round of a pass. -/
structure Round where
  pass : Pass
  store : Store
  id : InstId

def Pass.rounds (pass : Pass) (store : Store) (func : Function) : List Round :=
  match pass.candidates store func with
  | .ok candidates =>
      (Opt.rounds pass.rewrite candidates store).map fun round => ⟨pass, round.1, round.2⟩
  | .error _ => []

def runAll (func : Function) (passes : List Pass) (store : Store) : Result Store :=
  passes.foldlM (fun store pass => pass.run store func) store

/-- All rounds of a sequence of runs. -/
def allRounds (func : Function) : List Pass → Store → List Round
  | [], _ => []
  | pass :: rest, store =>
      pass.rounds store func ++ match pass.run store func with
        | .ok next => allRounds func rest next
        | .error _ => []

/-- Rounds that follow one another. -/
inductive Chain : Store → List Round → Store → Prop where
  | done (store : Store) : Chain store [] store
  | round {store next store' : Store} {pass : Pass} {id : InstId} {later : List Round}
      (first : pass.rewrite store id = .ok next) (rest : Chain next later store') :
      Chain store (⟨pass, store, id⟩ :: later) store'

theorem Chain.append {store middle store' : Store} {first second : List Round}
    (chain : Chain store first middle) (later : Chain middle second store') :
    Chain store (first ++ second) store' := by
  induction chain with
  | done => exact later
  | round step _ induction => exact .round step (induction later)

theorem chain_rounds {pass : Pass} {candidates : List InstId} {store store' : Store}
    (result : candidates.foldlM pass.rewrite store = .ok store') :
    Chain store ((rounds pass.rewrite candidates store).map fun round =>
      ⟨pass, round.1, round.2⟩) store' := by
  induction candidates generalizing store with
  | nil =>
      cases result
      exact .done _
  | cons id rest induction =>
      rw [List.foldlM_cons] at result
      rcases Result.bind_eq_ok.mp result with ⟨next, first, later⟩
      simp only [rounds, first, List.map_cons]
      exact .round first (induction later)

/-- The rounds of runs that return are a chain. -/
theorem chain_runAll {func : Function} {passes : List Pass} {store store' : Store}
    (result : runAll func passes store = .ok store') :
    Chain store (allRounds func passes store) store' := by
  induction passes generalizing store with
  | nil =>
      cases result
      exact .done _
  | cons pass rest induction =>
      rw [runAll, List.foldlM_cons] at result
      rcases Result.bind_eq_ok.mp result with ⟨next, first, later⟩
      simp only [allRounds, first]
      apply Chain.append _ (induction later)
      rw [Pass.run_eq] at first
      rcases Result.bind_eq_ok.mp first with ⟨candidates, collected, folding⟩
      simp only [Pass.rounds, collected]
      exact chain_rounds folding

end LeechJit.Opt
