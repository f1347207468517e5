import LeechJit.Opt.FoldingResults
import LeechJit.Opt.PeepHoleResults

/-! # Results through any sequence of runs

Every round of either pass leaves a function that can be executed, with every result it had
before, as long as the shifts that are merged fit.
-/

namespace LeechJit.Opt

open IR Store Steps

variable {World : Type} {meaning : Meaning World} {args : List ConstVal} {world : World}
  {store store' : Store} {func : Function} {pass : Pass} {id : InstId}
  {result : Option ConstVal × World}

/-- Constant folding evaluates as the operators do. -/
theorem agrees_of_evaluates {round : Round} (evaluates : Evaluates meaning)
    (casts : ∀ val : ConstVal, meaning.cast val.type val = some val) : round.Agrees meaning := by
  intro val folds
  constructor
  · intro oper left right operation
    rw [operation.fold_eq] at folds
    rcases ConstantFolding.not_div_of_binEval folds with ⟨notDiv, notCheck⟩
    exact (PeepHole.evaluates_eq_some evaluates notDiv notCheck).mpr folds
  · intro dest src cast
    rw [cast.fold_eq, ConstantFolding.castEval_eq_ok] at folds
    rcases folds with ⟨rfl, rfl⟩
    exact casts src

/-- Where a round merges shifts, their amounts fit. -/
def Round.Fits (meaning : Meaning World) (args : List ConstVal) (func : Function) (world : World)
    (round : Round) : Prop :=
  round.pass = .peepHole → round.ShiftsFit meaning args func world

section Rounds

variable (evaluates : Evaluates meaning)
  (casts : ∀ val : ConstVal, meaning.cast val.type val = some val)

include evaluates casts

/-- What a round keeps. -/
theorem results_rewrite (flows : store.Flows func) (pending : Pending store func id)
    (fits : (Round.mk pass store id).Fits meaning args func world)
    (returns : pass.rewrite store id = .ok store')
    (results : store.Results func meaning args world result) :
    store'.Flows func ∧ store'.Results func meaning args world result := by
  have member := Pass.mem_listed pending returns
  cases pass with
  | constantFolding =>
      rcases foldInst_rewritten flows.linked member returns with ⟨val, -, rewritten⟩
      exact ⟨ConstantFolding.flows_folded rewritten flows,
        ConstantFolding.results_foldInst flows member (agrees_of_evaluates evaluates casts)
          returns results⟩
  | peepHole =>
      exact ⟨PeepHole.flows_fold flows pending returns,
        PeepHole.results_fold flows pending evaluates returns results (fits rfl)⟩

theorem results_rounds {candidates : List InstId} (flows : store.Flows func)
    (pending : ∀ id ∈ candidates, Pending store func id)
    (fits : ∀ round ∈ Opt.rounds pass.rewrite candidates store,
      (Round.mk pass round.1 round.2).Fits meaning args func world)
    (returns : candidates.foldlM pass.rewrite store = .ok store')
    (results : store.Results func meaning args world result) :
    store'.Flows func ∧ store'.Results func meaning args world result := by
  induction candidates generalizing store with
  | nil =>
      cases returns
      exact ⟨flows, results⟩
  | cons id rest induction =>
      rw [List.foldlM_cons] at returns
      rcases Result.bind_eq_ok.mp returns with ⟨next, first, later⟩
      simp only [rounds, first, List.forall_mem_cons] at fits
      have here := pending id List.mem_cons_self
      rcases results_rewrite evaluates casts flows here fits.1 first results with
        ⟨flowsNext, resultsNext⟩
      rcases Pass.housed flows.toHoused (Pass.mem_listed here first) first with
        ⟨-, pendingNext⟩
      exact induction flowsNext (fun other otherMem =>
        pendingNext other (pending other (List.mem_cons_of_mem _ otherMem))) fits.2 later
        resultsNext

theorem results_run (flows : store.Flows func)
    (fits : ∀ round ∈ pass.rounds store func, round.Fits meaning args func world)
    (returns : pass.run store func = .ok store')
    (results : store.Results func meaning args world result) :
    store'.Flows func ∧ store'.Results func meaning args world result := by
  rw [Pass.run_eq] at returns
  rcases Result.bind_eq_ok.mp returns with ⟨candidates, collected, rewriting⟩
  simp only [Pass.rounds, collected, List.forall_mem_map] at fits
  exact results_rounds evaluates casts flows (Pass.pending_candidates flows.toHoused collected)
    fits rewriting results

end Rounds

/-- Any sequence of runs of both passes keeps the results of an execution, if the amounts of
the shifts merged on the way fit. -/
theorem passes_keep_results {passes : List Pass} (wellFormed : store.WellFormed func)
    (evaluates : Evaluates meaning)
    (casts : ∀ val : ConstVal, meaning.cast val.type val = some val)
    (fits : ∀ round ∈ allRounds func passes store, round.pass = .peepHole →
      round.ShiftsFit meaning args func world)
    (returns : runAll func passes store = .ok store')
    (results : store.Results func meaning args world result) :
    store'.Results func meaning args world result := by
  have flows := wellFormed.flows
  clear wellFormed
  induction passes generalizing store with
  | nil =>
      cases returns
      exact results
  | cons pass rest induction =>
      rw [runAll, List.foldlM_cons] at returns
      rcases Result.bind_eq_ok.mp returns with ⟨next, first, later⟩
      simp only [allRounds, first, List.forall_mem_append] at fits
      rcases results_run evaluates casts flows fits.1 first results with ⟨flowsNext, resultsNext⟩
      exact induction fits.2 later resultsNext flowsNext

/-- Operators and casts as they are folded; every call ends the execution. -/
def evaluating : Meaning Unit where
  binOp oper lhs rhs := (ConstantFolding.binEval oper lhs rhs).toOption
  unaryOp _ val := some val
  cast dest val := (ConstantFolding.castEval dest val).toOption
  isTrue val := val.toInt ≠ 0
  call _ _ _ := none

theorem passes_keep_results_counting :
    ∃ store', runAll ConstantFolding.counting [.peepHole, .constantFolding, .peepHole]
        ConstantFolding.countingLoop = .ok store' ∧
      store'.Results ConstantFolding.counting evaluating [] () (some (.I32 5), ()) := by
  have wellFormed : ConstantFolding.countingLoop.WellFormed ConstantFolding.counting :=
    checkWellFormed_sound rfl
  have casts : ∀ val : ConstVal, evaluating.cast val.type val = some val := by
    intro val
    cases val <;> rfl
  have unmerged : (allRounds ConstantFolding.counting [.peepHole, .constantFolding, .peepHole]
      ConstantFolding.countingLoop).all
        (fun round => (PeepHole.merges round.store round.id).isNone) = true := by rfl
  have ran : runFor (ConstantFolding.countingLoop.step evaluating []) 20
      (ConstantFolding.countingLoop.start ConstantFolding.counting ()) =
        some (some (some (.I32 5), ())) := by rfl
  have returns : ∃ store', runAll ConstantFolding.counting
      [.peepHole, .constantFolding, .peepHole] ConstantFolding.countingLoop = .ok store' :=
    ⟨_, rfl⟩
  rcases returns with ⟨store', returns⟩
  refine ⟨store', returns, passes_keep_results wellFormed (fun _ _ _ _ _ => rfl) casts ?_ returns
    (completes_of_runFor ran)⟩
  intro round member isPeepHole fstShr rval merges
  have none := List.all_eq_true.mp unmerged round member
  rw [merges] at none
  cases none

end LeechJit.Opt
