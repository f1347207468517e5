import LeechJit.Foundation.Traced
import LeechJit.Opt.ChecksLeftovers

/-! # What the pass asks about a check it has erased

The loop over the users goes on after an erase, and the next user that is a covering
check is asked about a check that is gone. `traced` definitions are the pass with its
calls of `isDominator` and `eraseInst` noted.
-/

namespace LeechJit.Opt.ChecksElimination

open IR Store LeechJit.Graph Traced

inductive Call where
  | isDominator (dom node : InstId)
  | eraseInst (inst : InstId)
  deriving DecidableEq

/-- The instruction is an argument of the call. -/
def Call.mentions (call : Call) (id : InstId) : Prop :=
  match call with
  | .isDominator dom node => id = dom ∨ id = node
  | .eraseInst inst => id = inst

section Definitions

variable (isDominatorBB : BlockId → BlockId → Bool) (order : Store → InstId → List InstId)

def tracedErase (store : Store) (input op : InstId) : Traced Call Store := do
  let store ← quiet (store.removeUser input op)
  let inst ← quiet (store.inst op)
  let bb ← quiet inst.getBB
  noted (.eraseInst op) (store.eraseInst bb op)

def tracedLoop (isCheck : Inst → Result Bool) (input op : InstId) :
    List InstId → Store → Traced Call Store
  | [], store => pure store
  | user :: rest, store =>
      if op = user then tracedLoop isCheck input op rest store
      else do
        let inst ← quiet (store.inst user)
        let check ← quiet (isCheck inst)
        if check then
          let dominates ← noted (.isDominator user op) (isDominator isDominatorBB store user op)
          if dominates then
            let store ← tracedErase store input op
            tracedLoop isCheck input op rest store
          else tracedLoop isCheck input op rest store
        else tracedLoop isCheck input op rest store

def tracedZeroCheckElim (store : Store) (op : InstId) : Traced Call Store := do
  let inst ← quiet (store.inst op)
  let input ← quiet (inst.inputAt 0)
  let _ ← quiet (store.inst input)
  tracedLoop isDominatorBB (fun user => .ok (zeroCheckUser user)) input op (order store input) store

def tracedBoundsCheckElim (store : Store) (op : InstId) : Traced Call Store := do
  let inst ← quiet (store.inst op)
  let input ← quiet (inst.inputAt 0)
  let bound ← quiet (inst.inputAt 1)
  let _ ← quiet (store.inst input)
  tracedLoop isDominatorBB (boundsCheckUser bound) input op (order store input) store

def tracedElim (store : Store) (op : InstId) : Traced Call Store := do
  let inst ← quiet (store.inst op)
  match inst.kind with
  | .kBinOp .kBoundsCheck => tracedBoundsCheckElim isDominatorBB order store op
  | .kUnaryOp .kZeroCheck => tracedZeroCheckElim isDominatorBB order store op
  | _ => return store

def tracedRun (store : Store) (func : Function) : Traced Call Store := do
  let candidates ← quiet (fillCandidates store func)
  candidates.foldlM (tracedElim isDominatorBB order) store

end Definitions

variable {before store store' : Store} {func : Function} {op user input : InstId}
  {isDominatorBB : BlockId → BlockId → Bool} {order : Store → InstId → List InstId}
  {isCheck : Inst → Result Bool} {users : List InstId}

/-! ## The traced pass is the pass -/

theorem result_tracedErase : (tracedErase store input op).result = eraseCheck store input op := by
  simp only [tracedErase, eraseCheck, result_bind, result_quiet, result_noted]

theorem result_tracedLoop :
    (tracedLoop isDominatorBB isCheck input op users store).result =
      elimLoop isDominatorBB isCheck input op users store := by
  induction users generalizing store with
  | nil => rfl
  | cons user rest induction =>
      rw [tracedLoop, elimLoop]
      split_ifs with isOp
      · exact induction
      · simp only [result_bind, result_quiet]
        congr 1
        funext inst
        congr 1
        funext check
        split_ifs with isTrue
        · simp only [result_bind, result_noted]
          congr 1
          funext dominates
          split_ifs with isTrue
          · simp only [result_bind, result_tracedErase, induction]
          · exact induction
        · exact induction

theorem result_tracedElim :
    (tracedElim isDominatorBB order store op).result = elim isDominatorBB order store op := by
  simp only [tracedElim, elim, result_bind, result_quiet]
  congr 1
  funext inst
  rcases inst with ⟨type, kind, users, bb, inputs⟩
  cases kind with
  | kBinOp oper =>
      cases oper with
      | kBoundsCheck =>
          simp only [tracedBoundsCheckElim, boundsCheckElim, result_bind, result_quiet,
            result_tracedLoop]
      | _ => rfl
  | kUnaryOp oper =>
      cases oper with
      | kZeroCheck =>
          simp only [tracedZeroCheckElim, zeroCheckElim, result_bind, result_quiet,
            result_tracedLoop]
  | _ => rfl

theorem result_tracedRun :
    (tracedRun isDominatorBB order store func).result = run isDominatorBB order store func := by
  simp only [tracedRun, run, result_bind, result_quiet, result_foldlM, result_tracedElim]

/-! ## What a loop notes -/

theorem events_tracedErase (result : eraseCheck store input op = .ok store') :
    (tracedErase store input op).events = [.eraseInst op] := by
  rcases Result.bind_eq_ok.mp result with ⟨removed, removing, continued⟩
  rcases Result.bind_eq_ok.mp continued with ⟨inst, found, continued⟩
  rcases Result.bind_eq_ok.mp continued with ⟨bb, home, -⟩
  rw [tracedErase, removing, quiet_ok_bind, found, quiet_ok_bind, home, quiet_ok_bind, events_noted]

theorem eraseCheck_gone (result : eraseCheck store input op = .ok store') {id : InstId}
    (isGone : store.insts id = none ∨ id = op) : store'.insts id = none := by
  rcases eraseCheck_eq_ok result with ⟨-, -, -, -, -, -, insts, -⟩
  rw [insts]
  cases isGone with
  | inl before => simp [before]
  | inr isOp => exact if_pos isOp

theorem eq_of_mem_tracedErase {call : Call} (member : call ∈ (tracedErase store input op).events) :
    call = .eraseInst op := by
  simp only [tracedErase, mem_events_bind, events_quiet, List.not_mem_nil, false_or, events_noted,
    List.mem_singleton] at member
  rcases member with ⟨_, -, _, -, _, -, same⟩
  exact same

/-- Only instructions that are there are asked about, and only the check is erased. -/
theorem calls_of_tracedLoop {call : Call}
    (member : call ∈ (tracedLoop isDominatorBB isCheck input op users store).events) :
    call = .eraseInst op ∨ ∃ user, call = .isDominator user op ∧ store.insts user ≠ none := by
  induction users generalizing store with
  | nil => cases member
  | cons user rest induction =>
      rw [tracedLoop] at member
      split_ifs at member with isOp
      · exact induction member
      · simp only [mem_events_bind, events_quiet, List.not_mem_nil, false_or, result_quiet,
          inst_eq_ok] at member
        rcases member with ⟨inst, found, check, -, member⟩
        split_ifs at member
        · rcases mem_events_bind.mp member with asked | ⟨dominates, -, member⟩
          · rw [events_noted, List.mem_singleton] at asked
            exact .inr ⟨user, asked, by simp [found]⟩
          · split_ifs at member
            · rcases mem_events_bind.mp member with erases | ⟨next, erasing, member⟩
              · exact .inl (eq_of_mem_tracedErase erases)
              · rw [result_tracedErase] at erasing
                cases induction member with
                | inl erases => exact .inl erases
                | inr asks =>
                    rcases asks with ⟨other, asked, alive⟩
                    exact .inr ⟨other, asked, fun isGone =>
                      alive (eraseCheck_gone erasing (.inl isGone))⟩
            · exact induction member
        · exact induction member

theorem calls_of_tracedElim {call : Call}
    (member : call ∈ (tracedElim isDominatorBB order store op).events) :
    call = .eraseInst op ∨ ∃ user, call = .isDominator user op ∧ store.insts user ≠ none := by
  simp only [tracedElim, mem_events_bind, events_quiet, List.not_mem_nil, false_or,
    result_quiet] at member
  rcases member with ⟨inst, -, member⟩
  rcases inst with ⟨type, kind, users, bb, inputs⟩
  cases kind with
  | kBinOp oper =>
      cases oper with
      | kBoundsCheck =>
          simp only [tracedBoundsCheckElim, mem_events_bind, events_quiet, List.not_mem_nil,
            false_or] at member
          rcases member with ⟨_, -, _, -, _, -, _, -, member⟩
          exact calls_of_tracedLoop member
      | _ => cases member
  | kUnaryOp oper =>
      cases oper with
      | kZeroCheck =>
          simp only [tracedZeroCheckElim, mem_events_bind, events_quiet, List.not_mem_nil,
            false_or] at member
          rcases member with ⟨_, -, _, -, _, -, member⟩
          exact calls_of_tracedLoop member
  | _ => cases member

/-- A loop that meets no covering check notes nothing. -/
theorem tracedLoop_quiet (quiet : ∀ user ∈ users, user ≠ op →
      ∃ inst, store.insts user = some inst ∧ isCheck inst = .ok false) :
    tracedLoop isDominatorBB isCheck input op users store = pure store := by
  induction users with
  | nil => rfl
  | cons user rest induction =>
      rw [List.forall_mem_cons] at quiet
      rw [tracedLoop]
      split_ifs with isOp
      · exact induction quiet.2
      · rcases quiet.1 (Ne.symm isOp) with ⟨inst, found, checking⟩
        rw [inst_eq_ok.mpr found, quiet_ok_bind, checking, quiet_ok_bind, if_neg Bool.false_ne_true]
        exact induction quiet.2

/-- A loop that returns erases at the very end of what it notes, or not at all. -/
theorem events_tracedLoop
    (result : elimLoop isDominatorBB isCheck input op users store = .ok store') :
    (store' = store ∧
      .eraseInst op ∉ (tracedLoop isDominatorBB isCheck input op users store).events) ∨
    (store'.insts op = none ∧ ∃ front,
      (tracedLoop isDominatorBB isCheck input op users store).events = front ++ [.eraseInst op] ∧
        .eraseInst op ∉ front) := by
  induction users with
  | nil =>
      cases result
      exact .inl ⟨rfl, List.not_mem_nil⟩
  | cons user rest induction =>
      rw [elimLoop] at result
      rw [tracedLoop]
      split_ifs at result ⊢ with isOp
      · exact induction result
      · rcases Result.bind_eq_ok.mp result with ⟨inst, found, continued⟩
        rcases Result.bind_eq_ok.mp continued with ⟨check, checking, continued⟩
        rw [found, quiet_ok_bind, checking, quiet_ok_bind]
        split_ifs at continued ⊢ with isTrue
        · rcases Result.bind_eq_ok.mp continued with ⟨dominates, asking, continued⟩
          rw [events_noted_bind asking]
          split_ifs at continued ⊢ with isTrue
          · rcases Result.bind_eq_ok.mp continued with ⟨next, erasing, running⟩
            have isGone := eraseCheck_gone erasing (.inr rfl)
            rcases elimLoop_gone isGone running with ⟨rfl, quiet⟩
            rw [events_bind (result_tracedErase.trans erasing), events_tracedErase erasing,
              tracedLoop_quiet quiet]
            exact .inr ⟨isGone, [.isDominator user op], rfl, by simp⟩
          · rcases induction continued with ⟨same, never⟩ | ⟨isGone, front, split, fresh⟩
            · exact .inl ⟨same, by simpa using never⟩
            · exact .inr ⟨isGone, .isDominator user op :: front, by rw [split]; rfl,
                by simpa using fresh⟩
        · exact induction continued

theorem tracedElim_eq_loop {inst : Inst} (found : store.insts op = some inst)
    (shaped : inst.Shaped) (isKind : IsCheckKind inst.kind) :
    ∃ input isCheck, tracedElim isDominatorBB order store op = (do
      let _ ← quiet (store.inst input)
      tracedLoop isDominatorBB isCheck input op (order store input) store) := by
  have found : store.inst op = .ok inst := inst_eq_ok.mpr found
  rcases isKind.inputs shaped with ⟨kind, input, inputs⟩ | ⟨kind, input, bound, inputs⟩
  · refine ⟨input, fun user => .ok (zeroCheckUser user), ?_⟩
    simp only [tracedElim, tracedZeroCheckElim, found, kind, quiet_ok_bind, Inst.inputAt, inputs,
      List.getElem?_cons_zero]
  · refine ⟨input, boundsCheckUser bound, ?_⟩
    simp only [tracedElim, tracedBoundsCheckElim, found, kind, quiet_ok_bind, Inst.inputAt, inputs,
      List.getElem?_cons_zero, List.getElem?_cons_succ]

/-- The turn of a check that ends erases it last, and once, or not at all. -/
theorem events_tracedElim {inst : Inst} (found : store.insts op = some inst)
    (shaped : inst.Shaped) (isKind : IsCheckKind inst.kind)
    (result : elim isDominatorBB order store op = .ok store') :
    (store' = store ∧ .eraseInst op ∉ (tracedElim isDominatorBB order store op).events) ∨
    (store'.insts op = none ∧ ∃ front,
      (tracedElim isDominatorBB order store op).events = front ++ [.eraseInst op] ∧
        .eraseInst op ∉ front) := by
  rcases @tracedElim_eq_loop store op isDominatorBB order inst found shaped isKind with
    ⟨input, isCheck, loops⟩
  rw [← result_tracedElim, loops, result_bind, result_quiet] at result
  rcases Result.bind_eq_ok.mp result with ⟨inputInst, inputFound, running⟩
  rw [result_tracedLoop] at running
  rw [loops, inputFound, quiet_ok_bind]
  exact events_tracedLoop running

end LeechJit.Opt.ChecksElimination
