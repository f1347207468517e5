import LeechJit.Opt.ChecksTraced

/-! # The turn of each check

When a check has its turn, the dominated checks before it are gone. In a run that returns
a check is erased in its own turn, as the last thing that is noted there, and what is
noted later does not mention it.
-/

namespace LeechJit.Opt.ChecksElimination

open IR Store LeechJit.Graph Traced

variable {before store store' : Store} {func : Function} {op user input : InstId}
  {isDominatorBB : BlockId → BlockId → Bool} {order : Store → InstId → List InstId}
  {isCheck : Inst → Result Bool} {users gone : List InstId} {inst : Inst}

/-! ## The order of the candidates -/

def Precedes (store : Store) (func : Function) (first second : InstId) : Prop :=
  (store.inOrder func).idxOf first < (store.inOrder func).idxOf second

/-- The checks as the pass meets them. -/
def checksInOrder (store : Store) (func : Function) : List InstId :=
  (store.inOrder func).filter fun id => answer (isCandidate store id)

theorem fillCandidates_eq (wellFormed : before.WellFormed func) :
    fillCandidates before func = .ok (checksInOrder before func) := by
  have blocks : ∀ bb ∈ (before.cfg func).depthFirstSearchReversePostOrder,
      ∃ block, before.blocks bb = some block := by
    intro bb member
    exact wellFormed.blocks bb
      ((reversePostOrder_perm wellFormed.closed wellFormed.reachable).mem_iff.mp member)
  have decided : ∀ id ∈ before.inOrder func, ∃ holds, isCandidate before id = .ok holds := by
    intro id member
    rcases wellFormed.inst (wellFormed.inOrder_perm.mem_iff.mp member) with ⟨_, -, -, inst, found, -⟩
    rcases inst with ⟨type, kind, users, bb, inputs⟩
    rw [isCandidate, inst_eq_ok.mpr found]
    cases kind with
    | kUnaryOp oper => cases oper with | kZeroCheck => exact ⟨true, rfl⟩
    | kBinOp oper => cases oper <;> exact ⟨_, rfl⟩
    | _ => exact ⟨false, rfl⟩
  rcases collect_returns blocks decided with ⟨ids, collected⟩
  rw [fillCandidates, makeBBGraph_eq wellFormed.nonempty, Result.ok_bind]
  exact collected.trans (congrArg Except.ok (collect_eq_ok collected).1)

theorem mem_checksInOrder (wellFormed : before.WellFormed func) {id : InstId} :
    id ∈ checksInOrder before func ↔ id ∈ before.listed func ∧ IsCheck before id :=
  (fillCandidates_eq_ok wellFormed (fillCandidates_eq wellFormed)).2 id

theorem checksInOrder_nodup (wellFormed : before.WellFormed func) :
    (checksInOrder before func).Nodup :=
  (fillCandidates_eq_ok wellFormed (fillCandidates_eq wellFormed)).1

theorem run_eq (wellFormed : before.WellFormed func) :
    run isDominatorBB order before func =
      (checksInOrder before func).foldlM (elim isDominatorBB order) before := by
  rw [run, fillCandidates_eq wellFormed, Result.ok_bind]

theorem tracedRun_eq (wellFormed : before.WellFormed func) :
    tracedRun isDominatorBB order before func =
      (checksInOrder before func).foldlM (tracedElim isDominatorBB order) before := by
  rw [tracedRun, fillCandidates_eq wellFormed, quiet_ok_bind]

theorem precedes_of_sublist (wellFormed : before.WellFormed func) {first second : InstId}
    (sublist : [first, second].Sublist (checksInOrder before func)) :
    Precedes before func first second :=
  idxOf_lt_of_sublist (wellFormed.inOrder_perm.nodup_iff.mpr wellFormed.nodup)
    (sublist.trans List.filter_sublist)

theorem mem_front_iff (wellFormed : before.WellFormed func) {front back : List InstId}
    (split : checksInOrder before func = front ++ op :: back) {id : InstId} :
    id ∈ front ↔ id ∈ checksInOrder before func ∧ Precedes before func id op := by
  constructor
  · intro inFront
    refine ⟨by simp [split, inFront], precedes_of_sublist wellFormed ?_⟩
    rw [split]
    exact (List.singleton_sublist.mpr inFront).append
      (List.singleton_sublist.mpr List.mem_cons_self)
  · rintro ⟨member, precedes⟩
    rw [split, List.mem_append, List.mem_cons] at member
    rcases member with inFront | isOp | inBack
    · exact inFront
    · subst isOp
      exact absurd precedes (Nat.lt_irrefl _)
    · have after : Precedes before func op id := by
        apply precedes_of_sublist wellFormed
        rw [split]
        exact (List.Sublist.cons_cons op (List.singleton_sublist.mpr inBack)).trans
          (List.sublist_append_right ..)
      exact absurd precedes (Nat.lt_asymm after)

/-- A check comes behind its operands. -/
theorem precedes_of_operand (wellFormed : before.WellFormed func) (member : op ∈ before.listed func)
    (isCheck : IsCheck before op) (isInput : input ∈ before.inputs op) :
    Precedes before func input op := by
  rcases isCheck with ⟨inst, found, isKind⟩
  rcases wellFormed.inst member with ⟨bb, bbMem, inBlock, -⟩
  rcases List.append_of_mem inBlock with ⟨front, back, split⟩
  have notPhi : inst.kind.isPhi = false := by
    rcases isKind with kind | kind <;> rw [kind] <;> rfl
  rw [inputs_eq found] at isInput
  exact wellFormed.idxOf_lt ⟨bb, bbMem, front, back, split,
    wellFormed.uses bb bbMem front op back split inst found notPhi input isInput⟩

/-! ## The turn of a check -/

/-- The store when `op` is looked up among the users of `input`: the dominated checks
before it are gone. -/
structure Turn (isDominatorBB : BlockId → BlockId → Bool) (before : Store) (func : Function)
    (op : InstId) (inst : Inst) (input : InstId) (isCheck : Inst → Result Bool)
    (gone : List InstId) (store : Store) : Prop where
  member : op ∈ before.listed func
  found : before.insts op = some inst
  isKind : IsCheckKind inst.kind
  first : inst.inputs[0]? = some input
  recognizes : Recognizes isCheck inst input
  trimmed : Trimmed before func gone store
  scarred : Scarred before func store
  gone_iff : ∀ id, id ∈ gone ↔ (id ∈ before.listed func ∧ IsCheck before id) ∧
    Precedes before func id op ∧ Dominated isDominatorBB before func [] id

theorem exists_turn (wellFormed : before.WellFormed func) (enumerates : Enumerates order)
    (orders : OrdersInsts isDominatorBB before func) {front back : List InstId}
    (split : checksInOrder before func = front ++ op :: back)
    (running : front.foldlM (elim isDominatorBB order) before = .ok store) :
    ∃ inst input isCheck gone,
      Turn isDominatorBB before func op inst input isCheck gone store ∧
      elim isDominatorBB order store op = (do
        let _ ← store.inst input
        elimLoop isDominatorBB isCheck input op (order store input) store) := by
  have areChecks : ∀ id ∈ checksInOrder before func,
      id ∈ before.listed func ∧ IsCheck before id := fun id => (mem_checksInOrder wellFormed).mp
  have nodup := checksInOrder_nodup wellFormed
  rw [split] at areChecks nodup
  rcases areChecks op (by simp) with ⟨member, inst, found, isKind⟩
  have frontChecks : ∀ id ∈ front, id ∈ before.listed func ∧ IsCheck before id :=
    fun id inFront => areChecks id (List.mem_append_left _ inFront)
  rcases foldl_gone_iff wellFormed enumerates orders nodup.of_append_left frontChecks running with
    ⟨gone, trimmed, isGone⟩
  have scarred : Scarred before func store :=
    foldl_scarred wellFormed enumerates (.start wellFormed) (scarred_start wellFormed)
      nodup.of_append_left
      (fun id inFront => ⟨(frontChecks id inFront).1, (frontChecks id inFront).2,
        List.not_mem_nil⟩) running
  have goneIff : ∀ id, id ∈ gone ↔ (id ∈ before.listed func ∧ IsCheck before id) ∧
      Precedes before func id op ∧ Dominated isDominatorBB before func [] id := by
    intro id
    rw [isGone, mem_front_iff wellFormed split, mem_checksInOrder wellFormed, and_assoc]
  have left : op ∉ gone := fun opGone => Nat.lt_irrefl _ ((goneIff op).mp opGone).2.1
  have shaped := wellFormed.shaped member found
  rcases trimmed.insts op member left inst found with ⟨users, foundNow⟩
  rcases elim_eq_loop foundNow shaped isKind with ⟨input, isCheck, first, recognizes, loops⟩
  exact ⟨inst, input, isCheck, gone, ⟨member, found, isKind, first,
    ⟨recognizes.covers, recognizes.returns, recognizes.blind⟩, trimmed, scarred, goneIff⟩, loops⟩

namespace Turn

variable (turn : Turn isDominatorBB before func op inst input isCheck gone store)

include turn

theorem left : op ∉ gone := fun isGone =>
  Nat.lt_irrefl _ ((turn.gone_iff op).mp isGone).2.1

theorem isCheckOp : IsCheck before op := ⟨inst, turn.found, turn.isKind⟩

theorem inputs_first : (before.inputs op)[0]? = some input := by
  rw [inputs_eq turn.found]
  exact turn.first

theorem isInput : input ∈ before.inputs op := by
  rw [inputs_eq turn.found]
  exact List.mem_of_getElem? turn.first

theorem inputMem (wellFormed : before.WellFormed func) : input ∈ before.listed func :=
  wellFormed.housed.linked.inputs op turn.member input turn.isInput

theorem inputLeft (alive : ∃ inputInst, store.inst input = .ok inputInst) : input ∉ gone := by
  intro isGone
  rcases alive with ⟨inputInst, found⟩
  rw [inst_eq_ok, turn.trimmed.erased input isGone] at found
  cases found

/-- A user that is there is recognized exactly when it covers the check. -/
theorem isCheck_iff (wellFormed : before.WellFormed func) (inputLeft : input ∉ gone)
    (isUser : user ∈ store.users input) {userInst : Inst}
    (userFound : store.insts user = some userInst) :
    isCheck userInst = .ok true ↔ Covers before op user := by
  have userMem := turn.trimmed.usersMem input (turn.inputMem wellFormed) user isUser
  have userLeft : user ∉ gone := by
    intro isGone
    rw [turn.trimmed.erased user isGone] at userFound
    cases userFound
  rw [turn.trimmed.users input (turn.inputMem wellFormed) inputLeft user userMem userLeft] at isUser
  exact turn.recognizes.recognized_iff wellFormed turn.trimmed turn.found turn.isKind turn.first userMem
    userLeft isUser userFound

/-- A check that covers this one and is left is met among the users. -/
theorem mem_users (wellFormed : before.WellFormed func) (inputLeft : input ∉ gone)
    {other : InstId} (otherMem : other ∈ before.listed func) (otherLeft : other ∉ gone)
    (covers : Covers before op other) : other ∈ store.users input := by
  rw [turn.trimmed.users input (turn.inputMem wellFormed) inputLeft other otherMem otherLeft]
  exact covers.uses turn.found turn.first

end Turn

/-! ## What the whole run notes -/

/-- The check is erased once, and is no argument of a call after that. -/
def ErasedOnce (calls : List Call) (op : InstId) : Prop :=
  ∃ front back, calls = front ++ .eraseInst op :: back ∧ .eraseInst op ∉ front ∧
    ∀ call ∈ back, ¬ call.mentions op

theorem elim_gone (result : elim isDominatorBB order store op = .ok store') {id : InstId}
    (isGone : store.insts id = none) : store'.insts id = none := by
  have ofLoop {isCheck : Inst → Result Bool} {input : InstId} {users : List InstId}
      (running : elimLoop isDominatorBB isCheck input op users store = .ok store') :
      store'.insts id = none := by
    cases elimLoop_cases running with
    | inl kept => exact kept.1 ▸ isGone
    | inr erased => exact eraseCheck_gone erased.1 (.inl isGone)
  rcases Result.bind_eq_ok.mp result with ⟨⟨type, kind, users, bb, inputs⟩, -, continued⟩
  cases kind with
  | kBinOp oper =>
      cases oper with
      | kBoundsCheck =>
          rcases Result.bind_eq_ok.mp continued with ⟨_, -, continued⟩
          rcases Result.bind_eq_ok.mp continued with ⟨_, -, continued⟩
          rcases Result.bind_eq_ok.mp continued with ⟨_, -, continued⟩
          rcases Result.bind_eq_ok.mp continued with ⟨_, -, running⟩
          exact ofLoop running
      | _ =>
          cases continued
          exact isGone
  | kUnaryOp oper =>
      cases oper with
      | kZeroCheck =>
          rcases Result.bind_eq_ok.mp continued with ⟨_, -, continued⟩
          rcases Result.bind_eq_ok.mp continued with ⟨_, -, continued⟩
          rcases Result.bind_eq_ok.mp continued with ⟨_, -, running⟩
          exact ofLoop running
  | _ =>
      cases continued
      exact isGone

/-- Only the candidates themselves are erased. -/
theorem erases_candidate {candidates : List InstId}
    (member : .eraseInst op ∈
      (candidates.foldlM (tracedElim isDominatorBB order) store).events) : op ∈ candidates := by
  induction candidates generalizing store with
  | nil => cases member
  | cons head rest induction =>
      rw [List.foldlM_cons] at member
      rcases mem_events_bind.mp member with here | ⟨next, -, later⟩
      · rcases calls_of_tracedElim here with same | ⟨user, asked, -⟩
        · cases same
          exact List.mem_cons_self
        · cases asked
      · exact List.mem_cons_of_mem _ (induction later)

/-- What is gone is not touched by the candidates behind it. -/
theorem silent_when_gone {candidates : List InstId} (isGone : store.insts op = none)
    (behind : op ∉ candidates) : ∀ call ∈
      (candidates.foldlM (tracedElim isDominatorBB order) store).events, ¬ call.mentions op := by
  induction candidates generalizing store with
  | nil => exact List.forall_mem_nil _
  | cons head rest induction =>
      rw [List.mem_cons, not_or] at behind
      intro call member mentions
      rw [List.foldlM_cons] at member
      rcases mem_events_bind.mp member with here | ⟨next, stepped, later⟩
      · rcases calls_of_tracedElim here with same | ⟨user, asked, alive⟩
        · subst same
          exact behind.1 mentions
        · subst asked
          cases mentions with
          | inl isUser => exact alive (isUser ▸ isGone)
          | inr isHead => exact behind.1 isHead
      · rw [result_tracedElim] at stepped
        exact induction (elim_gone stepped isGone) behind.2 call later mentions

/-- The stores on the way of a run that returns. -/
theorem run_split (wellFormed : before.WellFormed func)
    (completes : run isDominatorBB order before func = .ok store') {front back : List InstId}
    (split : checksInOrder before func = front ++ op :: back) :
    ∃ store next, front.foldlM (elim isDominatorBB order) before = .ok store ∧
      elim isDominatorBB order store op = .ok next ∧
      back.foldlM (elim isDominatorBB order) next = .ok store' := by
  rw [run_eq wellFormed, split, List.foldlM_append] at completes
  rcases Result.bind_eq_ok.mp completes with ⟨store, first, continued⟩
  rw [List.foldlM_cons] at continued
  rcases Result.bind_eq_ok.mp continued with ⟨next, here, later⟩
  exact ⟨store, next, first, here, later⟩

/-- The turn of a check in a run that returns. -/
structure Passage (isDominatorBB : BlockId → BlockId → Bool)
    (order : Store → InstId → List InstId) (before : Store) (func : Function) (op : InstId) where
  front : List InstId
  back : List InstId
  split : checksInOrder before func = front ++ op :: back
  store : Store
  next : Store
  first : front.foldlM (elim isDominatorBB order) before = .ok store
  here : elim isDominatorBB order store op = .ok next
  inst : Inst
  input : InstId
  isCheck : Inst → Result Bool
  gone : List InstId
  turn : Turn isDominatorBB before func op inst input isCheck gone store
  inputLeft : input ∉ gone
  loop : elimLoop isDominatorBB isCheck input op (order store input) store = .ok next

theorem exists_passage (wellFormed : before.WellFormed func) (enumerates : Enumerates order)
    (orders : OrdersInsts isDominatorBB before func)
    (completes : run isDominatorBB order before func = .ok store')
    (member : op ∈ before.listed func) (isCheck : IsCheck before op) :
    Nonempty (Passage isDominatorBB order before func op) := by
  have isCandidate := (mem_checksInOrder wellFormed).mpr ⟨member, isCheck⟩
  rcases List.append_of_mem isCandidate with ⟨front, back, split⟩
  rcases run_split wellFormed completes split with ⟨store, next, first, here, -⟩
  rcases exists_turn wellFormed enumerates orders split first with
    ⟨inst, input, isCheck, gone, turn, loops⟩
  have looping := here
  rw [loops] at looping
  rcases Result.bind_eq_ok.mp looping with ⟨inputInst, inputFound, loop⟩
  exact ⟨front, back, split, store, next, first, here, inst, input, isCheck, gone, turn,
    turn.inputLeft ⟨inputInst, inputFound⟩, loop⟩

namespace Passage

variable (passage : Passage isDominatorBB order before func op)

include passage

theorem notInRest (wellFormed : before.WellFormed func) :
    op ∉ passage.front ∧ op ∉ passage.back := by
  have nodup := checksInOrder_nodup wellFormed
  rw [passage.split] at nodup
  have alone := (List.nodup_cons.mp (List.nodup_middle.mp nodup)).1
  rwa [List.mem_append, not_or] at alone

theorem events (wellFormed : before.WellFormed func) :
    (tracedRun isDominatorBB order before func).events =
      (passage.front.foldlM (tracedElim isDominatorBB order) before).events ++
        (tracedElim isDominatorBB order passage.store op).events ++
        (passage.back.foldlM (tracedElim isDominatorBB order) passage.next).events := by
  have first : (passage.front.foldlM (tracedElim isDominatorBB order) before).result =
      .ok passage.store := by
    simp only [result_foldlM, result_tracedElim, passage.first]
  rw [tracedRun_eq wellFormed, passage.split,
    events_foldlM_split first (result_tracedElim.trans passage.here)]

theorem events_here (wellFormed : before.WellFormed func) :
    (passage.next = passage.store ∧
      .eraseInst op ∉ (tracedElim isDominatorBB order passage.store op).events) ∨
    (passage.next.insts op = none ∧ ∃ asked,
      (tracedElim isDominatorBB order passage.store op).events = asked ++ [.eraseInst op] ∧
        .eraseInst op ∉ asked) := by
  have turn := passage.turn
  have shaped := wellFormed.shaped turn.member turn.found
  rcases turn.trimmed.insts op turn.member turn.left passage.inst turn.found with ⟨users, foundNow⟩
  exact events_tracedElim foundNow shaped turn.isKind passage.here

/-- The check goes when a check that is left covers and dominates it. -/
theorem goes_iff (wellFormed : before.WellFormed func) (enumerates : Enumerates order) :
    passage.next.insts op = none ↔
      Dominated isDominatorBB before func passage.gone op := by
  have turn := passage.turn
  rcases turn.trimmed.insts op turn.member turn.left passage.inst turn.found with ⟨users, foundNow⟩
  cases elim_trimmed wellFormed enumerates turn.trimmed turn.member turn.left turn.isCheckOp
    passage.here with
  | inl kept =>
      rw [kept.1]
      apply iff_of_false _ kept.2
      intro isNone
      rw [isNone] at foundNow
      cases foundNow
  | inr erased => exact iff_of_true (erased.1.erased op List.mem_cons_self) erased.2

end Passage

/-- In a run that returns a dominated check is erased once and left alone. -/
theorem erasedOnce_of_completes (wellFormed : before.WellFormed func)
    (enumerates : Enumerates order) (orders : OrdersInsts isDominatorBB before func)
    (completes : run isDominatorBB order before func = .ok store')
    (member : op ∈ before.listed func) (isCheck : IsCheck before op)
    (dominated : Dominated isDominatorBB before func [] op) :
    ErasedOnce (tracedRun isDominatorBB order before func).events op := by
  rcases exists_passage wellFormed enumerates orders completes member isCheck with ⟨passage⟩
  have goes : passage.next.insts op = none := by
    -- the outermost of the checks that cover it is there when its turn comes
    rcases dominated.outermost wellFormed orders member with
      ⟨other, otherMem, different, covers, dominates, outermost⟩
    rw [passage.goes_iff wellFormed enumerates]
    exact ⟨other, otherMem, fun isGone => outermost ((passage.turn.gone_iff other).mp isGone).2.2,
      different, covers, dominates⟩
  rcases passage.notInRest wellFormed with ⟨notFront, notBack⟩
  cases passage.events_here wellFormed with
  | inl kept =>
      rcases passage.turn.trimmed.insts op member passage.turn.left passage.inst
        passage.turn.found with ⟨users, foundNow⟩
      rw [kept.1, foundNow] at goes
      cases goes
  | inr erased =>
      rcases erased.2 with ⟨asked, noted, fresh⟩
      refine ⟨(passage.front.foldlM (tracedElim isDominatorBB order) before).events ++ asked,
        (passage.back.foldlM (tracedElim isDominatorBB order) passage.next).events, ?_, ?_,
        silent_when_gone goes notBack⟩
      · rw [passage.events wellFormed, noted]
        simp
      · rw [List.mem_append, not_or]
        exact ⟨fun erases => notFront (erases_candidate erases), fresh⟩

/-- In a run that returns only dominated checks are erased. -/
theorem dominated_of_erased (wellFormed : before.WellFormed func)
    (enumerates : Enumerates order) (orders : OrdersInsts isDominatorBB before func)
    (completes : run isDominatorBB order before func = .ok store')
    (erased : .eraseInst op ∈ (tracedRun isDominatorBB order before func).events) :
    Dominated isDominatorBB before func [] op := by
  have isCandidate : op ∈ checksInOrder before func := by
    rw [tracedRun_eq wellFormed] at erased
    exact erases_candidate erased
  rcases (mem_checksInOrder wellFormed).mp isCandidate with ⟨member, isCheck⟩
  rcases exists_passage wellFormed enumerates orders completes member isCheck with ⟨passage⟩
  rcases passage.notInRest wellFormed with ⟨notFront, notBack⟩
  rw [passage.events wellFormed, List.mem_append, List.mem_append] at erased
  rcases erased with (inFront | here) | inBack
  · exact absurd (erases_candidate inFront) notFront
  · cases passage.events_here wellFormed with
    | inl kept => exact absurd here kept.2
    | inr goes =>
        exact ((passage.goes_iff wellFormed enumerates).mp goes.1).subset (by simp)
  · exact absurd (erases_candidate inBack) notBack

end LeechJit.Opt.ChecksElimination
