import LeechJit.Opt.InlineArguments
import LeechJit.Opt.InlineLined

/-! # Operands after one call

The callee reads the arguments instead of its parameters. Users of the call read what is
returned instead, or a new phi that merges what the returns have.
-/

namespace LeechJit.Opt.Inlining

open IR Store Bindings LeechJit.Graph

variable {store moved middle store' : Store} {func callee : FuncId} {bb after : BlockId}
  {call id this other phi value : InstId} {rets : List InstId} {vars : List PhiEntry}

/-! ## Users sets that stay exact -/

theorem eraseInst_kindOf (erasing : store.eraseInst bb id = .ok store') (key : InstId) :
    store'.kindOf key = if key = id then none else store.kindOf key := by
  rcases eraseInst_eq_ok erasing with ⟨-, -, -, insts, -⟩
  simp only [kindOf, insts]
  split_ifs <;> rfl

/-- The users sets are exact, but for old users that are gone. -/
structure Ledger (store : Store) : Prop where
  recorded : Recorded store
  below : ∀ val, ∀ user ∈ store.users val, user < store.nextInst
  allocated : ∀ key, store.kindOf key ≠ none → key < store.nextInst

namespace Ledger

theorem of_built (built : store.Built) : Ledger store where
  recorded val user _ := built.tied.users val user
  below val user isUser := by
    apply built.tied.allocated
    exact kindOf_of_inputs ((built.tied.users val user).mp isUser)
  allocated := built.tied.allocated

theorem users_nextInst (ledger : Ledger store) : store.users store.nextInst = [] := by
  rw [List.eq_nil_iff_forall_not_mem]
  intro user isUser
  rcases exists_of_mem_users isUser with ⟨inst, found, -⟩
  exact Nat.lt_irrefl _ (ledger.allocated _ (kindOf_ne_none.mpr ⟨inst, found⟩))

theorem inputs_nextInst (ledger : Ledger store) : store.inputs store.nextInst = [] := by
  rw [List.eq_nil_iff_forall_not_mem]
  intro input isInput
  exact Nat.lt_irrefl _ (ledger.allocated _ (kindOf_of_inputs isInput))

theorem congr (ledger : Ledger store) (same : SameOperands store store')
    (kinds : ∀ key, store'.kindOf key = store.kindOf key)
    (nextInst : store'.nextInst = store.nextInst) : Ledger store' where
  recorded val user stored := by
    rw [kinds] at stored
    rw [same.users, same.inputs]
    exact ledger.recorded val user stored
  below val user isUser := by
    rw [same.users] at isUser
    rw [nextInst]
    exact ledger.below val user isUser
  allocated key stored := by
    rw [kinds] at stored
    rw [nextInst]
    exact ledger.allocated key stored

/-- Users of one value use another one instead. -/
theorem setUsersFrom (ledger : Ledger store) (different : this ≠ other)
    (moving : store.setUsersFrom this other = .ok moved) :
    (∀ key, moved.inputs key = (store.inputs key).map (subst other this)) ∧
      Ledger moved := by
  rcases setUsersFrom_eq_ok' different moving with ⟨relinked, inputs, users⟩
  have mapped : ∀ key, moved.inputs key = (store.inputs key).map (subst other this) := by
    intro key
    rw [inputs]
    split_ifs with isUser
    · rfl
    · rw [not_or] at isUser
      have unused := mt ledger.recorded.mem_users isUser.2
      exact (map_subst_of_not_mem unused).symm
  refine ⟨mapped, ?_, ?_, ?_⟩
  · intro val user stored
    rw [relinked.kindOf] at stored
    rw [users, mapped, mem_map_subst, ledger.recorded val user stored,
      ledger.recorded other user stored, and_comm (a := val ≠ other)]
  · intro val user isUser
    rw [relinked.nextInst]
    rcases (users val user).mp isUser with ⟨-, isUser⟩ | ⟨-, isUser⟩
    · exact ledger.below val user isUser
    · exact ledger.below other user isUser
  · intro key stored
    rw [relinked.kindOf] at stored
    rw [relinked.nextInst]
    exact ledger.allocated key stored

/-- What is erased must not be used. -/
theorem eraseInst (ledger : Ledger store) (unused : ∀ user, user ≠ id → id ∉ store.inputs user)
    (erasing : store.eraseInst bb id = .ok store') : Ledger store' := by
  rcases eraseInst_operands erasing with ⟨inputs, users⟩
  rcases eraseInst_eq_ok erasing with ⟨-, -, -, -, -, -, nextInst, -⟩
  have kinds := eraseInst_kindOf erasing
  constructor
  case recorded =>
    intro val user stored
    rw [kinds] at stored
    split_ifs at stored with isId
    · exact absurd rfl stored
    · rw [users, inputs, if_neg isId]
      split_ifs with isVal
      · subst isVal
        exact iff_of_false List.not_mem_nil (unused user isId)
      · exact ledger.recorded val user stored
  case below =>
    intro val user isUser
    rw [users] at isUser
    rw [nextInst]
    split_ifs at isUser
    · cases isUser
    · exact ledger.below val user isUser
  case allocated =>
    intro key stored
    rw [kinds] at stored
    rw [nextInst]
    split_ifs at stored
    · exact absurd rfl stored
    · exact ledger.allocated key stored

/-- A new instruction without operands. -/
theorem adds (ledger : Ledger store) {kind : InstKind} (adds : Adds store [] store')
    (kinds : ∀ key, store'.kindOf key = if key = store.nextInst then some kind
      else store.kindOf key)
    (nextInst : store'.nextInst = store.nextInst + 1) : Ledger store' := by
  have users : ∀ val user, user ∈ store'.users val ↔ user ∈ store.users val := by
    intro val user
    rw [adds.users]
    constructor
    · rintro (⟨-, isUser⟩ | ⟨isInput, -⟩)
      · exact isUser
      · cases isInput
    · intro isUser
      refine .inl ⟨?_, isUser⟩
      rintro rfl
      rw [ledger.users_nextInst] at isUser
      cases isUser
  constructor
  case recorded =>
    intro val user stored
    rw [users, adds.inputs]
    rw [kinds] at stored
    split_ifs with isNew
    · apply iff_of_false _ List.not_mem_nil
      exact fun isUser => Nat.ne_of_lt (ledger.below val user isUser) isNew
    · rw [if_neg isNew] at stored
      exact ledger.recorded val user stored
  case below =>
    intro val user isUser
    rw [nextInst]
    exact Nat.lt_succ_of_lt (ledger.below val user ((users val user).mp isUser))
  case allocated =>
    intro key stored
    rw [kinds] at stored
    rw [nextInst]
    split_ifs at stored with isNew
    · exact isNew ▸ Nat.lt_succ_self _
    · exact Nat.lt_succ_of_lt (ledger.allocated key stored)

theorem addNode (ledger : Ledger store) (isPhi : store.kindOf phi = some (.kPhi vars))
    (result : store.addNode phi value bb = .ok store') :
    (∀ key, store'.inputs key =
        if key = phi then store.inputs phi ++ [value] else store.inputs key) ∧
      store'.kindOf phi = some (.kPhi (vars ++ [⟨value, bb⟩])) ∧ Ledger store' := by
  rcases Result.bind_eq_ok.mp result with ⟨inst, found, adding⟩
  rw [inst_eq_ok] at found
  have kind : inst.kind = .kPhi vars := by
    rw [kindOf_eq found] at isPhi
    exact Option.some.inj isPhi
  simp only [kind] at adding
  rcases addInput_eq_ok adding with ⟨relinked, inputs, users⟩
  have grown : SameOperands store (store.setInst phi
      { inst with kind := .kPhi (vars ++ [⟨value, bb⟩]) }) := .setInst found rfl rfl
  have kinds : ∀ key, store'.kindOf key =
      if key = phi then some (.kPhi (vars ++ [⟨value, bb⟩])) else store.kindOf key := by
    intro key
    rw [relinked.kindOf]
    by_cases same : key = phi <;> simp [kindOf, Store.setInst, same]
  have phiStored : store.kindOf phi ≠ none := by simp [isPhi]
  have storedBefore : ∀ key, store'.kindOf key ≠ none → store.kindOf key ≠ none := by
    intro key stored
    rw [kinds] at stored
    split_ifs at stored with same
    · exact same ▸ phiStored
    · exact stored
  have nextInst : store'.nextInst = store.nextInst := relinked.nextInst
  refine ⟨?_, by rw [kinds, if_pos rfl], ?_, ?_, ?_⟩
  · intro key
    rw [inputs, grown.inputs, grown.inputs]
  · intro val user stored
    rw [users, inputs, grown.users, grown.inputs, grown.inputs,
      ledger.recorded val user (storedBefore user stored)]
    by_cases same : user = phi
    · subst same
      simp
    · simp [same]
  · intro val user isUser
    rw [nextInst]
    rcases (users val user).mp isUser with isUser | ⟨-, rfl⟩
    · rw [grown.users] at isUser
      exact ledger.below val user isUser
    · exact ledger.allocated user phiStored
  · intro key stored
    rw [nextInst]
    exact ledger.allocated key (storedBefore key stored)

/-- The rounds for the parameters keep the users sets exact. -/
theorem binds {first : BlockId} {idx : Nat} {params : List InstId} (ledger : Ledger store)
    (binds : Binds first call idx params store store') : Ledger store' := by
  induction binds with
  | done => exact ledger
  | bind _ different moving erasing _ induction =>
      rcases ledger.setUsersFrom different moving with ⟨inputs, movedLedger⟩
      apply induction
      apply movedLedger.eraseInst _ erasing
      intro user _ uses
      rw [inputs, mem_map_subst] at uses
      rcases uses with ⟨-, isOther⟩ | ⟨isArg, -⟩
      · exact isOther rfl
      · exact different isArg.symm

end Ledger

/-! ## Parameters of another store -/

theorem answer_isParam {id : InstId} :
    answer (isParam store id) = true ↔ ∃ idx, store.kindOf id = some (.kParam idx) := by
  rw [answer_eq_true]
  constructor
  · exact fun result => (isParam_eq_true result).mp rfl
  · rintro ⟨idx, isKind⟩
    rcases kindOf_ne_none.mp (isKind ▸ Option.some_ne_none _) with ⟨inst, found⟩
    rw [kindOf_eq found, Option.some.injEq] at isKind
    rw [isParam, inst_eq_ok.mpr found, Result.ok_bind, isKind]
    rfl

theorem paramsOf_congr {first : BlockId} (lists : store'.instructions first = store.instructions first)
    (kinds : ∀ id ∈ store.instructions first, store'.kindOf id = store.kindOf id) :
    paramsOf store' first = paramsOf store first := by
  rw [paramsOf, paramsOf, lists]
  apply List.filter_congr
  intro id inBlock
  rw [Bool.eq_iff_iff, answer_isParam, answer_isParam, kinds id inBlock]

/-- The same block with the same kinds and operands. -/
structure SameParams (store store' : Store) (first : BlockId) : Prop
    extends SameOperands store store' where
  kinds : ∀ key, store'.kindOf key = store.kindOf key
  lists : store'.instructions first = store.instructions first

namespace SameParams

variable {first : BlockId}

theorem paramsOf (same : SameParams store store' first) :
    paramsOf store' first = paramsOf store first :=
  paramsOf_congr same.lists fun id _ => same.kinds id

theorem boundTo {operand now : InstId} (same : SameParams store store' first)
    (boundTo : BoundTo store' first call operand now) : BoundTo store first call operand now := by
  cases boundTo with
  | argument member isParam isArg stays =>
      rw [same.paramsOf] at member stays
      rw [same.kinds] at isParam
      rw [same.inputs] at isArg
      exact .argument member isParam isArg stays
  | kept notParam => exact .kept (same.paramsOf ▸ notParam)

theorem bindable (same : SameParams store store' first) (bindable : Bindable store first)
    (present : store'.blocks first ≠ none) : Bindable store' first where
  recorded value user stored := by
    rw [same.kinds] at stored
    rw [same.users, same.inputs]
    exact bindable.recorded value user stored
  present := present
  distinct := by
    rw [same.lists]
    exact bindable.distinct
  stored id member := by
    rw [same.lists] at member
    rw [same.kinds]
    exact bindable.stored id member
  noInputs id idx isParam := by
    rw [same.kinds] at isParam
    rw [same.inputs]
    exact bindable.noInputs id idx isParam

end SameParams

/-- There is an argument for each parameter, and each parameter that is used stands in the place
that its index names. -/
structure Seated (store : Store) (first : BlockId) (call : InstId) : Prop where
  enough : (paramsOf store first).length ≤ (store.inputs call).length
  places : ∀ (place : Nat) param, (paramsOf store first)[place]? = some param →
    ∀ user, param ∈ store.inputs user → store.kindOf param = some (.kParam place)

theorem seated_of_kinds {first : BlockId} {count : Nat}
    (kinds : (paramsOf store first).map store.kindOf =
      (List.range count).map fun place => some (.kParam place))
    (enough : count ≤ (store.inputs call).length) : Seated store first call where
  enough := by
    have lengths := congrArg List.length kinds
    rw [List.length_map, List.length_map, List.length_range] at lengths
    exact lengths.trans_le enough
  places := by
    intro place param isParam _ _
    have kind := congrArg (·[place]?) kinds
    simp only [List.getElem?_map, isParam, Option.map_some] at kind
    rcases Option.map_eq_some_iff.mp kind.symm with ⟨again, inRange, isKind⟩
    have isPlace : place = again := by
      rw [List.getElem?_range] at inRange
      · exact Option.some.inj inRange
      · by_contra outside
        rw [List.getElem?_eq_none (by simpa using outside)] at inRange
        cases inRange
    rw [isPlace, ← isKind]

section Seated

variable {first : BlockId} {idx : Nat} {params : List InstId}

theorem SameParams.seated (same : SameParams store store' first)
    (seated : Seated store first call) : Seated store' first call where
  enough := by
    rw [same.paramsOf, same.inputs]
    exact seated.enough
  places := by
    intro place param isParam user uses
    rw [same.paramsOf] at isParam
    rw [same.inputs] at uses
    rw [same.kinds]
    exact seated.places place param isParam user uses

/-- A call that passes no parameter of the block binds them all. -/
theorem binds_of_apart (waiting : Waiting store first params)
    (enough : idx + params.length ≤ (store.inputs call).length)
    (apart : ∀ arg ∈ store.inputs call, arg ∉ params)
    (result : adjustParams first call idx params store = .ok store') :
    Binds first call idx params store store' := by
  induction params generalizing idx store with
  | nil =>
      cases result
      exact .done
  | cons param params induction =>
      rw [List.length_cons] at enough
      rcases Result.bind_eq_ok.mp result with ⟨inst, found, continued⟩
      rw [inst_eq_ok] at found
      have inside : idx < (store.inputs call).length := by omega
      have isInput := List.getElem?_eq_getElem inside
      generalize (store.inputs call)[idx] = input at isInput
      have isArg := List.mem_of_getElem? isInput
      have operand : inst.inputs[idx]? = some input := by rwa [← inputs_eq found]
      rw [operand] at continued
      rcases Result.bind_eq_ok.mp continued with ⟨moved, moving, continued⟩
      rcases Result.bind_eq_ok.mp continued with ⟨next, erasing, later⟩
      have different : input ≠ param := List.ne_of_not_mem_cons (apart input isArg)
      have replaces := waiting.replaces different moving erasing
      have unused : param ∉ store.inputs call := fun uses => apart param uses List.mem_cons_self
      have sameInputs : next.inputs call = store.inputs call := by
        rw [replaces.inputs_of_ne (waiting.call_ne isInput), map_subst_of_not_mem unused]
      refine .bind isInput different moving erasing ?_
      apply induction (waiting.rest different replaces) _ _ later
      · rw [sameInputs]
        omega
      · rw [sameInputs]
        exact fun arg member => List.not_mem_of_not_mem_cons (apart arg member)

theorem Seated.boundTo (seated : Seated store first call)
    (apart : ∀ arg ∈ store.inputs call, arg ∉ paramsOf store first) {user operand now : InstId}
    (uses : operand ∈ store.inputs user)
    (resolves : Resolves ((paramsOf store first).zip (store.inputs call)) operand now) :
    BoundTo store first call operand now := by
  by_cases isParam : operand ∈ paramsOf store first
  · rcases (resolves_iff_place seated.enough apart isParam).mp resolves with
      ⟨place, atPlace, isArg⟩
    exact .argument isParam (seated.places place operand atPlace user uses) isArg
      (apart now (List.mem_of_getElem? isArg))
  · have names : ((paramsOf store first).zip (store.inputs call)).map Prod.fst =
        paramsOf store first := List.map_fst_zip seated.enough
    rw [← names] at isParam
    cases resolves.eq_of_not_mem isParam
    rw [names] at isParam
    exact .kept isParam

/-- What the rounds leave when the parameters are in their places. -/
theorem Seated.bound (seated : Seated store first call) (bindable : Bindable store first)
    (apart : ∀ arg ∈ store.inputs call, arg ∉ paramsOf store first)
    (result : adjustParams first call 0 (paramsOf store first) store = .ok store') :
    Binds first call 0 (paramsOf store first) store store' ∧
      store'.instructions first =
        (store.instructions first).filter (· ∉ paramsOf store first) ∧
      ∀ user ∉ paramsOf store first,
        List.Forall₂ (BoundTo store first call) (store.inputs user) (store'.inputs user) := by
  have waiting := bindable.waiting
  have enough : 0 + (paramsOf store first).length ≤ (store.inputs call).length := by
    rw [Nat.zero_add]
    exact seated.enough
  have binds := binds_of_apart waiting enough apart result
  have allBound := binds.allBound bindable.distinct waiting
  rw [bindings, List.drop_zero] at allBound
  refine ⟨binds, allBound.instructions, ?_⟩
  intro user notParam
  have used : List.Forall₂ (fun value now => value ∈ store.inputs user ∧
      Resolves ((paramsOf store first).zip (store.inputs call)) value now)
      (store.inputs user) (store'.inputs user) :=
    (List.forall₂_and_left ..).mpr ⟨fun _ member => member, allBound.inputs user notParam⟩
  exact used.imp fun _ _ both => seated.boundTo apart both.1 both.2

end Seated

/-! ## What is returned -/

/-- An entry of the phi that merges the returns: the operand of the return, from its block. -/
def EntryOf (store : Store) (ret : InstId) (entry : PhiEntry) : Prop :=
  (store.inputs ret)[0]? = some entry.val ∧ store.homeOf ret = some (some entry.bb)

/-- The phi gets an entry for each return. -/
theorem addRets_operands (ledger : Ledger store) (isPhi : store.kindOf phi = some (.kPhi vars))
    (notRet : phi ∉ rets) (result : addRets phi rets store = .ok store') : ∃ added,
      List.Forall₂ (EntryOf store) rets added ∧
      (∀ key, store'.inputs key =
        if key = phi then store.inputs phi ++ added.map PhiEntry.val else store.inputs key) ∧
      store'.kindOf phi = some (.kPhi (vars ++ added)) ∧ Ledger store' := by
  induction rets generalizing store vars with
  | nil =>
      cases result
      refine ⟨[], .nil, ?_, by rw [List.append_nil, isPhi], ledger⟩
      intro key
      by_cases same : key = phi <;> simp [same]
  | cons ret rest induction =>
      rw [List.mem_cons, not_or] at notRet
      rcases Result.bind_eq_ok.mp result with ⟨retInst, foundRet, continued⟩
      rcases Result.bind_eq_ok.mp continued with ⟨val, isVal, continued⟩
      rcases Result.bind_eq_ok.mp continued with ⟨bb, home, continued⟩
      rcases Result.bind_eq_ok.mp continued with ⟨next, adding, later⟩
      rw [inst_eq_ok] at foundRet
      rcases ledger.addNode isPhi adding with ⟨inputs, isPhiNext, ledgerNext⟩
      rcases induction ledgerNext isPhiNext notRet.2 later with
        ⟨added, entries, inputs', isPhi', ledger'⟩
      have homes := addNode_sameHomes adding
      have isEntry : EntryOf store ret ⟨val, bb⟩ := by
        refine ⟨?_, ?_⟩
        · rw [inputs_eq foundRet]
          exact inputAt_eq_ok.mp isVal
        · rw [homeOf_eq foundRet]
          cases isHome : retInst.bb <;> simp [Inst.getBB, isHome] at home ⊢
          exact home
      have later : List.Forall₂ (EntryOf store) rest added := by
        have both : List.Forall₂ (fun other entry => other ∈ rest ∧ EntryOf next other entry)
            rest added := (List.forall₂_and_left ..).mpr ⟨fun _ member => member, entries⟩
        apply both.imp
        rintro other entry ⟨otherMem, isOther⟩
        have notPhi : other ≠ phi := fun same => notRet.2 (same ▸ otherMem)
        rwa [EntryOf, inputs, if_neg notPhi, homes.homes] at isOther
      refine ⟨⟨val, bb⟩ :: added, .cons isEntry later, ?_, ?_, ledger'⟩
      · intro key
        rw [inputs', inputs, inputs]
        by_cases same : key = phi <;> simp [same]
      · rw [isPhi', List.append_assoc]
        rfl

/-- What users of the call read in its place. -/
inductive Delivers (store : Store) (rets : List InstId) (store' : Store) : InstId → Prop
  | single {ret value : InstId} (only : rets = [ret])
      (returned : (store.inputs ret)[0]? = some value) : Delivers store rets store' value
  | phi {entries : List PhiEntry} (many : rets.length ≠ 1)
      (isEntry : List.Forall₂ (EntryOf store) rets entries)
      (inputs : store'.inputs store.nextInst = entries.map PhiEntry.val)
      (isPhi : store'.kindOf store.nextInst = some (.kPhi entries)) :
      Delivers store rets store' store.nextInst

theorem pushPhi_operands {resType : ValueType} {pushed : Store} (ledger : Ledger store)
    (pushing : store.pushInstFront after (.phi resType) = .ok (phi, pushed)) :
    phi = store.nextInst ∧ (∀ key, pushed.inputs key = store.inputs key) ∧
      (∀ key, key ≠ store.nextInst → pushed.homeOf key = store.homeOf key) ∧
      pushed.kindOf store.nextInst = some (.kPhi []) ∧ Ledger pushed := by
  rcases pushInstFront_adds pushing with ⟨rfl, adds⟩
  rcases pushInstFront_shape pushing with ⟨-, type, typed, shape_eq⟩
  have insts : ∀ key, pushed.shape.insts key = if key = store.nextInst
      then some { type := type, kind := .kPhi [], bb := some after }
      else store.shape.insts key := by
    intro key
    rw [shape_eq]
    by_cases isNew : key = store.nextInst <;>
      simp [Shape.place, Shape.setInst, Shape.setList, Construct.kind, isNew, Store.shape]
  have kinds : ∀ key, pushed.kindOf key =
      if key = store.nextInst then some (.kPhi []) else store.kindOf key := by
    intro key
    rw [kindOf_shape, insts, kindOf_shape]
    split_ifs <;> rfl
  have nextInst : pushed.nextInst = store.nextInst + 1 := congrArg Shape.nextInst shape_eq
  refine ⟨rfl, ?_, ?_, by rw [kinds, if_pos rfl], ledger.adds adds kinds nextInst⟩
  · intro key
    rw [adds.inputs]
    split_ifs with isNew
    · rw [isNew, ledger.inputs_nextInst]
      rfl
    · rfl
  · intro key isOld
    rw [homeOf_shape, insts, if_neg isOld, homeOf_shape]

/-- A new phi merges the returned values. -/
theorem mergePhi_operands {resType : ValueType} {pushed filled : Store} (ledger : Ledger store)
    (older : ∀ ret ∈ rets, ret ≠ store.nextInst) (callOlder : call ≠ store.nextInst)
    (apart : ∀ ret ∈ rets, call ∉ store.inputs ret)
    (pushing : store.pushInstFront after (.phi resType) = .ok (phi, pushed))
    (adding : addRets phi rets pushed = .ok filled)
    (moving : filled.setUsersFrom phi call = .ok store') :
    Ledger store' ∧
      (∀ key, key ≠ store.nextInst →
        store'.inputs key = (store.inputs key).map (subst call store.nextInst)) ∧
      ∃ entries, List.Forall₂ (EntryOf store) rets entries ∧
        store'.inputs store.nextInst = entries.map PhiEntry.val ∧
        store'.kindOf store.nextInst = some (.kPhi entries) := by
  rcases pushPhi_operands ledger pushing with
    ⟨rfl, pushedInputs, pushedHomes, isPhi, pushedLedger⟩
  have notRet : store.nextInst ∉ rets := fun member => older _ member rfl
  rcases addRets_operands pushedLedger isPhi notRet adding with
    ⟨entries, isEntry, filledInputs, isPhiFilled, filledLedger⟩
  rcases filledLedger.setUsersFrom callOlder.symm moving with ⟨inputs, ledger'⟩
  have entriesOf : List.Forall₂ (EntryOf store) rets entries := by
    have both : List.Forall₂ (fun ret entry => ret ∈ rets ∧ EntryOf pushed ret entry)
        rets entries := (List.forall₂_and_left ..).mpr ⟨fun _ member => member, isEntry⟩
    apply both.imp
    rintro ret entry ⟨member, isOwn⟩
    rwa [EntryOf, pushedInputs, pushedHomes ret (older ret member)] at isOwn
  refine ⟨ledger', ?_, entries, entriesOf, ?_, ?_⟩
  · intro key isOld
    rw [inputs, filledInputs, if_neg isOld, pushedInputs]
  · have unused : call ∉ entries.map PhiEntry.val := by
      intro member
      rcases List.mem_map.mp member with ⟨entry, entryMem, isCall⟩
      rcases List.forall₂_iff_get.mp entriesOf with ⟨lengths, each⟩
      rcases List.mem_iff_get.mp entryMem with ⟨position, isEntry⟩
      have inside : position.val < rets.length := lengths.symm ▸ position.isLt
      have own := (each position.val inside position.isLt).1
      rw [isEntry, isCall] at own
      exact apart _ (List.get_mem _ _) (List.mem_of_getElem? own)
    rw [inputs, filledInputs, if_pos rfl, pushedInputs, ledger.inputs_nextInst, List.nil_append,
      map_subst_of_not_mem unused]
  · rw [(setUsersFrom_eq_ok' callOlder.symm moving).1.kindOf, isPhiFilled, List.nil_append]

/-- Users of the call read what it delivers. -/
theorem mergeRets_operands {resType : ValueType} (ledger : Ledger store)
    (older : ∀ ret ∈ rets, ret ≠ store.nextInst) (callOlder : call ≠ store.nextInst)
    (apart : ∀ ret ∈ rets, call ∉ store.inputs ret)
    (result : mergeRets store call resType after rets = .ok store') :
    Ledger store' ∧ ∃ value, Delivers store rets store' value ∧
      ∀ key, key ≠ store.nextInst →
        store'.inputs key = (store.inputs key).map (subst call value) := by
  have merged : rets.length ≠ 1 → ∀ phi pushed filled,
      store.pushInstFront after (.phi resType) = .ok (phi, pushed) →
      addRets phi rets pushed = .ok filled → filled.setUsersFrom phi call = .ok store' →
      Ledger store' ∧ ∃ value, Delivers store rets store' value ∧
        ∀ key, key ≠ store.nextInst →
          store'.inputs key = (store.inputs key).map (subst call value) := by
    intro many phi pushed filled pushing adding moving
    rcases mergePhi_operands ledger older callOlder apart pushing adding moving with
      ⟨ledger', inputs, entries, isEntry, phiInputs, isPhi⟩
    exact ⟨ledger', _, .phi many isEntry phiInputs isPhi, inputs⟩
  cases rets with
  | nil =>
      rcases Result.bind_eq_ok.mp result with ⟨⟨phi, pushed⟩, pushing, continued⟩
      rcases Result.bind_eq_ok.mp continued with ⟨filled, adding, moving⟩
      exact merged (by simp) phi pushed filled pushing adding moving
  | cons ret rest =>
      cases rest with
      | nil =>
          rcases Result.bind_eq_ok.mp result with ⟨inst, found, continued⟩
          rcases Result.bind_eq_ok.mp continued with ⟨value, isValue, moving⟩
          have returned : (store.inputs ret)[0]? = some value := by
            rw [inputs_eq (inst_eq_ok.mp found)]
            exact inputAt_eq_ok.mp isValue
          have different : value ≠ call := by
            rintro rfl
            exact apart ret List.mem_cons_self (List.mem_of_getElem? returned)
          rcases ledger.setUsersFrom different moving with ⟨inputs, ledger'⟩
          exact ⟨ledger', value, .single rfl returned, fun key _ => inputs key⟩
      | cons other rest =>
          rcases Result.bind_eq_ok.mp result with ⟨⟨phi, pushed⟩, pushing, continued⟩
          rcases Result.bind_eq_ok.mp continued with ⟨filled, adding, moving⟩
          exact merged (by simp) phi pushed filled pushing adding moving

/-- A jump takes the place of a return. -/
theorem replaceRet_operands {ret jump : InstId} {erased : Store}
    (erasing : store.eraseInst bb ret = .ok erased)
    (pushing : erased.pushInstBack bb (.jumpInstr after) = .ok (jump, store')) :
    store'.nextInst = store.nextInst + 1 ∧
      (∀ key, store'.inputs key =
        if key = store.nextInst ∨ key = ret then [] else store.inputs key) ∧
      (∀ key, store'.kindOf key = if key = store.nextInst then some (.kJump after)
        else if key = ret then none else store.kindOf key) ∧
      (Ledger store → (∀ user, user ≠ ret → ret ∉ store.inputs user) → Ledger store') := by
  have erasedInputs := (eraseInst_operands erasing).1
  rcases eraseInst_eq_ok erasing with ⟨-, -, -, -, -, -, erasedNext, -⟩
  rcases pushInstBack_adds pushing with ⟨rfl, adds⟩
  rcases pushInstBack_shape pushing with ⟨-, type, typed, shape_eq⟩
  have nextInst : store'.nextInst = erased.nextInst + 1 := congrArg Shape.nextInst shape_eq
  have kinds : ∀ key, store'.kindOf key =
      if key = erased.nextInst then some (.kJump after) else erased.kindOf key := by
    intro key
    rw [kindOf_shape, shape_eq, kindOf_shape]
    by_cases isNew : key = erased.nextInst <;>
      simp [Shape.relink, Shape.place, Shape.setInst, Shape.setList, Construct.kind, isNew,
        Store.shape]
  refine ⟨by rw [nextInst, erasedNext], ?_, ?_, ?_⟩
  · intro key
    rw [adds.inputs, erasedInputs, erasedNext]
    by_cases isNew : key = store.nextInst
    · rw [if_pos isNew, if_pos (.inl isNew)]
      rfl
    · simp [isNew]
  · intro key
    rw [kinds, erasedNext, eraseInst_kindOf erasing]
  · intro ledger unused
    exact (ledger.eraseInst unused erasing).adds adds kinds nextInst

/-- The returns go, and jumps have no operands. -/
theorem replaceRets_operands (older : ∀ ret ∈ rets, ret < store.nextInst)
    (result : replaceRets after rets store = .ok store') :
    store.nextInst ≤ store'.nextInst ∧
      (∀ key, key < store.nextInst → key ∉ rets →
        store'.inputs key = store.inputs key ∧ store'.kindOf key = store.kindOf key) ∧
      (∀ key, store.nextInst ≤ key → key < store'.nextInst → store'.inputs key = []) ∧
      (Ledger store → (∀ ret ∈ rets, ∀ user, ret ∉ store.inputs user) → Ledger store') := by
  induction rets generalizing store with
  | nil =>
      cases result
      refine ⟨le_refl _, fun _ _ _ => ⟨rfl, rfl⟩, ?_, fun ledger _ => ledger⟩
      exact fun key above below => absurd below (Nat.not_lt_of_le above)
  | cons ret rest induction =>
      rcases Result.bind_eq_ok.mp result with ⟨inst, -, continued⟩
      rcases Result.bind_eq_ok.mp continued with ⟨bb, -, continued⟩
      rcases Result.bind_eq_ok.mp continued with ⟨erased, erasing, continued⟩
      rcases Result.bind_eq_ok.mp continued with ⟨⟨jump, next⟩, pushing, later⟩
      rw [List.forall_mem_cons] at older
      rcases replaceRet_operands erasing pushing with ⟨nextInst, inputs, kinds, ledgerNext⟩
      have olderRest : ∀ other ∈ rest, other < next.nextInst := by
        intro other member
        rw [nextInst]
        exact Nat.lt_succ_of_lt (older.2 other member)
      rcases induction olderRest later with ⟨grows, same, new, ledger'⟩
      rw [nextInst] at grows same new
      refine ⟨Nat.le_of_succ_le grows, ?_, ?_, ?_⟩
      · intro key below notRet
        rw [List.mem_cons, not_or] at notRet
        have isOld := Nat.ne_of_lt below
        rw [(same key (Nat.lt_succ_of_lt below) notRet.2).1,
          (same key (Nat.lt_succ_of_lt below) notRet.2).2, inputs, kinds, if_neg isOld,
          if_neg notRet.1, if_neg (not_or.mpr ⟨isOld, notRet.1⟩)]
        exact ⟨rfl, rfl⟩
      · intro key above below
        rcases Nat.eq_or_lt_of_le above with isNew | later
        · have notRest : key ∉ rest := fun member =>
            Nat.lt_irrefl _ (isNew ▸ older.2 key member)
          rw [(same key (isNew ▸ Nat.lt_succ_self _) notRest).1, inputs, if_pos (.inl isNew.symm)]
        · exact new key later below
      · intro ledger unread
        rw [List.forall_mem_cons] at unread
        apply ledger' (ledgerNext ledger fun user _ => unread.1 user)
        intro other member user
        rw [inputs]
        split_ifs
        · exact List.not_mem_nil
        · exact unread.2 other member user

end LeechJit.Opt.Inlining
