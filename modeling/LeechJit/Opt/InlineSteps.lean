import LeechJit.Graph.DfsOrder
import LeechJit.IR.Tidy
import LeechJit.Opt.Inlining

/-! # The steps of inlining one call

What each step does to the shape of the store, and that the store stays tidy.
-/

namespace LeechJit.Opt.Inlining

open IR Store

variable {store store' : Store} {func callee : FuncId} {bb after : BlockId} {call id : InstId}

/-! ## Splitting the block of the call -/

theorem nextInst_eq_ok {next : Option InstId} (result : nextInst store bb id = .ok next) :
    ∃ front back, store.instructions bb = front ++ id :: back ∧ id ∉ front ∧
      next = back.head? := by
  rcases Result.bind_eq_ok.mp result with ⟨block, found, continued⟩
  rw [instructions_eq (block_eq_ok.mp found)]
  cases rest : block.instructions.dropWhile (· ≠ id) with
  | nil =>
      rw [rest] at continued
      cases continued
  | cons head back =>
      rw [rest] at continued
      cases continued
      have isId : head = id := by
        have stops := List.head?_dropWhile_not (· ≠ id) block.instructions
        rw [rest] at stops
        simpa using stops
      subst isId
      refine ⟨block.instructions.takeWhile (· ≠ head), back, ?_, ?_, rfl⟩
      · rw [← rest, List.takeWhile_append_dropWhile]
      · intro member
        have passes := List.mem_takeWhile_imp member
        simp at passes

theorem takeWhile_next {front back : List InstId} (nodup : (front ++ id :: back).Nodup) :
    (front ++ id :: back).takeWhile (fun key => decide (some key ≠ back.head?)) = front ++ [id] := by
  have split : front ++ id :: back = (front ++ [id]) ++ back := by simp
  rw [split] at nodup ⊢
  have apart := (List.nodup_append.mp nodup).2.2
  rw [List.takeWhile_append_of_pos]
  · cases back with
    | nil => simp
    | cons head rest => simp
  · intro key member
    cases back with
    | nil => simp
    | cons head rest =>
        have different := apart key member head List.mem_cons_self
        simpa using different

theorem splitBBAfter_shape (tidy : store.Tidy)
    (result : splitBBAfter store func call = .ok (after, store')) :
    after = store.nextBlock ∧ ∃ function bb front back, store.functions func = some function ∧
      store.homeOf call = some (some bb) ∧ store.instructions bb = front ++ call :: back ∧
      store'.shape = (store.shape.addBB func function).splice after bb (front ++ [call]) back ∧
      store'.Tidy := by
  rcases Result.bind_eq_ok.mp result with ⟨⟨newBB, added⟩, adding, continued⟩
  rcases Result.bind_eq_ok.mp continued with ⟨inst, foundInst, continued⟩
  rcases Result.bind_eq_ok.mp continued with ⟨bb, home, continued⟩
  rcases Result.bind_eq_ok.mp continued with ⟨pivot, next, continued⟩
  rcases Result.bind_eq_ok.mp continued with ⟨spliced, splicing, equal⟩
  cases equal
  have fresh : store.blocks store.nextBlock = none := not_not.mp tidy.apart.fresh
  have settled := appendBB_settled tidy.settled adding
  rcases appendBB_shape fresh adding with ⟨rfl, function, found, shape_eq⟩
  have lists : added.instructions = store.instructions := congrArg Shape.lists shape_eq
  have homes : added.homeOf call = store.homeOf call := by
    rw [homeOf_shape, homeOf_shape, shape_eq]
    rfl
  have isHome : store.homeOf call = some (some bb) := by
    rw [← homes, homeOf_eq (inst_eq_ok.mp foundInst)]
    cases at' : inst.bb <;> simp [Inst.getBB, at'] at home ⊢
    exact home
  rcases nextInst_eq_ok next with ⟨front, back, split, -, rfl⟩
  have different : store.nextBlock ≠ bb := by
    rintro rfl
    rw [lists, instructions, fresh] at split
    simp at split
  rcases splice_shape different splicing with ⟨kept, moved, splits, isKept, -, spliced_eq⟩
  have nodup := settled.nodup bb
  rw [split] at nodup
  rw [split, takeWhile_next nodup] at isKept
  have isBack : moved = back := by
    rw [split, isKept] at splits
    simpa using splits.symm
  subst isBack isKept
  refine ⟨rfl, function, bb, front, moved, found, isHome, ?_, ?_, ?_⟩
  · rw [← lists, split]
  · rw [spliced_eq, shape_eq]
  · refine ⟨splice_settled settled splicing, ?_⟩
    rw [spliced_eq, shape_eq]
    exact (tidy.apart.addBB found).congr rfl rfl rfl

/-! ## Arguments for parameters -/

theorem setUsersFrom_tidy {this other : InstId} (tidy : store.Tidy)
    (result : store.setUsersFrom this other = .ok store') :
    store'.shape = store.shape ∧ store'.Tidy := by
  have relinked := SameHomes.setUsersFrom result
  have shape_eq := relinked.shape_eq
  exact ⟨shape_eq, (SameHomes.of_relinked relinked).settled tidy.settled, shape_eq ▸ tidy.apart⟩

theorem eraseInst_tidy (tidy : store.Tidy) (result : store.eraseInst bb id = .ok store') :
    store'.shape = store.shape.eraseInsts bb [id] ∧ store'.Tidy := by
  have shape_eq := (eraseInst_shape result).2
  refine ⟨shape_eq, (eraseInst_taken result).settled tidy.settled, ?_⟩
  rw [shape_eq]
  exact tidy.apart.congr rfl rfl rfl

theorem eraseInsts_nil (shape : Shape) (bb : BlockId) : shape.eraseInsts bb [] = shape := by
  simp [Shape.eraseInsts]

theorem eraseInsts_cons (shape : Shape) (bb : BlockId) (id : InstId) (ids : List InstId) :
    (shape.eraseInsts bb [id]).eraseInsts bb ids = shape.eraseInsts bb (id :: ids) := by
  simp only [Shape.eraseInsts, Shape.mk.injEq, and_true]
  refine ⟨?_, ?_⟩
  · funext key
    by_cases isId : key = id <;> simp [isId]
  · simp

/-- A prefix of the parameters is taken away. -/
theorem adjustParams_shape {idx : Nat} {params : List InstId} (tidy : store.Tidy)
    (result : adjustParams bb call idx params store = .ok store') :
    ∃ erased, erased <+: params ∧ store'.shape = store.shape.eraseInsts bb erased ∧
      store'.Tidy := by
  induction params generalizing idx store with
  | nil =>
      cases result
      exact ⟨[], List.nil_prefix, (eraseInsts_nil _ _).symm, tidy⟩
  | cons param params induction =>
      rcases Result.bind_eq_ok.mp result with ⟨inst, -, continued⟩
      cases operand : inst.inputs[idx]? with
      | none =>
          rw [operand] at continued
          cases continued
          exact ⟨[], List.nil_prefix, (eraseInsts_nil _ _).symm, tidy⟩
      | some input =>
          rw [operand] at continued
          rcases Result.bind_eq_ok.mp continued with ⟨moved, moving, continued⟩
          rcases Result.bind_eq_ok.mp continued with ⟨smaller, erasing, later⟩
          rcases setUsersFrom_tidy tidy moving with ⟨movedShape, movedTidy⟩
          rcases eraseInst_tidy movedTidy erasing with ⟨smallerShape, smallerTidy⟩
          rcases induction smallerTidy later with ⟨erased, isPrefix, shape_eq, tidy'⟩
          refine ⟨param :: erased, (List.prefix_cons_inj param).mpr isPrefix, ?_, tidy'⟩
          rw [shape_eq, smallerShape, movedShape, eraseInsts_cons]

theorem isParam_eq_true {holds : Bool} (result : isParam store id = .ok holds) :
    holds = true ↔ ∃ idx, store.kindOf id = some (.kParam idx) := by
  rcases Result.bind_eq_ok.mp result with ⟨inst, found, continued⟩
  rw [kindOf_eq (inst_eq_ok.mp found)]
  cases kind : inst.kind <;> rw [kind] at continued <;> cases continued <;> simp

theorem rootBB_eq_ok (result : rootBB store func = .ok bb) :
    ∃ function rest, store.functions func = some function ∧ function.bbs = bb :: rest := by
  rcases Result.bind_eq_ok.mp result with ⟨function, found, continued⟩
  rcases Result.bind_eq_ok.mp continued with ⟨graph, making, equal⟩
  cases equal
  cases blocks : function.bbs with
  | nil => simp [makeBBGraph, blocks] at making
  | cons root rest =>
      simp only [makeBBGraph, blocks] at making
      cases making
      exact ⟨function, rest, function_eq_ok.mp found, blocks⟩

theorem adjustInputs_shape (tidy : store.Tidy)
    (result : adjustInputs store call callee = .ok store') :
    ∃ function first rest params, store.functions callee = some function ∧
      function.bbs = first :: rest ∧ params.Sublist (store.instructions first) ∧
      (∀ param ∈ params, ∃ idx, store.kindOf param = some (.kParam idx)) ∧
      store'.shape = store.shape.eraseInsts first params ∧ store'.Tidy := by
  rcases Result.bind_eq_ok.mp result with ⟨first, rooted, continued⟩
  rcases Result.bind_eq_ok.mp continued with ⟨block, found, continued⟩
  rcases Result.bind_eq_ok.mp continued with ⟨params, copying, adjusting⟩
  rcases rootBB_eq_ok rooted with ⟨function, rest, foundFunction, blocks⟩
  rcases copyIf_eq_ok copying with ⟨rfl, decided⟩
  rcases adjustParams_shape tidy adjusting with ⟨erased, isPrefix, shape_eq, tidy'⟩
  have here := instructions_eq (block_eq_ok.mp found)
  refine ⟨function, first, rest, erased, foundFunction, blocks, ?_, ?_, shape_eq, tidy'⟩
  · rw [here]
    exact isPrefix.sublist.trans List.filter_sublist
  · intro param member
    have chosen := List.mem_filter.mp (isPrefix.subset member)
    rcases decided param chosen.1 with ⟨holds, answered⟩
    apply (isParam_eq_true answered).mp
    simpa [answered, answer] using chosen.2

/-! ## One return for many -/

/-- The return a block ends in. -/
def retOf (store : Store) (bb : BlockId) : Option InstId :=
  (store.instructions bb).getLast?.filter fun last => store.kindOf last = some .kRet

theorem retOf_eq_some : retOf store bb = some id ↔
    (store.instructions bb).getLast? = some id ∧ store.kindOf id = some .kRet := by
  simp [retOf, Option.filter_eq_some_iff]

theorem collectRets_eq_ok {bbs : List BlockId} {rets : List InstId}
    (result : collectRets store bbs = .ok rets) :
    rets = bbs.filterMap (retOf store) ∧ ∀ bb ∈ bbs, store.instructions bb ≠ [] := by
  induction bbs generalizing rets with
  | nil =>
      cases result
      simp
  | cons bb rest induction =>
      rcases Result.bind_eq_ok.mp result with ⟨block, found, continued⟩
      have here := instructions_eq (block_eq_ok.mp found)
      cases atEnd : block.instructions.getLast? with
      | none =>
          rw [atEnd] at continued
          cases continued
      | some last =>
          rw [atEnd] at continued
          rcases Result.bind_eq_ok.mp continued with ⟨inst, foundInst, continued⟩
          rcases Result.bind_eq_ok.mp continued with ⟨later, collecting, equal⟩
          cases equal
          rcases induction collecting with ⟨rfl, nonempty⟩
          have kind := kindOf_eq (inst_eq_ok.mp foundInst)
          constructor
          · rw [List.filterMap_cons, retOf, here, atEnd]
            by_cases isRet : inst.kind = .kRet <;> simp [Option.filter, kind, isRet]
          · intro other member
            cases member with
            | head =>
                rw [here]
                rintro isEmpty
                simp [isEmpty] at atEnd
            | tail _ inRest => exact nonempty other inRest

/-- The operands a phi gets from the returns. -/
theorem addRets_shape {phi : InstId} {rets : List InstId} {inst : Inst} {vars : List PhiEntry}
    (tidy : store.Tidy) (found : store.shape.insts phi = some inst) (kind : inst.kind = .kPhi vars)
    (notRet : phi ∉ rets) (result : addRets phi rets store = .ok store') :
    ∃ added, rets.map store.homeOf = added.map (fun entry => some (some entry.bb)) ∧
      store'.shape = store.shape.setInst phi (some { inst with kind := .kPhi (vars ++ added) }) ∧
      store'.Tidy := by
  induction rets generalizing store inst vars with
  | nil =>
      cases result
      refine ⟨[], rfl, ?_, tidy⟩
      rw [List.append_nil, ← kind, ← found]
      simp [Shape.setInst]
  | cons ret rest induction =>
      rcases Result.bind_eq_ok.mp result with ⟨retInst, foundRet, continued⟩
      rcases Result.bind_eq_ok.mp continued with ⟨val, -, continued⟩
      rcases Result.bind_eq_ok.mp continued with ⟨bb, home, continued⟩
      rcases Result.bind_eq_ok.mp continued with ⟨next, adding, later⟩
      rcases addNode_shape adding with ⟨again, vars', foundAgain, kind', next_eq⟩
      cases Option.some.inj (found.symm.trans foundAgain)
      cases kind.symm.trans kind'
      have same := addNode_sameHomes adding
      have nextTidy : next.Tidy := by
        refine ⟨same.settled tidy.settled, ?_⟩
        rw [next_eq]
        exact tidy.apart.congr rfl rfl rfl
      have there : next.shape.insts phi = some { inst with kind := .kPhi (vars ++ [⟨val, bb⟩]) } := by
        rw [next_eq]
        simp [Shape.setInst]
      rcases induction nextTidy there rfl (List.not_mem_of_not_mem_cons notRet) later with
        ⟨added, homes, shape_eq, tidy'⟩
      have isHome : store.homeOf ret = some (some bb) := by
        rw [homeOf_eq (inst_eq_ok.mp foundRet)]
        cases at' : retInst.bb <;> simp [Inst.getBB, at'] at home ⊢
        exact home
      refine ⟨⟨val, bb⟩ :: added, ?_, ?_, tidy'⟩
      · have others : rest.map store.homeOf = rest.map next.homeOf :=
          List.map_congr_left fun key _ => (same.homes key).symm
        rw [List.map_cons, isHome, others, homes, List.map_cons]
      · rw [shape_eq, next_eq]
        simp [Shape.setInst]

/-- A new phi merges the returned values. -/
theorem mergePhi_shape {resType : ValueType} {rets : List InstId} {phi : InstId}
    {pushed filled : Store} (tidy : store.Tidy) (older : ∀ ret ∈ rets, ret ≠ store.nextInst)
    (pushing : store.pushInstFront after (.phi resType) = .ok (phi, pushed))
    (adding : addRets phi rets pushed = .ok filled)
    (moving : filled.setUsersFrom phi call = .ok store') :
    store'.Tidy ∧ ∃ vars : List PhiEntry,
      rets.map store.homeOf = vars.map (fun entry => some (some entry.bb)) ∧
      store'.shape = store.shape.place after (store.nextInst :: store.instructions after) resType
        (.kPhi vars) := by
  rcases pushInstFront_shape pushing with ⟨rfl, type, typed, pushed_eq⟩
  cases typed
  have pushedTidy : pushed.Tidy := by
    refine ⟨pushInstFront_settled tidy.settled pushing, ?_⟩
    rw [pushed_eq]
    exact tidy.apart.congr rfl rfl rfl
  have there : pushed.shape.insts store.nextInst =
      some { type := resType, kind := .kPhi [], bb := some after } := by
    rw [pushed_eq]
    simp [Shape.place, Shape.setInst, Shape.setList, Construct.kind, shape]
  have notRet : store.nextInst ∉ rets := fun member => older _ member rfl
  rcases addRets_shape pushedTidy there rfl notRet adding with ⟨vars, homes, filled_eq, filledTidy⟩
  rcases setUsersFrom_tidy filledTidy moving with ⟨shape_eq, tidy'⟩
  refine ⟨tidy', vars, ?_, ?_⟩
  · rw [← homes]
    apply List.map_congr_left
    intro ret member
    have notNew : ret ≠ store.shape.nextInst := older ret member
    rw [homeOf_shape, homeOf_shape, pushed_eq]
    simp [Shape.place, Shape.setInst, Shape.setList, notNew]
  · rw [shape_eq, filled_eq, pushed_eq]
    simp [Shape.place, Shape.setInst, Shape.setList, shape]

theorem mergeRets_shape {resType : ValueType} {rets : List InstId} (tidy : store.Tidy)
    (stored : ∀ ret ∈ rets, store.homeOf ret ≠ none)
    (result : mergeRets store call resType after rets = .ok store') :
    store'.Tidy ∧ (rets.length = 1 ∧ store'.shape = store.shape ∨
      rets.length ≠ 1 ∧ ∃ vars : List PhiEntry,
        rets.map store.homeOf = vars.map (fun entry => some (some entry.bb)) ∧
        store'.shape = store.shape.place after (store.nextInst :: store.instructions after) resType
          (.kPhi vars)) := by
  -- a return is not the phi, which is new
  have older : ∀ ret ∈ rets, ret ≠ store.nextInst := fun ret member =>
    Nat.ne_of_lt (tidy.settled.allocated ret (stored ret member))
  cases rets with
  | nil =>
      rcases Result.bind_eq_ok.mp result with ⟨⟨phi, pushed⟩, pushing, continued⟩
      rcases Result.bind_eq_ok.mp continued with ⟨filled, adding, moving⟩
      rcases mergePhi_shape tidy older pushing adding moving with ⟨tidy', vars, homes, shape_eq⟩
      exact ⟨tidy', .inr ⟨by simp, vars, homes, shape_eq⟩⟩
  | cons ret rest =>
      cases rest with
      | nil =>
          rcases Result.bind_eq_ok.mp result with ⟨inst, -, continued⟩
          rcases Result.bind_eq_ok.mp continued with ⟨val, -, moving⟩
          rcases setUsersFrom_tidy tidy moving with ⟨shape_eq, tidy'⟩
          exact ⟨tidy', .inl ⟨rfl, shape_eq⟩⟩
      | cons other rest =>
          rcases Result.bind_eq_ok.mp result with ⟨⟨phi, pushed⟩, pushing, continued⟩
          rcases Result.bind_eq_ok.mp continued with ⟨filled, adding, moving⟩
          rcases mergePhi_shape tidy older pushing adding moving with ⟨tidy', vars, homes, shape_eq⟩
          exact ⟨tidy', .inr ⟨by simp, vars, homes, shape_eq⟩⟩

/-- Each of the returns has given way to a jump to block `after`. -/
structure Returned (after : BlockId) (rets : List InstId) (shape shape' : Shape) : Prop where
  replaced : ∀ ret ∈ rets, ∃ inst bb jump, shape.insts ret = some inst ∧ inst.bb = some bb ∧
    ret ∈ shape.lists bb ∧ shape.nextInst ≤ jump ∧
    shape'.lists bb = (shape.lists bb).erase ret ++ [jump] ∧
    shape'.insts jump = some { kind := .kJump after, bb := some bb } ∧ shape'.succs bb = [after] ∧
    ∀ succ ∈ shape.succs bb, shape.present succ
  others : ∀ bb, (∀ ret ∈ rets, (shape.insts ret).map Inst.bb ≠ some (some bb)) →
    shape'.lists bb = shape.lists bb ∧ shape'.succs bb = shape.succs bb
  insts : ∀ id, id < shape.nextInst →
    shape'.insts id = if id ∈ rets then none else shape.insts id
  excess : shape'.excess = shape.excess
  present : shape'.present = shape.present
  functions : shape'.functions = shape.functions
  nextBlock : shape'.nextBlock = shape.nextBlock
  nextInst : shape.nextInst ≤ shape'.nextInst

/-- One return gives way to a jump. -/
def jumpShape (shape : Shape) (after bb : BlockId) (ret : InstId) : Shape :=
  ((shape.eraseInsts bb [ret]).place bb ((shape.lists bb).erase ret ++ [shape.nextInst]) .None
    (.kJump after)).relink bb

theorem jumpShape_succs (shape : Shape) (after bb : BlockId) (ret : InstId) (key : BlockId) :
    (jumpShape shape after bb ret).succs key = if key = bb then [after] else shape.succs key := by
  by_cases same : key = bb <;>
    simp [jumpShape, Shape.relink, Shape.place, Shape.setList, Shape.setInst, Shape.eraseInsts, same,
      Shape.lastTargets, Shape.targetsOf, InstKind.targets]

theorem jumpShape_lists (shape : Shape) (after bb : BlockId) (ret : InstId) (key : BlockId) :
    (jumpShape shape after bb ret).lists key =
      if key = bb then (shape.lists bb).erase ret ++ [shape.nextInst] else shape.lists key := by
  by_cases same : key = bb <;>
    simp [jumpShape, Shape.relink, Shape.place, Shape.setList, Shape.setInst, Shape.eraseInsts, same]

theorem jumpShape_insts (shape : Shape) (after bb : BlockId) (ret id : InstId) :
    (jumpShape shape after bb ret).insts id =
      if id = shape.nextInst then some { kind := .kJump after, bb := some bb }
      else if id = ret then none else shape.insts id := by
  by_cases same : id = shape.nextInst <;>
    simp [jumpShape, Shape.relink, Shape.place, Shape.setList, Shape.setInst, Shape.eraseInsts, same]

theorem replaceRets_shape {rets : List InstId} (tidy : store.Tidy)
    (stored : ∀ ret ∈ rets, store.homeOf ret ≠ none)
    (apart : rets.Pairwise fun ret other => store.homeOf ret ≠ store.homeOf other)
    (result : replaceRets after rets store = .ok store') :
    store'.Tidy ∧ Returned after rets store.shape store'.shape := by
  induction rets generalizing store with
  | nil =>
      cases result
      refine ⟨tidy, ?_⟩
      constructor <;> simp
  | cons ret rest induction =>
      rcases Result.bind_eq_ok.mp result with ⟨inst, found, continued⟩
      rcases Result.bind_eq_ok.mp continued with ⟨bb, home, continued⟩
      rcases Result.bind_eq_ok.mp continued with ⟨erased, erasing, continued⟩
      rcases Result.bind_eq_ok.mp continued with ⟨⟨key, next⟩, pushing, later⟩
      rw [inst_eq_ok] at found
      have isHome : inst.bb = some bb := by
        cases at' : inst.bb <;> simp [Inst.getBB, at'] at home ⊢
        exact home
      rcases eraseInst_tidy tidy erasing with ⟨erased_eq, erasedTidy⟩
      rcases pushInstBack_shape pushing with ⟨isNew, type, typed, pushed_eq⟩
      cases typed
      have next_eq : next.shape = jumpShape store.shape after bb ret := by
        have lists := congrArg Shape.lists erased_eq
        have here : erased.instructions bb = (store.shape.lists bb).erase ret := by
          refine (congrFun lists bb).trans ?_
          simp [Shape.eraseInsts]
        have nextInst : erased.nextInst = store.shape.nextInst := congrArg Shape.nextInst erased_eq
        rw [pushed_eq, erased_eq, here, isNew, nextInst]
        rfl
      have nextTidy : next.Tidy := by
        refine ⟨pushInstBack_settled erasedTidy.settled pushing, ?_⟩
        rw [next_eq]
        exact tidy.apart.congr rfl rfl rfl
      have lists := jumpShape_lists store.shape after bb ret
      have succs := jumpShape_succs store.shape after bb ret
      have insts := jumpShape_insts store.shape after bb ret
      have parts := List.pairwise_cons.mp apart
      have notRet : ∀ other ∈ rest, other ≠ ret := by
        rintro other member rfl
        exact parts.1 other member rfl
      have older : ∀ other ∈ rest, other ≠ store.shape.nextInst := fun other member =>
        Nat.ne_of_lt (tidy.settled.allocated other (stored other (List.mem_cons_of_mem _ member)))
      have kept : ∀ other ∈ rest, next.shape.insts other = store.shape.insts other := by
        intro other member
        rw [next_eq, insts, if_neg (older other member), if_neg (notRet other member)]
      have homes : ∀ other ∈ rest, next.homeOf other = store.homeOf other := by
        intro other member
        rw [homeOf_shape, homeOf_shape, kept other member]
      rcases induction nextTidy (fun other member => homes other member ▸
          stored other (List.mem_cons_of_mem _ member))
        (parts.2.imp_of_mem fun first second different => by
          rwa [homes _ first, homes _ second]) later with ⟨tidy', returned⟩
      have nextInst : next.shape.nextInst = store.shape.nextInst + 1 := by
        rw [next_eq]
        rfl
      have retHome : store.homeOf ret = some (some bb) := by
        rw [homeOf_eq found, isHome]
      -- the later rounds leave this block alone
      have elsewhere : ∀ other ∈ rest, (next.shape.insts other).map Inst.bb ≠ some (some bb) := by
        intro other member
        rw [← homeOf_shape, homes other member, ← retHome]
        exact (parts.1 other member).symm
      rcases returned.others bb elsewhere with ⟨listsAfter, succsAfter⟩
      refine ⟨tidy', ?_⟩
      constructor
      case replaced =>
        intro other member
        cases member with
        | head =>
            refine ⟨inst.bare, bb, store.shape.nextInst, by simp [shape, found], isHome,
              (eraseInst_shape erasing).1, le_rfl, ?_, ?_, ?_, ?_⟩
            · rw [listsAfter, next_eq, lists, if_pos rfl]
            · have notRest : store.shape.nextInst ∉ rest := fun member => older _ member rfl
              rw [returned.insts _ (by rw [nextInst]; exact Nat.lt_succ_self _), if_neg notRest,
                next_eq, insts, if_pos rfl]
            · rw [succsAfter, next_eq, succs, if_pos rfl]
            · have sameSuccs := congrArg Shape.succs erased_eq
              have present := congrArg Shape.present erased_eq
              intro succ member
              rw [← show _ = store.shape.succs bb from congrFun sameSuccs bb] at member
              exact (congrFun present succ).mp (pushInstBack_succs pushing succ member)
        | tail _ inRest =>
            rcases returned.replaced other inRest with
              ⟨otherInst, otherBB, jump, foundOther, otherHome, inBlock, new, placed, jumps, leads,
                existed⟩
            have different : otherBB ≠ bb := by
              rintro rfl
              apply elsewhere other inRest
              rw [foundOther, Option.map_some, otherHome]
            rw [next_eq, lists, if_neg different] at inBlock placed
            refine ⟨otherInst, otherBB, jump, kept other inRest ▸ foundOther, otherHome, inBlock, ?_,
              placed, jumps, leads, ?_⟩
            · rw [nextInst] at new
              exact Nat.le_of_succ_le new
            · rw [next_eq, succs, if_neg different] at existed
              exact existed
      case others =>
        intro other away
        have different : other ≠ bb := by
          rintro rfl
          apply away ret List.mem_cons_self
          rw [← homeOf_shape, retHome]
        rcases returned.others other (fun ret member => by
          rw [kept ret member]
          exact away ret (List.mem_cons_of_mem _ member)) with ⟨otherLists, otherSuccs⟩
        rw [otherLists, otherSuccs, next_eq, lists, succs, if_neg different, if_neg different]
        exact ⟨rfl, rfl⟩
      case insts =>
        intro id below
        have notNew : id ≠ store.shape.nextInst := Nat.ne_of_lt below
        rw [returned.insts id (by rw [nextInst]; exact Nat.lt_succ_of_lt below), next_eq, insts,
          if_neg notNew]
        by_cases isRet : id = ret
        · simp [isRet]
        · simp [isRet]
      case excess => rw [returned.excess, next_eq]; rfl
      case present => rw [returned.present, next_eq]; rfl
      case functions => rw [returned.functions, next_eq]; rfl
      case nextBlock => rw [returned.nextBlock, next_eq]; rfl
      case nextInst =>
        apply Nat.le_trans _ returned.nextInst
        rw [nextInst]
        exact Nat.le_succ _

theorem knowsBlocks_retOf (tidy : store.Tidy) (isRet : retOf store bb = some id) :
    store.homeOf id = some (some bb) :=
  tidy.settled.knows bb id (List.mem_of_getLast? (retOf_eq_some.mp isRet).1)

/-- Blocks have returns of their own. -/
theorem rets_apart (tidy : store.Tidy) {order : List BlockId} (nodup : order.Nodup) :
    (order.filterMap (retOf store)).Pairwise fun ret other =>
      store.homeOf ret ≠ store.homeOf other := by
  rw [List.pairwise_filterMap]
  apply nodup.imp
  intro bb other different ret isRet otherRet isOther equal
  rw [knowsBlocks_retOf tidy isRet, knowsBlocks_retOf tidy isOther] at equal
  exact different (Option.some.inj (Option.some.inj equal))

/-- The shape when the users of the call have been given something else to use. -/
def Merged (store : Store) (resType : ValueType) (after : BlockId) (rets : List InstId)
    (shape : Shape) : Prop :=
  rets.length = 1 ∧ shape = store.shape ∨
    rets.length ≠ 1 ∧ ∃ vars : List PhiEntry,
      rets.map store.homeOf = vars.map (fun entry => some (some entry.bb)) ∧
      shape = store.shape.place after (store.nextInst :: store.instructions after) resType (.kPhi vars)

theorem Merged.insts {resType : ValueType} {rets : List InstId} {shape : Shape}
    (merged : Merged store resType after rets shape) (below : id < store.nextInst) :
    shape.insts id = store.shape.insts id := by
  rcases merged with ⟨-, rfl⟩ | ⟨-, vars, -, rfl⟩
  · rfl
  · have older : id ≠ store.shape.nextInst := Nat.ne_of_lt below
    simp [Shape.place, Shape.setInst, Shape.setList, older]

theorem adjustOutputs_shape {function : Function} (tidy : store.Tidy)
    (found : store.functions callee = some function) (value : function.resType ≠ .None)
    (result : adjustOutputs store call callee after = .ok store') :
    ∃ order rets middle, order = (store.cfg function).depthFirstSearchPreOrder ∧
      rets = order.filterMap (retOf store) ∧ (∀ bb ∈ order, store.instructions bb ≠ []) ∧
      Merged store function.resType after rets middle ∧ Returned after rets middle store'.shape ∧
      store'.Tidy := by
  rcases Result.bind_eq_ok.mp result with ⟨again, foundAgain, continued⟩
  cases Option.some.inj (found.symm.trans (function_eq_ok.mp foundAgain))
  rw [if_neg value] at continued
  rcases Result.bind_eq_ok.mp continued with ⟨graph, making, continued⟩
  rcases Result.bind_eq_ok.mp continued with ⟨rets, collecting, continued⟩
  rcases Result.bind_eq_ok.mp continued with ⟨merged, merging, replacing⟩
  have isGraph : graph = store.cfg function := by
    have nonempty : function.bbs ≠ [] := by
      intro isEmpty
      simp [makeBBGraph, isEmpty] at making
    rw [makeBBGraph_eq nonempty] at making
    cases making
    rfl
  subst isGraph
  rcases collectRets_eq_ok collecting with ⟨isRets, nonempty⟩
  have stored : ∀ ret ∈ rets, store.homeOf ret ≠ none := by
    intro ret member
    rw [isRets, List.mem_filterMap] at member
    rcases member with ⟨bb, -, isRet⟩
    rw [knowsBlocks_retOf tidy isRet]
    simp
  rcases mergeRets_shape tidy stored merging with ⟨mergedTidy, isMerged⟩
  have isMerged : Merged store function.resType after rets merged.shape := isMerged
  have homes : ∀ ret ∈ rets, merged.homeOf ret = store.homeOf ret := by
    intro ret member
    rw [homeOf_shape, homeOf_shape, isMerged.insts (tidy.settled.allocated ret (stored ret member))]
  have apart : rets.Pairwise fun ret other => merged.homeOf ret ≠ merged.homeOf other := by
    have before := rets_apart tidy (store.cfg function).preOrder_nodup
    rw [← isRets] at before
    apply before.imp_of_mem
    intro ret other first second different
    rwa [homes ret first, homes other second]
  rcases replaceRets_shape mergedTidy (fun ret member => homes ret member ▸ stored ret member) apart
    replacing with ⟨tidy', returned⟩
  exact ⟨_, rets, merged.shape, rfl, isRets, nonempty, isMerged, returned, tidy'⟩

/-! ## Joining the blocks -/

theorem spliceAll_shape {other : BlockId} (different : bb ≠ other)
    (result : store.spliceAll bb none other = .ok store') :
    store'.shape = store.shape.splice bb other [] (store.instructions other) ∧
      store'.instructions other = [] := by
  rcases Result.bind_eq_ok.mp result with ⟨source, foundSource, moving⟩
  have here := instructions_eq (block_eq_ok.mp foundSource)
  rcases splice_shape different moving with ⟨front, moved, split, isFront, -, spliced_eq⟩
  have empty : front = [] := by
    rw [isFront, here]
    cases source.instructions <;> simp
  subst empty
  rw [List.nil_append] at split
  subst split
  refine ⟨spliced_eq, ?_⟩
  have lists := congrFun (congrArg Shape.lists spliced_eq) other
  refine lists.trans ?_
  simp [Shape.splice, Shape.relink, Shape.setList, different.symm]

theorem absorbFirstBB_shape {function : Function} {first : BlockId} {rest : List BlockId}
    (tidy : store.Tidy) (found : store.functions callee = some function)
    (blocks : function.bbs = first :: rest) (different : bb ≠ first)
    (result : absorbFirstBB store bb callee = .ok store') :
    store'.shape = ((store.shape.splice bb first [] (store.instructions first)).dropBB
      first).setFunction callee { function with bbs := rest } ∧ store'.Tidy := by
  rcases Result.bind_eq_ok.mp result with ⟨again, rooted, continued⟩
  rcases Result.bind_eq_ok.mp continued with ⟨spliced, splicing, erasing⟩
  rcases rootBB_eq_ok rooted with ⟨other, others, foundOther, otherBlocks⟩
  cases Option.some.inj (found.symm.trans foundOther)
  cases blocks.symm.trans otherBlocks
  rcases spliceAll_shape different splicing with ⟨spliced_eq, emptied⟩
  rcases Result.bind_eq_ok.mp splicing with ⟨source, -, moving⟩
  have splicedTidy : spliced.Tidy := by
    refine ⟨splice_settled tidy.settled moving, ?_⟩
    rw [spliced_eq]
    exact tidy.apart.congr rfl rfl rfl
  rcases eraseBB_shape erasing with ⟨-, again, foundAgain, member, shape_eq⟩
  have same : spliced.functions callee = store.functions callee :=
    congrFun (congrArg Shape.functions spliced_eq) callee
  cases Option.some.inj (found.symm.trans (same.symm.trans foundAgain))
  have erased : function.bbs.erase first = rest := by
    rw [blocks, List.erase_cons_head]
  have shape_eq' := shape_eq
  rw [erased, spliced_eq] at shape_eq'
  refine ⟨shape_eq', ?_, ?_⟩
  · have insts : store'.shape.insts = spliced.shape.insts := by
      rw [shape_eq]
      funext key
      have noKey : key ∉ spliced.shape.lists first := by
        rw [show spliced.shape.lists first = [] from emptied]
        exact List.not_mem_nil
      simp [Shape.dropBB, Shape.setFunction, noKey]
    have homes : ∀ key, store'.homeOf key = spliced.homeOf key := by
      intro key
      rw [homeOf_shape, homeOf_shape, insts]
    apply splicedTidy.settled.sublists
    · intro key id _
      exact homes id
    · intro key
      have lists := congrFun (congrArg Shape.lists shape_eq) key
      rw [show store'.instructions key = store'.shape.lists key from rfl, lists]
      simp only [Shape.dropBB, Shape.setFunction, Function.update_apply]
      split_ifs
      · exact List.nil_sublist _
      · exact .refl _
    · intro key present
      rw [homes] at present
      have nextInst : store'.nextInst = spliced.nextInst := congrArg Shape.nextInst shape_eq
      rw [nextInst]
      exact splicedTidy.settled.allocated key present
  · rw [shape_eq]
    exact splicedTidy.apart.dropBB foundAgain member

end LeechJit.Opt.Inlining
