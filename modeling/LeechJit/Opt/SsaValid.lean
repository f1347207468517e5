import LeechJit.Opt.UsersExact

/-! # Definitions and uses under peephole rewriting

A rule that removes an operation hands its users an operand of it, which is
defined earlier still. Merging two shifts puts the sum of the amounts where the
first shift was, and the second amount need not be defined there.
-/

namespace LeechJit.IR.Store

variable {store store' : Store} {func : Function}

/-- The definition of each operand strictly dominates its use; an operand of a phi is
used at the end of the predecessor its entry names. -/
structure ValidSSA (store : Store) (func : Function) : Prop where
  uses : ∀ bb ∈ func.bbs, ∀ front id back, store.instructions bb = front ++ id :: back →
    ∀ inst, store.insts id = some inst → inst.kind.isPhi = false →
    ∀ input ∈ inst.inputs, store.DefinedBefore func input bb front
  phiUses : ∀ bb ∈ func.bbs, ∀ id ∈ store.instructions bb, ∀ inst vars,
    store.insts id = some inst → inst.kind = .kPhi vars →
    ∀ value entry, (value, entry) ∈ inst.inputs.zip vars → store.DefinedAtEnd func value entry.bb

theorem validSSA_iff : store.ValidSSA func ↔ store.UsesDefined func Set.univ := by
  constructor
  · intro valid
    exact ⟨fun bb bbMem front id back split inst found notPhi input isInput _ =>
        valid.uses bb bbMem front id back split inst found notPhi input isInput,
      fun bb bbMem id inBlock inst vars found isPhi value entry matched _ =>
        valid.phiUses bb bbMem id inBlock inst vars found isPhi value entry matched⟩
  · intro defined
    exact ⟨fun bb bbMem front id back split inst found notPhi input isInput =>
        defined.uses bb bbMem front id back split inst found notPhi input isInput trivial,
      fun bb bbMem id inBlock inst vars found isPhi value entry matched =>
        defined.phiUses bb bbMem id inBlock inst vars found isPhi value entry matched trivial⟩

theorem WellFormed.validSSA (wellFormed : store.WellFormed func) : store.ValidSSA func :=
  validSSA_iff.mpr (wellFormed.usesDefined Set.univ)

/-! ## Positions after a rewrite -/

section Positions

variable {old : InstId} {new : Option InstKind} {operands : InstId → List InstId}
  {bb : BlockId} {value : InstId}

/-- What stands in the rest of a list stood in the list. -/
theorem remaining_split {ids front' back' : List InstId} {id : InstId}
    (split : store.remaining old new ids = front' ++ id :: back') :
    ∃ front key back, ids = front ++ key :: back ∧ store.remaining old new front = front' ∧
      ((key ≠ old ∧ id = key) ∨ (key = old ∧ new.isSome ∧ id = store.nextInst)) := by
  unfold remaining at split
  by_cases isSome : new.isSome = true
  · rw [if_pos isSome, List.map_eq_append_iff] at split
    rcases split with ⟨front, rest, rfl, isFront, isRest⟩
    rcases List.map_eq_cons_iff.mp isRest with ⟨key, back, rfl, image, -⟩
    refine ⟨front, key, back, rfl, by rw [remaining, if_pos isSome, isFront], ?_⟩
    by_cases isOld : key = old
    · rw [redirect, if_pos isOld] at image
      exact .inr ⟨isOld, isSome, image.symm⟩
    · rw [redirect, if_neg isOld] at image
      exact .inl ⟨isOld, image.symm⟩
  · rw [if_neg isSome, List.filter_eq_append_iff] at split
    rcases split with ⟨front, rest, rfl, isFront, isRest⟩
    rcases List.filter_eq_cons_iff.mp isRest with ⟨skipped, back, rfl, dropped, stays, -⟩
    refine ⟨front ++ skipped, id, back, by simp, ?_, .inl ⟨by simpa using stays, rfl⟩⟩
    rw [remaining, if_neg isSome, List.filter_append, isFront]
    rw [List.filter_eq_nil_iff.mpr dropped, List.append_nil]

theorem Rewritten.blockDominates (rewritten : store.Rewritten { id | id ∈ store.listed func } old
    new operands store') (dom : BlockId) :
    store'.BlockDominates func dom bb ↔ store.BlockDominates func dom bb := by
  rw [BlockDominates, BlockDominates, rewritten.cfg_eq]

namespace Housed

variable (housed : store.Housed func)
  (rewritten : store.Rewritten { id | id ∈ store.listed func } old new operands store')

include housed rewritten

theorem definedBefore_iff {front : List InstId} (notOld : value ≠ old)
    (notNew : ¬ (new.isSome ∧ value = store.nextInst)) :
    store'.DefinedBefore func value bb (store.remaining old new front) ↔
      store.DefinedBefore func value bb front := by
  rw [DefinedBefore, DefinedBefore, mem_remaining_of_ne notOld notNew]
  apply or_congr_right
  apply exists_congr
  intro dom
  apply and_congr_right
  intro domMem
  rw [housed.instructions_eq rewritten domMem, mem_remaining_of_ne notOld notNew,
    rewritten.blockDominates]

theorem definedAtEnd_iff (notOld : value ≠ old)
    (notNew : ¬ (new.isSome ∧ value = store.nextInst)) :
    store'.DefinedAtEnd func value bb ↔ store.DefinedAtEnd func value bb := by
  rw [DefinedAtEnd, DefinedAtEnd]
  apply exists_congr
  intro dom
  apply and_congr_right
  intro domMem
  rw [housed.instructions_eq rewritten domMem, mem_remaining_of_ne notOld notNew,
    rewritten.blockDominates]

/-- The new instruction is defined where the old one was. -/
theorem definedBefore_new {front : List InstId} (isSome : new.isSome = true)
    (defined : store.DefinedBefore func old bb front) :
    store'.DefinedBefore func store.nextInst bb (store.remaining old new front) := by
  have image : ∀ ids, old ∈ ids → store.nextInst ∈ store.remaining old new ids := fun ids member =>
    (mem_remaining member).mpr (.inr ⟨isSome, rfl⟩)
  rcases defined with inFront | ⟨dom, domMem, inDom, different, dominates⟩
  · exact .inl (image front inFront)
  · refine .inr ⟨dom, domMem, ?_, different, (rewritten.blockDominates dom).mpr dominates⟩
    rw [housed.instructions_eq rewritten domMem]
    exact image _ inDom

end Housed

end Positions

end LeechJit.IR.Store

namespace LeechJit.Opt

open IR Store

/-! ## One round -/

/-- Where a round merges two shifts, the amount of the second is defined before the first. -/
def Round.AmountReady (func : Function) (round : Round) : Prop :=
  ∀ fstShr rval, PeepHole.merges round.store round.id = some (fstShr, rval) →
    ∀ bb ∈ func.bbs, ∀ front back, round.store.instructions bb = front ++ fstShr :: back →
      round.store.DefinedBefore func rval bb front

namespace PeepHole

variable {store store' : Store} {id value : InstId} {func : Function} {needed : Set InstId}

/-- What has to be seen of the operands after a rewrite. -/
theorem usesDefined_of_rewritten {old : InstId} {new : Option InstKind}
    {operands : InstId → List InstId} (housed : store.Housed func)
    (rewritten : store.Rewritten { id | id ∈ store.listed func } old new operands store')
    (notPhi : ∀ kind, new = some kind → kind.isPhi = false)
    (stays : ∀ bb ∈ func.bbs, ∀ front key back, store.instructions bb = front ++ key :: back →
      key ≠ old → ∀ inst, store.insts key = some inst → inst.kind.isPhi = false →
      ∀ input ∈ operands key, input ∈ needed →
        store'.DefinedBefore func input bb (store.remaining old new front))
    (added : new.isSome = true → ∀ bb ∈ func.bbs, ∀ front back,
      store.instructions bb = front ++ old :: back → ∀ input ∈ operands store.nextInst,
        input ∈ needed → store'.DefinedBefore func input bb (store.remaining old new front))
    (phis : ∀ bb ∈ func.bbs, ∀ phi ∈ store.instructions bb, phi ≠ old → ∀ inst vars,
      store.insts phi = some inst → inst.kind = .kPhi vars →
      ∀ value entry, (value, entry) ∈ (operands phi).zip vars → value ∈ needed →
        store'.DefinedAtEnd func value entry.bb) : store'.UsesDefined func needed where
  uses bb bbMem front' id back' split inst' found' notPhi' input isInput isNeeded := by
    rw [housed.instructions_eq rewritten bbMem] at split
    rcases remaining_split split with ⟨front, key, back, splitBefore, rfl, place⟩
    have keyMem : key ∈ store.listed func :=
      Consistent.mem_listed bbMem (by simp [splitBefore])
    rw [← inputs_eq found'] at isInput
    rcases place with ⟨notOld, rfl⟩ | ⟨rfl, isSome, rfl⟩
    · rw [rewritten.operands id (.inl ⟨keyMem, notOld⟩)] at isInput
      rcases housed.linked.stored id keyMem with ⟨inst, found⟩
      rcases rewritten.kept id keyMem notOld inst found with ⟨again, foundAgain, bare⟩
      cases Option.some.inj (foundAgain.symm.trans found')
      rw [Inst.kind_of_bare bare] at notPhi'
      exact stays bb bbMem front id back splitBefore notOld inst found notPhi' input isInput
        isNeeded
    · rw [rewritten.operands _ (.inr ⟨isSome, rfl⟩)] at isInput
      exact added isSome bb bbMem front back splitBefore input isInput isNeeded
  phiUses bb bbMem phi inBlock inst' vars found' isPhi value entry matched isNeeded := by
    rw [housed.instructions_eq rewritten bbMem] at inBlock
    rcases List.append_of_mem inBlock with ⟨front', back', split⟩
    rcases remaining_split split with ⟨front, key, back, splitBefore, -, place⟩
    have inBefore : key ∈ store.instructions bb := by simp [splitBefore]
    have keyMem : key ∈ store.listed func := Consistent.mem_listed bbMem inBefore
    rcases place with ⟨notOld, rfl⟩ | ⟨-, isSome, rfl⟩
    · rw [← inputs_eq found', rewritten.operands phi (.inl ⟨keyMem, notOld⟩)] at matched
      rcases housed.linked.stored phi keyMem with ⟨inst, found⟩
      rcases rewritten.kept phi keyMem notOld inst found with ⟨again, foundAgain, bare⟩
      cases Option.some.inj (foundAgain.symm.trans found')
      rw [Inst.kind_of_bare bare] at isPhi
      exact phis bb bbMem phi inBefore notOld inst vars found isPhi value entry matched isNeeded
    · rcases Option.isSome_iff_exists.mp isSome with ⟨kind, isNew⟩
      rcases rewritten.added kind isNew with ⟨again, foundAgain, kindEq, -⟩
      cases Option.some.inj (foundAgain.symm.trans found')
      have no := notPhi kind isNew
      rw [← kindEq, isPhi] at no
      cases no

theorem Swapped.usesDefined (swapped : Swapped store id store') (housed : store.Housed func)
    (valid : store.UsesDefined func needed) (binOp : store.IsBinOp id) :
    store'.UsesDefined func needed where
  uses bb bbMem front key back split inst' found' notPhi input isInput isNeeded := by
    rw [swapped.instructions] at split
    have keyMem : key ∈ store.listed func := Consistent.mem_listed bbMem (by simp [split])
    rcases housed.linked.stored key keyMem with ⟨inst, found⟩
    rw [← inputs_eq found', swapped.mem_inputs, inputs_eq found] at isInput
    cases Option.some.inj ((swapped.relinked.insts found).symm.trans found')
    have defined := valid.uses bb bbMem front key back split inst found notPhi input isInput isNeeded
    simp only [DefinedBefore, BlockDominates, swapped.instructions, swapped.cfg_eq]
    exact defined
  phiUses bb bbMem phi inBlock inst' vars found' isPhi value entry matched isNeeded := by
    rw [swapped.instructions] at inBlock
    have phiMem : phi ∈ store.listed func := Consistent.mem_listed bbMem inBlock
    rcases housed.linked.stored phi phiMem with ⟨inst, found⟩
    cases Option.some.inj ((swapped.relinked.insts found).symm.trans found')
    have notId : phi ≠ id := by
      rintro rfl
      rcases binOp with ⟨again, oper, foundAgain, kind⟩
      cases Option.some.inj (foundAgain.symm.trans found)
      cases kind.symm.trans isPhi
    rw [← inputs_eq found', swapped.others phi notId, inputs_eq found] at matched
    have defined := valid.phiUses bb bbMem phi inBlock inst vars found isPhi value entry matched
      isNeeded
    simp only [DefinedAtEnd, BlockDominates, swapped.instructions, swapped.cfg_eq]
    exact defined

/-- An operation in a block that is reached hands its users an operand. -/
theorem usesDefined_replaced {home : BlockId} {front back : List InstId}
    (housed : store.Housed func) (valid : store.UsesDefined func needed) (idNeeded : id ∈ needed)
    (homeMem : home ∈ func.bbs) (reachable : (store.cfg func).Reachable home)
    (placed : store.instructions home = front ++ id :: back) (binOp : store.IsBinOp id)
    (isInput : value ∈ store.inputs id)
    (rewritten : store.Rewritten { id | id ∈ store.listed func } id none
      (fun key => (store.inputs key).map (redirect id value)) store') :
    store'.UsesDefined func needed := by
  have member : id ∈ store.listed func := rewritten.oldMem
  have notSelf : value ≠ id := by
    rintro rfl
    exact housed.linked.not_self member binOp isInput
  have earlier : value ∈ needed → store.DefinedBefore func value home front := by
    rcases binOp with ⟨inst, oper, found, kind⟩
    apply valid.uses home homeMem front id back placed inst found
    · rw [kind]
      rfl
    · rwa [← inputs_eq found]
  have notNew : ∀ key, ¬ ((none : Option InstKind).isSome = true ∧ key = store.nextInst) := by
    simp
  apply usesDefined_of_rewritten housed rewritten
  · intro kind isNew
    cases isNew
  · intro bb bbMem front' key back' split notOld inst found notPhi input isUsed isNeeded
    rw [mem_map_redirect, inputs_eq found] at isUsed
    rcases isUsed with ⟨uses, notId⟩ | ⟨rfl, uses⟩
    · apply (housed.definedBefore_iff rewritten notId (notNew input)).mpr
      exact valid.uses bb bbMem front' key back' split inst found notPhi input uses isNeeded
    · apply (housed.definedBefore_iff rewritten notSelf (notNew input)).mpr
      apply housed.definedBefore_trans homeMem bbMem reachable placed split (earlier isNeeded)
      exact valid.uses bb bbMem front' key back' split inst found notPhi id uses idNeeded
  · intro isSome
    cases isSome
  · intro bb bbMem phi inBlock notOld inst vars found isPhi used entry matched isNeeded
    rw [inputs_eq found, List.zip_map_left, List.mem_map] at matched
    rcases matched with ⟨⟨input, own⟩, matched, equal⟩
    cases equal
    have atEnd := valid.phiUses bb bbMem phi inBlock inst vars found isPhi input own matched
    by_cases isId : input = id
    · subst isId
      simp only [redirect, if_true] at isNeeded ⊢
      apply (housed.definedAtEnd_iff rewritten notSelf (notNew _)).mpr
      exact housed.definedAtEnd_trans homeMem placed (earlier isNeeded) (atEnd idNeeded)
    · simp only [redirect, if_neg isId] at isNeeded ⊢
      exact (housed.definedAtEnd_iff rewritten isId (notNew _)).mpr (atEnd isNeeded)

section Merging

variable {fstShr rval left fstShamt : InstId} {home : BlockId} {front back : List InstId}

/-- The sum of the amounts is defined where the first shift was, if the amounts are. -/
theorem usesDefined_merged (housed : store.Housed func) (valid : store.UsesDefined func needed)
    (fstNeeded : fstShr ∈ needed)
    (fits : Merge.Fits store { id | id ∈ store.listed func } id fstShr rval)
    (merge : Merge store id fstShr rval left fstShamt store') (homeMem : home ∈ func.bbs)
    (reachable : (store.cfg func).Reachable home)
    (placed : store.instructions home = front ++ fstShr :: back)
    (ready : rval ∈ needed → store.DefinedBefore func rval home front) :
    store'.UsesDefined func needed := by
  have layout := merge.layout housed.linked fits
  have rewritten := merge.rewritten housed.linked fits
  have notNew : ∀ key ∈ store.listed func,
      ¬ ((some (InstKind.kBinOp .kAdd)).isSome = true ∧ key = store.nextInst) :=
    fun key keyMem both => absurd both.2 (Nat.ne_of_lt (housed.linked.allocated key keyMem))
  have below : ∀ key ∈ store.listed func, key ≠ store.nextInst := fun key keyMem =>
    Nat.ne_of_lt (housed.linked.allocated key keyMem)
  have before : ∀ input ∈ store.inputs fstShr, input ∈ needed →
      store.DefinedBefore func input home front := by
    rcases fits.fstBinOp with ⟨inst, oper, found, kind⟩
    intro input isInput
    rw [inputs_eq found] at isInput
    apply valid.uses home homeMem front fstShr back placed inst found _ input isInput
    rw [kind]
    rfl
  have leftBefore := before left (by simp [layout.fstInputs])
  have shamtBefore := before fstShamt (by simp [layout.fstInputs])
  apply usesDefined_of_rewritten housed rewritten
  · intro kind isNew
    cases isNew
    rfl
  · intro bb bbMem front' key back' split notFst inst found notPhi input isUsed isNeeded
    have keyMem : key ∈ store.listed func := Consistent.mem_listed bbMem (by simp [split])
    have defined := valid.uses bb bbMem front' key back' split inst found notPhi
    rw [← inputs_eq found] at defined
    by_cases isId : key = id
    · subst isId
      rw [Merge.operands_id (below key keyMem), List.mem_pair] at isUsed
      rw [fits.inputs] at defined
      have fstBefore := defined fstShr (by simp) fstNeeded
      rcases isUsed with rfl | rfl
      · apply (housed.definedBefore_iff rewritten layout.leftFst (notNew _ layout.leftMem)).mpr
        exact housed.definedBefore_trans homeMem bbMem reachable placed split
          (leftBefore isNeeded) fstBefore
      · exact housed.definedBefore_new rewritten rfl fstBefore
    · rw [Merge.operands_other (below key keyMem) isId] at isUsed
      have inputMem := housed.linked.inputs key keyMem input isUsed
      have notFirst : input ≠ fstShr := fun equal =>
        isId (layout.onlyUser key keyMem (equal ▸ isUsed))
      apply (housed.definedBefore_iff rewritten notFirst (notNew _ inputMem)).mpr
      exact defined input isUsed isNeeded
  · intro _ bb bbMem front' back' split input isUsed isNeeded
    have same := housed.home_unique bbMem homeMem (by simp [split])
      (show fstShr ∈ store.instructions home by simp [placed])
    subst same
    have same := housed.front_unique bbMem split placed
    subst same
    rw [Merge.operands_new, List.mem_pair] at isUsed
    rcases isUsed with rfl | rfl
    · apply (housed.definedBefore_iff rewritten layout.shamtFst (notNew _ layout.shamtMem)).mpr
      exact shamtBefore isNeeded
    · exact (housed.definedBefore_iff rewritten layout.rvalFst (notNew _ layout.rvalMem)).mpr
        (ready isNeeded)
  · intro bb bbMem phi inBlock notFst inst vars found isPhi value entry matched isNeeded
    have phiMem : phi ∈ store.listed func := Consistent.mem_listed bbMem inBlock
    have notId : phi ≠ id := by
      rintro rfl
      rcases fits.binOp with ⟨again, oper, foundAgain, kind⟩
      cases Option.some.inj (foundAgain.symm.trans found)
      cases kind.symm.trans isPhi
    rw [Merge.operands_other (below phi phiMem) notId] at matched
    have isUsed : value ∈ store.inputs phi := (List.of_mem_zip matched).1
    have valueMem := housed.linked.inputs phi phiMem value isUsed
    have notFirst : value ≠ fstShr := fun equal =>
      notId (layout.onlyUser phi phiMem (equal ▸ isUsed))
    apply (housed.definedAtEnd_iff rewritten notFirst (notNew _ valueMem)).mpr
    rw [inputs_eq found] at matched
    exact valid.phiUses bb bbMem phi inBlock inst vars found isPhi value entry matched isNeeded

end Merging

/-- A round keeps the definitions of needed values before their uses, if a merge finds the
amount it needs. -/
theorem usesDefined_fold (housed : store.Housed func) (valid : store.UsesDefined func needed)
    (binOps : ∀ key, store.IsBinOp key → key ∈ needed) (pending : Pending store func id)
    (result : fold store id = .ok store')
    (ready : ∀ fstShr rval, merges store id = some (fstShr, rval) → rval ∈ needed →
      ∀ bb ∈ func.bbs, ∀ front back, store.instructions bb = front ++ fstShr :: back →
        store.DefinedBefore func rval bb front) : store'.UsesDefined func needed := by
  have binOp := Pass.isBinOp_of_fold result
  have idNeeded := binOps id binOp
  rcases binOp with ⟨inst, oper, found, kind⟩
  rcases pending.2 with isNone | ⟨bb, bbMem, reachable, inBlock⟩
  · rw [isNone] at found
    cases found
  · have member : id ∈ store.listed func := Consistent.mem_listed bbMem inBlock
    rcases List.append_of_mem inBlock with ⟨front, back, placed⟩
    rcases fold_cases housed.linked member result with
      ⟨value, -, isInput, rewritten⟩ |
        ⟨-, ⟨-, swapped, -⟩ | ⟨fstShr, rval, left, fstShamt, merges, merge⟩⟩
    · exact usesDefined_replaced housed valid idNeeded bbMem reachable placed
        ⟨inst, oper, found, kind⟩ isInput rewritten
    · exact swapped.usesDefined housed valid ⟨inst, oper, found, kind⟩
    · have fits : Merge.Fits store { key | key ∈ store.listed func } id fstShr rval :=
        fits_of_merges housed.linked member merges
      have fstNeeded := binOps fstShr fits.fstBinOp
      have fstMem := (merge.some.layout housed.linked fits).fstMem
      rcases List.mem_flatMap.mp fstMem with ⟨home, homeMem, inHome⟩
      rcases List.append_of_mem inHome with ⟨upTo, beyond, fstPlaced⟩
      have fstBefore : store.DefinedBefore func fstShr bb front := by
        apply valid.uses bb bbMem front id back placed inst found
        · rw [kind]
          rfl
        · rw [← inputs_eq found, fits.inputs]
          exact .head _
        · exact fstNeeded
      have fstReachable := housed.reachable_of_definedBefore homeMem bbMem reachable inHome
        (fun key inFront => by simp [placed, inFront]) fstBefore
      exact usesDefined_merged housed valid fstNeeded fits merge.some homeMem fstReachable fstPlaced
        fun isNeeded => ready fstShr rval merges isNeeded home homeMem upTo beyond fstPlaced

/-- A round keeps definitions before uses if the amounts it needs are there. -/
theorem validSSA_fold (housed : store.Housed func) (valid : store.ValidSSA func)
    (pending : Pending store func id) (result : fold store id = .ok store')
    (ready : (Round.mk .peepHole store id).AmountReady func) : store'.ValidSSA func := by
  rw [validSSA_iff] at valid ⊢
  apply usesDefined_fold housed valid (fun _ _ => trivial) pending result
  exact fun fstShr rval merges _ => ready fstShr rval merges

/-! ## An amount that comes too late -/

/-- An addition of the pass uses a constant that is not defined there. -/
def Misplaced (store : Store) (func : Function) : Prop :=
  ∃ bb ∈ func.bbs, ∃ front user back inst value, store.instructions bb = front ++ user :: back ∧
    store.insts user = some inst ∧ inst.kind = .kBinOp .kAdd ∧ inst.bb = none ∧
    value ∈ inst.inputs ∧ isConstAt store value = true ∧
    ¬ store.DefinedBefore func value bb front

theorem Misplaced.not_validSSA (misplaced : Misplaced store func) : ¬ store.ValidSSA func := by
  rcases misplaced with ⟨bb, bbMem, front, user, back, inst, value, split, found, kind, -, isInput,
    -, undefined⟩
  intro valid
  apply undefined
  apply valid.uses bb bbMem front user back split inst found _ value isInput
  rw [kind]
  rfl

/-- Such an addition knows no block and stays. -/
theorem Misplaced.rewritten {old : InstId} {new : Option InstKind}
    {operands : InstId → List InstId} (misplaced : Misplaced store func)
    (housed : store.Housed func) (oldBinOp : store.IsBinOp old)
    (rewritten : store.Rewritten { id | id ∈ store.listed func } old new operands store')
    (keeps : ∀ user inst value, store.insts user = some inst → inst.kind = .kBinOp .kAdd →
      value ∈ inst.inputs → value ≠ old → user ∈ store.listed func → value ∈ operands user) :
    Misplaced store' func := by
  rcases misplaced with ⟨bb, bbMem, front, user, back, inst, value, split, found, kind, homeless,
    isInput, const, undefined⟩
  have userMem : user ∈ store.listed func := Consistent.mem_listed bbMem (by simp [split])
  have valueMem : value ∈ store.listed func :=
    housed.linked.inputs user userMem value (by rwa [inputs_eq found])
  have notOld : user ≠ old := by
    rintro rfl
    rcases rewritten.placed with ⟨again, home, -, foundAgain, atHome, -⟩
    cases Option.some.inj (foundAgain.symm.trans found)
    cases homeless.symm.trans atHome
  have valueNotOld : value ≠ old := by
    rintro rfl
    exact not_isBinOp_of_isConstAt const oldBinOp
  have notNew : ∀ key ∈ store.listed func, ¬ (new.isSome = true ∧ key = store.nextInst) :=
    fun key keyMem both => absurd both.2 (Nat.ne_of_lt (housed.linked.allocated key keyMem))
  rcases rewritten.kept user userMem notOld inst found with ⟨inst', found', bare⟩
  have splitAfter : store'.instructions bb =
      store.remaining old new front ++ user :: store.remaining old new back := by
    rw [housed.instructions_eq rewritten bbMem, split, remaining_append,
      remaining_cons_of_ne notOld]
  refine ⟨bb, bbMem, _, user, _, inst', value, splitAfter, found',
    (Inst.kind_of_bare bare).trans kind, (Inst.bb_of_bare bare).trans homeless, ?_, ?_, ?_⟩
  · rw [← inputs_eq found', rewritten.operands user (.inl ⟨userMem, notOld⟩)]
    exact keeps user inst value found kind isInput valueNotOld userMem
  · rcases housed.linked.stored value valueMem with ⟨other, otherFound⟩
    rcases rewritten.kept value valueMem valueNotOld other otherFound with
      ⟨other', otherFound', otherBare⟩
    simpa [isConstAt, isConst, otherFound', otherFound, Inst.kind_of_bare otherBare] using const
  · rwa [housed.definedBefore_iff rewritten valueNotOld (notNew value valueMem)]

theorem Swapped.misplaced (swapped : Swapped store id store')
    (misplaced : Misplaced store func) : Misplaced store' func := by
  rcases misplaced with ⟨bb, bbMem, front, user, back, inst, value, split, found, kind, homeless,
    isInput, const, undefined⟩
  refine ⟨bb, bbMem, front, user, back, _, value, ?_, swapped.relinked.insts found, kind, homeless,
    ?_, ?_, ?_⟩
  · rw [swapped.instructions, split]
  · rw [← inputs_eq (swapped.relinked.insts found), swapped.mem_inputs, inputs_eq found]
    exact isInput
  · rwa [swapped.isConstAt]
  · simp only [DefinedBefore, BlockDominates, swapped.instructions, swapped.cfg_eq]
    exact undefined

theorem misplaced_fold (housed : store.Housed func) (misplaced : Misplaced store func)
    (member : id ∈ store.listed func) (result : fold store id = .ok store') :
    Misplaced store' func := by
  rcases fold_cases housed.linked member result with
    ⟨value, -, isInput, rewritten⟩ |
      ⟨-, ⟨-, swapped, -⟩ | ⟨fstShr, rval, left, fstShamt, merges, merge⟩⟩
  · apply misplaced.rewritten housed (Pass.isBinOp_of_fold result) rewritten
    intro user inst used found _ uses notOld _
    rw [mem_map_redirect, inputs_eq found]
    exact .inl ⟨uses, notOld⟩
  · exact swapped.misplaced misplaced
  · have fits : Merge.Fits store { key | key ∈ store.listed func } id fstShr rval :=
      fits_of_merges housed.linked member merges
    rcases merges_eq_some merges with ⟨shift, shiftFound, isShr, -⟩
    apply misplaced.rewritten housed fits.fstBinOp (merge.some.rewritten housed.linked fits)
    intro user inst used found kind uses _ userMem
    have notId : user ≠ id := by
      rintro rfl
      cases Option.some.inj (shiftFound.symm.trans found)
      cases kind.symm.trans isShr
    rw [Merge.operands_other (Nat.ne_of_lt (housed.linked.allocated user userMem)) notId,
      inputs_eq found]
    exact uses

/-- Merging the shifts brings the second amount to where it is not defined. -/
theorem misplaced_of_not_ready (housed : store.Housed func) (member : id ∈ store.listed func)
    (result : fold store id = .ok store')
    (late : ¬ (Round.mk .peepHole store id).AmountReady func) : Misplaced store' func := by
  simp only [Round.AmountReady, not_forall] at late
  rcases late with ⟨fstShr, rval, merges, bb, bbMem, front, back, split, undefined⟩
  rcases fold_cases housed.linked member result with
    ⟨value, replaces, -⟩ | ⟨-, ⟨notMerged, -⟩ | ⟨fst, amount, left, fstShamt, merges', merge⟩⟩
  · cases replaces.symm.trans (replacement_of_merges housed.linked member merges)
  · cases merges.symm.trans notMerged
  · cases merges.symm.trans merges'
    have fits : Merge.Fits store { key | key ∈ store.listed func } id fstShr rval :=
      fits_of_merges housed.linked member merges
    have layout := merge.some.layout housed.linked fits
    have rewritten := merge.some.rewritten housed.linked fits
    rcases rewritten.added _ rfl with ⟨inst, found, kind, homeless⟩
    have splitAfter : store'.instructions bb =
        store.remaining fstShr (some (.kBinOp .kAdd)) front ++
          store.nextInst :: store.remaining fstShr (some (.kBinOp .kAdd)) back := by
      rw [housed.instructions_eq rewritten bbMem, split, remaining_append, remaining_cons_old rfl]
    have const := isConstAt_of_merges merges
    refine ⟨bb, bbMem, _, store.nextInst, _, inst, rval, splitAfter, found, kind, homeless,
      ?_, ?_, ?_⟩
    · rw [← inputs_eq found, rewritten.operands _ (.inr ⟨rfl, rfl⟩), Merge.operands_new]
      simp
    · rcases housed.linked.stored rval layout.rvalMem with ⟨other, otherFound⟩
      rcases rewritten.kept rval layout.rvalMem layout.rvalFst other otherFound with
        ⟨other', otherFound', otherBare⟩
      simpa [isConstAt, isConst, otherFound', otherFound, Inst.kind_of_bare otherBare] using const
    · rw [housed.definedBefore_iff rewritten layout.rvalFst]
      · exact undefined
      · exact fun both => absurd both.2
          (Nat.ne_of_lt (housed.linked.allocated rval layout.rvalMem))

/-! ## The whole run -/

section Run

variable {candidates : List InstId} {next : Store}

/-- What a round leaves for the next. -/
theorem next_round (housed : store.Housed func) {rest : List InstId}
    (pending : ∀ key ∈ id :: rest, Pending store func key) (result : fold store id = .ok next) :
    id ∈ store.listed func ∧ next.Housed func ∧ ∀ key ∈ rest, Pending next func key := by
  have round : Pass.peepHole.rewrite store id = .ok next := result
  have member := Pass.mem_listed (pending id List.mem_cons_self) round
  rcases Pass.housed housed member round with ⟨housedNext, pendingNext⟩
  exact ⟨member, housedNext, fun key keyMem =>
    pendingNext key (pending key (List.mem_cons_of_mem _ keyMem))⟩

theorem misplaced_rounds (housed : store.Housed func)
    (pending : ∀ id ∈ candidates, Pending store func id)
    (misplaced : Misplaced store func)
    (result : candidates.foldlM fold store = .ok store') : Misplaced store' func := by
  induction candidates generalizing store with
  | nil =>
      cases result
      exact misplaced
  | cons id rest induction =>
      rw [List.foldlM_cons] at result
      rcases Result.bind_eq_ok.mp result with ⟨next, first, later⟩
      rcases next_round housed pending first with ⟨member, housedNext, pendingNext⟩
      exact induction housedNext pendingNext (misplaced_fold housed misplaced member first) later

theorem validSSA_rounds_iff (housed : store.Housed func) (valid : store.ValidSSA func)
    (pending : ∀ id ∈ candidates, Pending store func id)
    (result : candidates.foldlM fold store = .ok store') :
    store'.ValidSSA func ↔ ∀ round ∈ Opt.rounds fold candidates store,
      (Round.mk .peepHole round.1 round.2).AmountReady func := by
  induction candidates generalizing store with
  | nil =>
      cases result
      simp [rounds, valid]
  | cons id rest induction =>
      rw [List.foldlM_cons] at result
      rcases Result.bind_eq_ok.mp result with ⟨next, first, later⟩
      rcases next_round housed pending first with ⟨member, housedNext, pendingNext⟩
      have here := pending id List.mem_cons_self
      simp only [rounds, first, List.forall_mem_cons]
      constructor
      · intro validAfter
        by_cases ready : (Round.mk .peepHole store id).AmountReady func
        · have validNext := validSSA_fold housed valid here first ready
          exact ⟨ready, (induction housedNext validNext pendingNext later).mp validAfter⟩
        · have misplaced := misplaced_of_not_ready housed member first ready
          have misplacedAfter := misplaced_rounds housedNext pendingNext misplaced later
          exact absurd validAfter misplacedAfter.not_validSSA
      · rintro ⟨ready, readyLater⟩
        have validNext := validSSA_fold housed valid here first ready
        exact (induction housedNext validNext pendingNext later).mpr readyLater

end Run

/-- A run keeps every definition before its uses exactly when each merge finds the
second amount defined where the first shift stands. -/
theorem validSSA_iff_ready (housed : store.Housed func) (valid : store.ValidSSA func)
    (returns : run store func = .ok store') :
    store'.ValidSSA func ↔
      ∀ round ∈ Pass.peepHole.rounds store func, round.AmountReady func := by
  rcases Result.bind_eq_ok.mp returns with ⟨candidates, collected, folding⟩
  have collecting : Pass.peepHole.candidates store func = .ok candidates := collected
  have pending := Pass.pending_candidates housed collecting
  rw [validSSA_rounds_iff housed valid pending folding]
  simp only [Pass.rounds, collecting, List.forall_mem_map]
  rfl

/-- With the amounts defined first the merged shift is valid. -/
theorem validSSA_iff_ready_shifts :
    ∃ store', run (shifts [0, 1, 3, 2, 4, 5]) shifting = .ok store' ∧
      (store'.ValidSSA shifting ↔ ∀ round ∈ Pass.peepHole.rounds (shifts [0, 1, 3, 2, 4, 5])
        shifting, round.AmountReady shifting) := by
  have wellFormed : (shifts [0, 1, 3, 2, 4, 5]).WellFormed shifting := checkWellFormed_sound rfl
  exact ⟨_, rfl, validSSA_iff_ready wellFormed.housed wellFormed.validSSA rfl⟩

/-- The second amount is defined after the first shift, where the sum goes. -/
theorem not_validSSA_late :
    (shifts [0, 1, 2, 3, 4, 5]).WellFormed shifting ∧
      ∃ store', run (shifts [0, 1, 2, 3, 4, 5]) shifting = .ok store' ∧
        store'.instructions 0 = [0, 1, 6, 3, 4, 5] ∧ store'.inputs 6 = [1, 3] ∧
        ¬ store'.ValidSSA shifting := by
  refine ⟨checkWellFormed_sound rfl, _, rfl, by decide, by decide, ?_⟩
  intro valid
  have defined := valid.uses 0 (by decide) [0, 1] 6 [3, 4, 5] rfl _ rfl rfl 3 (by decide)
  rcases defined with inFront | ⟨dom, domMem, -, different, -⟩
  · simp at inFront
  · simp [shifting] at domMem
    exact different domMem

end PeepHole

end LeechJit.Opt
