import LeechJit.Analysis.LiveRanges

/-! # The pass over the blocks -/

namespace LeechJit.Analysis

open IR LeechJit.Graph

/-! ## What the pass is to compute -/

/-- `val` is an instruction of `bb`, and no phi. -/
def Defines (store : Store) (val : InstId) (bb : BlockId) : Prop :=
  val ∈ store.instructions bb ∧ ¬ store.IsPhi val

def Uses (store : Store) (val : InstId) (bb : BlockId) : Prop :=
  ∃ id ∈ store.instructions bb, val ∈ store.operands id

/-- The pass gives `val` an interval that starts where `bb` does. -/
def Touches (store : Store) (graph : Graph BlockId) (order : List BlockId) (val : InstId)
    (bb : BlockId) : Prop :=
  ForwardLive store graph order val bb [] ∨ Uses store val bb

/-- `header` is the header of a reducible loop, and `last` its last block. -/
def LoopEnds (loops : LoopAnalyzer BlockId) (header last : BlockId) : Prop :=
  ∃ info, loops.getLoopInfo header = .ok info ∧ info.header = some header ∧
    info.reducible = true ∧ loops.getLastBB loops.depth info = .ok last

/-- The ends that block `bb` gives to `val`. -/
def blockEnds (store : Store) (graph : Graph BlockId) (order : List BlockId)
    (loops : LoopAnalyzer BlockId) (numbers : LiveNumbers) (val : InstId) (bb : BlockId) :
    Set Nat :=
  { num | (ForwardLive store graph order val bb [] ∧ num = (numbers.liveInterval bb).end) ∨
    (∃ id ∈ store.instructions bb, val ∈ store.operands id ∧ num = numbers.liveNum id) ∨
    (Defines store val bb ∧ num = numbers.liveNum val + 2) ∨
    ∃ last, LoopEnds loops bb last ∧
      ForwardLive store graph order val bb (store.instructions bb) ∧
      num = (numbers.liveInterval last).end }

/-- The ends given to `val` by the blocks that are done. -/
def endsOf (store : Store) (graph : Graph BlockId) (order : List BlockId)
    (loops : LoopAnalyzer BlockId) (numbers : LiveNumbers) (val : InstId)
    (done : List BlockId) : Set Nat :=
  { num | ∃ bb ∈ done, num ∈ blockEnds store graph order loops numbers val bb }

/-- The starts given to `val` since its definition was met. -/
def startsOf (store : Store) (graph : Graph BlockId) (order : List BlockId)
    (numbers : LiveNumbers) (val : InstId) : List BlockId → Set Nat
  | [] => ∅
  | bb :: done =>
      { num | (Defines store val bb ∧ num = numbers.liveNum val) ∨
        (¬ Defines store val bb ∧ (num ∈ startsOf store graph order numbers val done ∨
          (Touches store graph order val bb ∧ num = (numbers.liveInterval bb).start))) }

variable {store : Store} {func : Function} {graph : Graph BlockId} {order : List BlockId}
  {loops : LoopAnalyzer BlockId} {numbers : LiveNumbers} {bb : BlockId}

/-! ## The instructions of one block -/

/-- The starts of `val` when the instructions `rest` of `bb` are done. -/
def startsIn (store : Store) (graph : Graph BlockId) (order : List BlockId)
    (numbers : LiveNumbers) (bb : BlockId) (old : InstId → Set Nat) (rest : List InstId)
    (val : InstId) : Set Nat :=
  { num | (val ∈ rest ∧ num = numbers.liveNum val) ∨
    (val ∉ rest ∧ (num ∈ old val ∨
      ((ForwardLive store graph order val bb [] ∨ ∃ id ∈ rest, val ∈ store.operands id) ∧
        num = (numbers.liveInterval bb).start))) }

/-- And the ends. -/
def endsIn (store : Store) (graph : Graph BlockId) (order : List BlockId)
    (numbers : LiveNumbers) (bb : BlockId) (old : InstId → Set Nat) (rest : List InstId)
    (val : InstId) : Set Nat :=
  { num | num ∈ old val ∨
    (ForwardLive store graph order val bb [] ∧ num = (numbers.liveInterval bb).end) ∨
    (∃ id ∈ rest, val ∈ store.operands id ∧ num = numbers.liveNum id) ∨
    (val ∈ rest ∧ num = numbers.liveNum val + 2) }

/-- The state in block `bb` when the instructions `rest` are done. -/
structure Within (store : Store) (graph : Graph BlockId) (order : List BlockId)
    (numbers : LiveNumbers) (bb : BlockId) (oldStarts oldEnds : InstId → Set Nat)
    (before : LiveRanges) (rest : List InstId) (set : LiveSet) (ranges : LiveRanges) : Prop where
  set : ∀ val, val ∈ set ↔ ForwardLive store graph order val bb rest
  hulls : ∀ val, Hull (startsIn store graph order numbers bb oldStarts rest val)
    (endsIn store graph order numbers bb oldEnds rest val) (ranges.liveIntervals val)
  liveSets : ranges.liveSets = before.liveSets
  toZero : ranges.toZero = before.toZero

variable {oldStarts oldEnds : InstId → Set Nat} {before ranges after : LiveRanges}
  {set set' : LiveSet} {rest : List InstId}

/-- A definition comes before all ends known behind it. -/
theorem liveNum_le_of_endsIn {id : InstId} (fresh : id ∉ rest)
    (later : ∀ user ∈ rest, numbers.liveNum id + 2 ≤ numbers.liveNum user)
    (inside : numbers.liveNum id + 2 ≤ (numbers.liveInterval bb).end)
    (past : ∀ num ∈ oldEnds id, (numbers.liveInterval bb).end ≤ num) :
    ∀ num ∈ endsIn store graph order numbers bb oldEnds rest id,
      numbers.liveNum id + 2 ≤ num := by
  rintro num (old | ⟨-, rfl⟩ | ⟨user, member, -, rfl⟩ | ⟨member, -⟩)
  · exact Nat.le_trans inside (past num old)
  · exact inside
  · exact later user member
  · exact absurd member fresh

theorem Within.step {id : InstId}
    (within : Within store graph order numbers bb oldStarts oldEnds before rest set ranges)
    (shaped : ∀ inst, store.insts id = some inst → inst.Shaped) (notPhi : ¬ store.IsPhi id)
    (fresh : id ∉ rest) (ssa : ∀ val ∈ store.operands id, val ∉ id :: rest)
    (later : ∀ user ∈ rest, numbers.liveNum id + 2 ≤ numbers.liveNum user)
    (inside : numbers.liveNum id + 2 ≤ (numbers.liveInterval bb).end)
    (past : ∀ num ∈ oldEnds id, (numbers.liveInterval bb).end ≤ num)
    (result : calcInstRange store numbers (numbers.liveInterval bb).start (set, ranges) id =
      .ok (set', after)) :
    Within store graph order numbers bb oldStarts oldEnds before (id :: rest) set' after := by
  have ranged := calcInstRange_eq_ok shaped notPhi result
  constructor
  case set =>
    intro val
    rw [ranged.set val, within.set val, ForwardLive, LiveAlong.cons_iff]
  case hulls =>
    intro val
    by_cases isOwn : val = id
    · subst isOwn
      have notOwn : val ∉ store.operands val := fun member =>
        ssa val member List.mem_cons_self
      have hull := ranged.own notOwn _ _ (within.hulls val)
        (liveNum_le_of_endsIn fresh later inside past)
      have sameStarts : startsIn store graph order numbers bb oldStarts (val :: rest) val =
          {numbers.liveNum val} := by
        ext num
        simp [startsIn]
      have sameEnds : endsIn store graph order numbers bb oldEnds (val :: rest) val =
          insert (numbers.liveNum val + 2)
            (endsIn store graph order numbers bb oldEnds rest val) := by
        ext num
        simp only [endsIn, Set.mem_ofPred_eq, Set.mem_insert_iff, List.mem_cons, true_and,
          fresh, false_and, or_false]
        constructor
        · rintro (old | atEnd | ⟨user, rfl | member, isUse, rfl⟩ | own)
          · exact .inr (.inl old)
          · exact .inr (.inr (.inl atEnd))
          · exact absurd isUse notOwn
          · exact .inr (.inr (.inr ⟨user, member, isUse, rfl⟩))
          · exact .inl own
        · rintro (own | old | atEnd | ⟨user, member, isUse, rfl⟩)
          · exact .inr (.inr (.inr own))
          · exact .inl old
          · exact .inr (.inl atEnd)
          · exact .inr (.inr (.inl ⟨user, .inr member, isUse, rfl⟩))
      rw [sameStarts, sameEnds]
      exact hull
    · by_cases isUse : val ∈ store.operands id
      · have notMem := ssa val isUse
        rw [List.mem_cons, not_or] at notMem
        have hull := ranged.operands val isUse isOwn _ _ (within.hulls val)
        have sameStarts : startsIn store graph order numbers bb oldStarts (id :: rest) val =
            insert (numbers.liveInterval bb).start
              (startsIn store graph order numbers bb oldStarts rest val) := by
          ext num
          simp only [startsIn, Set.mem_ofPred_eq, Set.mem_insert_iff, List.mem_cons, isOwn,
            notMem.2, or_self, false_and, not_false_eq_true, true_and, false_or,
            exists_eq_or_imp, isUse, true_or, or_true]
          tauto
        have sameEnds : endsIn store graph order numbers bb oldEnds (id :: rest) val =
            insert (numbers.liveNum id)
              (endsIn store graph order numbers bb oldEnds rest val) := by
          ext num
          simp only [endsIn, Set.mem_ofPred_eq, Set.mem_insert_iff, List.mem_cons, isOwn,
            notMem.2, or_self, false_and, or_false, exists_eq_or_imp, isUse, true_and]
          tauto
        rw [sameStarts, sameEnds]
        exact hull
      · rw [ranged.others val isOwn isUse]
        have sameStarts : startsIn store graph order numbers bb oldStarts (id :: rest) val =
            startsIn store graph order numbers bb oldStarts rest val := by
          ext num
          simp [startsIn, isOwn, isUse]
        have sameEnds : endsIn store graph order numbers bb oldEnds (id :: rest) val =
            endsIn store graph order numbers bb oldEnds rest val := by
          ext num
          simp [endsIn, isOwn, isUse]
        rw [sameStarts, sameEnds]
        exact within.hulls val
  case liveSets => exact ranged.liveSets.trans within.liveSets
  case toZero => exact ranged.toZero.trans within.toZero

/-- What holds at each instruction of a block of a well-formed function. -/
structure Stepwise (store : Store) (numbers : LiveNumbers) (bb : BlockId)
    (oldEnds : InstId → Set Nat) (id : InstId) (rest : List InstId) : Prop where
  shaped : ∀ inst, store.insts id = some inst → inst.Shaped
  notPhi : ¬ store.IsPhi id
  fresh : id ∉ rest
  ssa : ∀ val ∈ store.operands id, val ∉ id :: rest
  later : ∀ user ∈ rest, numbers.liveNum id + 2 ≤ numbers.liveNum user
  inside : numbers.liveNum id + 2 ≤ (numbers.liveInterval bb).end
  past : ∀ num ∈ oldEnds id, (numbers.liveInterval bb).end ≤ num

theorem Within.run
    (within : Within store graph order numbers bb oldStarts oldEnds before [] set ranges)
    (stepwise : ∀ front id back, rest = front ++ id :: back →
      Stepwise store numbers bb oldEnds id back)
    (result : rest.reverse.foldlM
      (calcInstRange store numbers (numbers.liveInterval bb).start) (set, ranges) =
        .ok (set', after)) :
    Within store graph order numbers bb oldStarts oldEnds before rest set' after := by
  induction rest generalizing set' after with
  | nil =>
      cases result
      exact within
  | cons id rest induction =>
      rw [List.reverse_cons, List.foldlM_append] at result
      rcases Result.bind_eq_ok.mp result with ⟨⟨nextSet, next⟩, others, last⟩
      rcases Result.bind_eq_ok.mp last with ⟨final, stepped, equal⟩
      cases equal
      have inner := induction (fun front other back split =>
        stepwise (id :: front) other back (by rw [split, List.cons_append])) others
      have ⟨shaped, notPhi, fresh, ssa, later, inside, past⟩ := stepwise [] id rest rfl
      exact inner.step shaped notPhi fresh ssa later inside past stepped

/-- The live-out values of a block get the whole block. -/
theorem Within.start (unplaced : (numbers.liveInterval bb).onStack = false) (hulls : ∀ val, Hull (oldStarts val) (oldEnds val)
      (before.liveIntervals val))
    (mem_iff : ∀ val, val ∈ set ↔ ForwardLive store graph order val bb []) :
    Within store graph order numbers bb oldStarts oldEnds before [] set
      (updateAll before set (numbers.liveInterval bb)) := by
  have updated := updateAll_updatedAll before set (numbers.liveInterval bb)
  constructor
  case set => exact mem_iff
  case hulls =>
    intro val
    by_cases member : val ∈ set
    · have isLive := (mem_iff val).mp member
      have hull := updated.hulls unplaced val member _ _ (hulls val)
      have sameStarts : startsIn store graph order numbers bb oldStarts [] val =
          insert (numbers.liveInterval bb).start (oldStarts val) := by
        ext num
        simp [startsIn, isLive, or_comm]
      have sameEnds : endsIn store graph order numbers bb oldEnds [] val =
          insert (numbers.liveInterval bb).end (oldEnds val) := by
        ext num
        simp [endsIn, isLive, or_comm]
      rw [sameStarts, sameEnds]
      exact hull
    · rw [updated.others val member]
      have notLive := mt (mem_iff val).mpr member
      have sameStarts : startsIn store graph order numbers bb oldStarts [] val =
          oldStarts val := by
        ext num
        simp [startsIn, notLive]
      have sameEnds : endsIn store graph order numbers bb oldEnds [] val = oldEnds val := by
        ext num
        simp [endsIn, notLive]
      rw [sameStarts, sameEnds]
      exact hulls val
  case liveSets => exact updated.liveSets
  case toZero => exact updated.toZero

/-! ## Phis -/

theorem finishInst_fold {ids : List InstId} {toZero toZero' : List InstId}
    (result : ids.foldlM (finishInst store) (set, toZero) = .ok (set', toZero')) :
    (∀ val, val ∈ set' ↔ val ∈ set ∧ ¬ (val ∈ ids ∧ store.IsPhi val)) ∧
      ∀ id ∈ toZero', id ∈ toZero ∨ ∃ inst, store.insts id = some inst ∧
        producesValue inst.kind = false := by
  induction ids generalizing set toZero with
  | nil =>
      cases result
      exact ⟨by simp, fun id member => .inl member⟩
  | cons id rest induction =>
      rcases Result.bind_eq_ok.mp result with ⟨⟨nextSet, nextZero⟩, first, others⟩
      rcases Result.bind_eq_ok.mp first with ⟨inst, found, equal⟩
      have stored := Store.inst_eq_ok.mp found
      simp only [Result.pure_eq_ok, Except.ok.injEq, Prod.mk.injEq] at equal
      rcases equal with ⟨rfl, rfl⟩
      rcases induction others with ⟨mem_iff, zeroed⟩
      have isPhi_iff : store.IsPhi id ↔ inst.kind.isPhi = true := by
        simp [Store.IsPhi, stored]
      constructor
      · intro val
        rw [mem_iff]
        by_cases same : val = id
        · subst same
          cases kind : inst.kind.isPhi <;> simp [isPhi_iff, kind]
        · cases kind : inst.kind.isPhi <;> simp [same]
      · intro other member
        rcases zeroed other member with earlier | noValue
        · cases produces : producesValue inst.kind with
          | true =>
              simp only [produces, if_true] at earlier
              exact .inl earlier
          | false =>
              simp only [produces, Bool.false_eq_true, if_false, List.mem_append,
                List.mem_singleton] at earlier
              rcases earlier with earlier | rfl
              · exact .inl earlier
              · exact .inr ⟨inst, stored, produces⟩
        · exact .inr noValue

theorem calcInstRange_phis {bbLiveNum : Nat} {ids : List InstId}
    {state result : LiveSet × LiveRanges} (phis : ∀ id ∈ ids, store.IsPhi id)
    (computed : ids.foldlM (calcInstRange store numbers bbLiveNum) state = .ok result) :
    result = state := by
  induction ids generalizing state with
  | nil =>
      cases computed
      rfl
  | cons id rest induction =>
      rcases Result.bind_eq_ok.mp computed with ⟨next, first, others⟩
      rw [calcInstRange_phi (phis id List.mem_cons_self) first] at others
      exact induction (fun other member => phis other (List.mem_cons_of_mem _ member)) others

/-- A value live before a block is used in it or live at its end. -/
theorem touched_of_live {val : InstId} {edge phiEdge : BlockId → BlockId → Prop}
    (live : LiveAlong store edge phiEdge val bb (store.instructions bb)) :
    LiveAlong store edge phiEdge val bb [] ∨ Uses store val bb := by
  rcases live.cases_rest with ⟨front, id, back, split, -, isUse⟩ | ⟨-, atEnd⟩
  · exact .inr ⟨id, by rw [split]; simp, isUse⟩
  · exact .inl atEnd

/-- The phis of a block and its other instructions, with what well-formedness says
about the others. -/
structure Sections (store : Store) (func : Function) (bb : BlockId)
    (phis others : List InstId) : Prop where
  whole : store.instructions bb = phis ++ others
  isPhi : ∀ id ∈ phis, store.IsPhi id
  notPhis : ∀ id ∈ others, ¬ store.IsPhi id
  shaped : ∀ id ∈ others, ∀ inst, store.insts id = some inst → inst.Shaped
  nodup : (phis ++ others).Nodup
  ssa : ∀ front id back, store.instructions bb = front ++ id :: back →
    ∀ val ∈ store.operands id, val ∉ id :: back

theorem sections (wellFormed : store.WellFormed func) (member : bb ∈ func.bbs) :
    ∃ phis others, Sections store func bb phis others := by
  rcases wellFormed.phisFirst bb member with ⟨phis, others, whole, arePhis, areOthers⟩
  have nodup := wellFormed.instructions_nodup member
  have stored : ∀ id ∈ phis ++ others, ∃ inst, store.insts id = some inst ∧
      store.InstConsistent func bb id inst := by
    rw [← whole]
    exact wellFormed.insts bb member
  have notPhis : ∀ id ∈ others, ¬ store.IsPhi id := by
    rintro id inOthers ⟨inst, found, isPhi⟩
    rw [areOthers id inOthers inst found] at isPhi
    cases isPhi
  refine ⟨phis, others, whole, ?_, notPhis, ?_, whole ▸ nodup, ?_⟩
  · intro id inPhis
    rcases stored id (List.mem_append_left _ inPhis) with ⟨inst, found, -⟩
    exact ⟨inst, found, arePhis id inPhis inst found⟩
  · intro id inOthers inst found
    rcases stored id (List.mem_append_right _ inOthers) with ⟨other, otherFound, fits⟩
    cases Option.some.inj (otherFound.symm.trans found)
    exact fits.shaped
  · intro front id back split val isUse
    have inBlock : id ∈ phis ++ others := by
      rw [← whole, split]
      simp
    rcases stored id inBlock with ⟨inst, found, -⟩
    have notPhi : inst.kind.isPhi = false := by
      cases kind : inst.kind.isPhi with
      | true => simp [Store.operands, found, kind] at isUse
      | false => rfl
    have isInput : val ∈ inst.inputs := by
      simpa [Store.operands, found, notPhi] using isUse
    rcases wellFormed.uses bb member front id back split inst found notPhi val isInput with
      earlier | ⟨dom, domMem, inDom, different, -⟩
    · rw [split, List.nodup_append] at nodup
      exact fun inBack => nodup.2.2 val earlier val inBack rfl
    · intro inBack
      apply different
      apply wellFormed.home_unique domMem member inDom
      rw [split]
      exact List.mem_append_right _ inBack

namespace Sections

variable {phis others : List InstId} {val : InstId}

theorem operands_phi (parts : Sections store func bb phis others) {id : InstId}
    (member : id ∈ phis) : store.operands id = [] := by
  rcases parts.isPhi id member with ⟨inst, stored, isPhi⟩
  simp [Store.operands, stored, isPhi]

theorem defines_iff (parts : Sections store func bb phis others) :
    Defines store val bb ↔ val ∈ others := by
  rw [Defines, parts.whole, List.mem_append]
  constructor
  · rintro ⟨isPhi | isOther, notPhi⟩
    · exact absurd (parts.isPhi val isPhi) notPhi
    · exact isOther
  · intro isOther
    exact ⟨.inr isOther, parts.notPhis val isOther⟩

theorem uses_iff (parts : Sections store func bb phis others) :
    (∃ id ∈ others, val ∈ store.operands id) ↔ Uses store val bb := by
  constructor
  · rintro ⟨id, member, isUse⟩
    exact ⟨id, by rw [parts.whole]; exact List.mem_append_right _ member, isUse⟩
  · rintro ⟨id, member, isUse⟩
    rw [parts.whole, List.mem_append] at member
    rcases member with isPhi | isOther
    · rw [parts.operands_phi isPhi] at isUse
      cases isUse
    · exact ⟨id, isOther, isUse⟩

/-- Being live before a block is being live behind its phis, and none of them. -/
theorem live_iff (parts : Sections store func bb phis others)
    {edge phiEdge : BlockId → BlockId → Prop} :
    LiveAlong store edge phiEdge val bb (store.instructions bb) ↔
      val ∉ phis ∧ LiveAlong store edge phiEdge val bb others := by
  rw [parts.whole]
  have noUses := fun id (member : id ∈ phis) => parts.operands_phi member
  clear parts
  induction phis with
  | nil => simp
  | cons id rest induction =>
      have later : LiveAlong store edge phiEdge val bb (rest ++ others) ↔
          val ∉ rest ∧ LiveAlong store edge phiEdge val bb others :=
        induction fun other member => noUses other (List.mem_cons_of_mem _ member)
      rw [List.cons_append, LiveAlong.cons_iff, noUses id List.mem_cons_self, later]
      simp only [List.not_mem_nil, false_or, List.mem_cons, not_or, and_assoc]

/-- A value live before some instructions of a block is not one of them. -/
theorem fresh_of_live (parts : Sections store func bb phis others)
    {edge phiEdge : BlockId → BlockId → Prop} {front back : List InstId}
    (split : store.instructions bb = front ++ back)
    (live : LiveAlong store edge phiEdge val bb back) : val ∉ back := by
  intro member
  rcases live.cases_rest with ⟨before, id, after, backSplit, notBefore, isUse⟩ | ⟨notMem, -⟩
  · have whole : store.instructions bb = (front ++ before) ++ id :: after := by
      rw [split, backSplit, List.append_assoc]
    rw [backSplit, List.mem_append] at member
    rcases member with inBefore | inAfter
    · exact notBefore inBefore
    · exact parts.ssa _ id after whole val isUse inAfter
  · exact notMem member

end Sections

end LeechJit.Analysis
