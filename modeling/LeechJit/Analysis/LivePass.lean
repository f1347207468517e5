import LeechJit.Analysis.LiveBlocks

/-! # The intervals after the pass -/

namespace LeechJit.Analysis

open IR LeechJit.Graph

/-- The state of the pass when the blocks `done` have been handled. -/
structure Ranged (store : Store) (func : Function) (order : List BlockId)
    (loops : LoopAnalyzer BlockId) (numbers : LiveNumbers) (done : List BlockId)
    (ranges : LiveRanges) : Prop where
  sets : SetsOf store (store.cfg func) order done ranges.liveSets
  hulls : ∀ val, Hull (startsOf store (store.cfg func) order numbers val done)
    (endsOf store (store.cfg func) order loops numbers val done) (ranges.liveIntervals val)
  loopsValid : ∀ bb ∈ done, ∀ last val, LoopEnds loops bb last →
    ForwardLive store (store.cfg func) order val bb (store.instructions bb) →
    (numbers.liveInterval bb).start ≤ (numbers.liveInterval last).end
  toZero : ∀ id ∈ ranges.toZero, ∃ inst, store.insts id = some inst ∧
    producesValue inst.kind = false

/-- A linear order of the blocks of a function, with numbers along it. -/
structure Ordering (store : Store) (func : Function) (order : List BlockId)
    (numbers : LiveNumbers) : Prop where
  wellFormed : store.WellFormed func
  perm : order.Perm func.bbs
  numbering : Numbering store order numbers

variable {store : Store} {func : Function} {order front done : List BlockId}
  {loops : LoopAnalyzer BlockId} {numbers : LiveNumbers} {bb : BlockId}
  {ranges after : LiveRanges} {val : InstId}

theorem not_isPhi_of_mem_operands {id : InstId} (isUse : val ∈ store.operands id) :
    ¬ store.IsPhi id := by
  rintro ⟨inst, stored, isPhi⟩
  simp [Store.operands, stored, isPhi] at isUse

namespace Ordering

variable (ordering : Ordering store func order numbers)

include ordering

theorem nodup : order.Nodup :=
  ordering.perm.nodup_iff.mpr ordering.wellFormed.closed.nodup

theorem mem_iff : bb ∈ order ↔ bb ∈ func.bbs := ordering.perm.mem_iff

theorem bounds (member : bb ∈ order) {id : InstId} (inBlock : id ∈ store.instructions bb)
    (notPhi : ¬ store.IsPhi id) :
    (numbers.liveInterval bb).start + 2 ≤ numbers.liveNum id ∧
      numbers.liveNum id + 2 ≤ (numbers.liveInterval bb).end :=
  ordering.numbering.inside bb member id inBlock notPhi

/-- No end lies before the block that gives it. -/
theorem start_le_of_blockEnds (member : bb ∈ order)
    (loopsValid : ∀ last, LoopEnds loops bb last →
      ForwardLive store (store.cfg func) order val bb (store.instructions bb) →
      (numbers.liveInterval bb).start ≤ (numbers.liveInterval last).end)
    {num : Nat} (isEnd : num ∈ blockEnds store (store.cfg func) order loops numbers val bb) :
    (numbers.liveInterval bb).start ≤ num := by
  rcases isEnd with ⟨-, rfl⟩ | ⟨id, inBlock, isUse, rfl⟩ | ⟨defines, rfl⟩ | ⟨last, ends, live, rfl⟩
  · have nonempty := ordering.numbering.nonempty bb member
    omega
  · have inside := ordering.bounds member inBlock (not_isPhi_of_mem_operands isUse)
    omega
  · have inside := ordering.bounds member defines.1 defines.2
    omega
  · exact loopsValid last ends live

theorem stepwise {phis others : List InstId} (parts : Sections store func bb phis others)
    (member : bb ∈ order) {oldEnds : InstId → Set Nat}
    (past : ∀ id, ∀ num ∈ oldEnds id, (numbers.liveInterval bb).end ≤ num)
    {before back : List InstId} {id : InstId} (split : others = before ++ id :: back) :
    Stepwise store numbers bb oldEnds id back := by
  have inOthers : id ∈ others := by
    rw [split]
    simp
  have inBlock : id ∈ store.instructions bb := by
    rw [parts.whole]
    exact List.mem_append_right _ inOthers
  have notPhi := parts.notPhis id inOthers
  have increasing := ordering.numbering.increasing bb member
  rw [parts.whole, split, List.pairwise_append] at increasing
  have tail := (List.pairwise_append.mp increasing.2.1).2.1
  have nodup := parts.nodup
  rw [split, List.nodup_append] at nodup
  have nodupTail := (List.nodup_append.mp nodup.2.1).2.1
  constructor
  case shaped => exact parts.shaped id inOthers
  case notPhi => exact notPhi
  case fresh => exact (List.nodup_cons.mp nodupTail).1
  case ssa =>
    apply parts.ssa (phis ++ before) id back
    rw [parts.whole, split, List.append_assoc]
  case later =>
    intro user inBack
    have userNotPhi := parts.notPhis user (by rw [split]; simp [inBack])
    exact (List.pairwise_cons.mp tail).1 user inBack notPhi userNotPhi
  case inside => exact (ordering.bounds member inBlock notPhi).2
  case past => exact past id

end Ordering

theorem startsIn_eq {phis others : List InstId} (parts : Sections store func bb phis others) :
    startsIn store (store.cfg func) order numbers bb
      (fun val => startsOf store (store.cfg func) order numbers val done) others val =
        startsOf store (store.cfg func) order numbers val (bb :: done) := by
  ext num
  simp only [startsIn, startsOf, Set.mem_ofPred_eq, parts.uses_iff, parts.defines_iff, Touches]

/-- The ends but those of a loop. -/
theorem endsIn_eq {phis others : List InstId} (parts : Sections store func bb phis others)
    {num : Nat} :
    num ∈ endsOf store (store.cfg func) order loops numbers val (bb :: done) ↔
      num ∈ endsIn store (store.cfg func) order numbers bb
        (fun val => endsOf store (store.cfg func) order loops numbers val done) others val ∨
      ∃ last, LoopEnds loops bb last ∧
        ForwardLive store (store.cfg func) order val bb (store.instructions bb) ∧
        num = (numbers.liveInterval last).end := by
  have used : (∃ id ∈ others, val ∈ store.operands id ∧ num = numbers.liveNum id) ↔
      ∃ id ∈ store.instructions bb, val ∈ store.operands id ∧ num = numbers.liveNum id := by
    constructor
    · rintro ⟨id, member, isUse⟩
      exact ⟨id, by rw [parts.whole]; exact List.mem_append_right _ member, isUse⟩
    · rintro ⟨id, member, isUse⟩
      rw [parts.whole, List.mem_append] at member
      rcases member with isPhi | isOther
      · exact absurd (parts.isPhi id isPhi) (not_isPhi_of_mem_operands isUse.1)
      · exact ⟨id, isOther, isUse⟩
  constructor
  · rintro ⟨other, member, isEnd⟩
    by_cases same : other = bb
    · subst same
      rcases isEnd with atEnd | isUse | ⟨defines, equal⟩ | inLoop
      · exact .inl (.inr (.inl atEnd))
      · exact .inl (.inr (.inr (.inl (used.mpr isUse))))
      · exact .inl (.inr (.inr (.inr ⟨parts.defines_iff.mp defines, equal⟩)))
      · exact .inr inLoop
    · exact .inl (.inl ⟨other, by simpa [same] using member, isEnd⟩)
  · rintro ((⟨other, member, isEnd⟩ | atEnd | isUse | ⟨isOther, equal⟩) | inLoop)
    · exact ⟨other, List.mem_cons_of_mem _ member, isEnd⟩
    · exact ⟨bb, List.mem_cons_self, .inl atEnd⟩
    · exact ⟨bb, List.mem_cons_self, .inr (.inl (used.mp isUse))⟩
    · exact ⟨bb, List.mem_cons_self, .inr (.inr (.inl ⟨parts.defines_iff.mpr isOther, equal⟩))⟩
    · exact ⟨bb, List.mem_cons_self, .inr (.inr (.inr inLoop))⟩

/-- The ends known before a block lie behind it. -/
theorem Ranged.past (ordering : Ordering store func order numbers)
    (split : order = front ++ bb :: done)
    (ranged : Ranged store func order loops numbers done ranges) (id : InstId) :
    ∀ num ∈ endsOf store (store.cfg func) order loops numbers id done,
      (numbers.liveInterval bb).end ≤ num := by
  rintro num ⟨other, inDone, isEnd⟩
  have otherMem : other ∈ order := by
    rw [split]
    simp [inDone]
  have apart := ordering.numbering.apart
  rw [split, List.pairwise_append, List.pairwise_cons] at apart
  have before := apart.2.1.1 other inDone
  have later := ordering.start_le_of_blockEnds otherMem
    (fun last => ranged.loopsValid other inDone last id) isEnd
  exact Nat.le_trans before later

/-- The state in which the pass comes to the instructions of a block. -/
theorem Ranged.start (ordering : Ordering store func order numbers)
    (split : order = front ++ bb :: done)
    (ranged : Ranged store func order loops numbers done ranges) {initLiveSet : LiveSet}
    (initial : calcInitLiveSet store (store.cfg func) ranges.liveSets bb = .ok initLiveSet) :
    Within store (store.cfg func) order numbers bb
      (fun val => startsOf store (store.cfg func) order numbers val done)
      (fun val => endsOf store (store.cfg func) order loops numbers val done) ranges []
      initLiveSet (updateAll ranges initLiveSet (numbers.liveInterval bb)) := by
  have member : bb ∈ order := by
    rw [split]
    simp
  have closed : ∀ succ ∈ (store.cfg func).succs bb, succ ∈ order := fun succ isSucc =>
    ordering.mem_iff.mpr (ordering.wellFormed.closed.succs_mem bb (ordering.mem_iff.mp member)
      succ isSucc)
  exact .start (ordering.numbering.unplaced bb) ranged.hulls
    (calcInitLiveSet_eq_ok ordering.nodup split closed ranged.sets initial)

theorem Ranged.block (ordering : Ordering store func order numbers)
    (split : order = front ++ bb :: done)
    (ranged : Ranged store func order loops numbers done ranges)
    (result : calcBlockRange store (store.cfg func) loops numbers ranges bb = .ok after) :
    Ranged store func order loops numbers (bb :: done) after := by
  have member : bb ∈ order := by
    rw [split]
    simp
  have bbMem := ordering.mem_iff.mp member
  rcases sections ordering.wellFormed bbMem with ⟨phis, others, parts⟩
  have past := ranged.past ordering split
  rcases Result.bind_eq_ok.mp result with ⟨block, found, rest⟩
  rcases Result.bind_eq_ok.mp rest with ⟨initLiveSet, initial, rest⟩
  rcases Result.bind_eq_ok.mp rest with ⟨⟨set, afterInsts⟩, insts, rest⟩
  rcases Result.bind_eq_ok.mp rest with ⟨⟨liveIn, toZero⟩, finished, rest⟩
  rcases Result.bind_eq_ok.mp rest with ⟨loopInfo, infoAt, rest⟩
  rw [← Store.instructions_eq (Store.block_eq_ok.mp found)] at insts finished
  have start := ranged.start ordering split initial
  rw [parts.whole, List.reverse_append, List.foldlM_append] at insts
  rcases Result.bind_eq_ok.mp insts with ⟨middle, ofOthers, ofPhis⟩
  have same := calcInstRange_phis (fun id isPhi =>
    parts.isPhi id (List.mem_reverse.mp isPhi)) ofPhis
  rw [← same] at ofOthers
  have within := start.run (fun before id back => ordering.stepwise parts member past) ofOthers
  rcases finishInst_fold finished with ⟨live_iff, zeroed⟩
  have liveIn_iff : ∀ val, val ∈ liveIn ↔
      ForwardLive store (store.cfg func) order val bb (store.instructions bb) := by
    intro val
    have phi_iff : val ∈ store.instructions bb ∧ store.IsPhi val ↔ val ∈ phis := by
      rw [parts.whole, List.mem_append]
      constructor
      · rintro ⟨isPhi | isOther, kind⟩
        · exact isPhi
        · exact absurd kind (parts.notPhis val isOther)
      · intro isPhi
        exact ⟨.inl isPhi, parts.isPhi val isPhi⟩
    rw [live_iff, within.set, phi_iff, ForwardLive, parts.live_iff, and_comm]
  let closing : LiveRanges :=
    { afterInsts with
      liveSets := Function.update afterInsts.liveSets bb (some liveIn)
      toZero := toZero }
  -- The live sets and `toZero` are final; only the loop is missing.
  have sets : SetsOf store (store.cfg func) order (bb :: done) closing.liveSets := by
    have known := ranged.sets
    rw [← within.liveSets] at known
    exact known.insert liveIn_iff
  have zeroed' : ∀ id ∈ closing.toZero, ∃ inst, store.insts id = some inst ∧
      producesValue inst.kind = false := by
    intro id isZero
    rcases zeroed id isZero with old | noValue
    · rw [within.toZero] at old
      exact ranged.toZero id old
    · exact noValue
  by_cases isHeader : loopInfo.header = some bb ∧ loopInfo.reducible = true
  · rw [if_pos isHeader] at rest
    rcases Result.bind_eq_ok.mp rest with ⟨lastBB, lastAt, extended⟩
    rcases extendOverLoop_fold extended with ⟨afterEq, valid⟩
    have updated := updateAll_updatedAll closing liveIn
      { start := (numbers.liveInterval bb).start, «end» := (numbers.liveInterval lastBB).end }
    rw [← afterEq] at updated
    have loopEnds_iff : ∀ last, LoopEnds loops bb last ↔ last = lastBB := by
      intro last
      constructor
      · rintro ⟨info, infoAt', -, -, lastAt'⟩
        cases Except.ok.inj (infoAt.symm.trans infoAt')
        exact Except.ok.inj (lastAt'.symm.trans lastAt)
      · rintro rfl
        exact ⟨loopInfo, infoAt, isHeader.1, isHeader.2, lastAt⟩
    constructor
    case sets => exact updated.liveSets ▸ sets
    case toZero => exact updated.toZero ▸ zeroed'
    case loopsValid =>
      intro other isDone last val ends live
      by_cases same : other = bb
      · subst same
        rw [(loopEnds_iff last).mp ends]
        exact valid (List.ne_nil_of_mem ((liveIn_iff val).mpr live))
      · exact ranged.loopsValid other (by simpa [same] using isDone) last val ends live
    case hulls =>
      intro val
      have hull := within.hulls val
      rw [startsIn_eq parts] at hull
      by_cases isLive : val ∈ liveIn
      · have live := (liveIn_iff val).mp isLive
        have notDefines : ¬ Defines store val bb := fun defines =>
          parts.fresh_of_live (List.nil_append _).symm live defines.1
        have extendedHull := updated.hulls rfl val isLive _ _ hull
        have sameStarts : insert (numbers.liveInterval bb).start
            (startsOf store (store.cfg func) order numbers val (bb :: done)) =
            startsOf store (store.cfg func) order numbers val (bb :: done) :=
          Set.insert_eq_of_mem (.inr ⟨notDefines, .inr ⟨touched_of_live live, rfl⟩⟩)
        have sameEnds : insert (numbers.liveInterval lastBB).end
            (endsIn store (store.cfg func) order numbers bb (fun val =>
              endsOf store (store.cfg func) order loops numbers val done) others val) =
            endsOf store (store.cfg func) order loops numbers val (bb :: done) := by
          ext num
          rw [endsIn_eq parts, Set.mem_insert_iff, or_comm]
          simp [loopEnds_iff, live]
        rw [← sameEnds, ← sameStarts]
        exact extendedHull
      · rw [updated.others val isLive]
        have notLive := mt (liveIn_iff val).mpr isLive
        have sameEnds : endsIn store (store.cfg func) order numbers bb (fun val =>
              endsOf store (store.cfg func) order loops numbers val done) others val =
            endsOf store (store.cfg func) order loops numbers val (bb :: done) := by
          ext num
          rw [endsIn_eq parts]
          simp [notLive]
        rw [← sameEnds]
        exact hull
  · rw [if_neg isHeader] at rest
    have afterEq : closing = after := Except.ok.inj rest
    have noLoop : ∀ last, ¬ LoopEnds loops bb last := by
      rintro last ⟨info, infoAt', header, reducible, -⟩
      cases Except.ok.inj (infoAt.symm.trans infoAt')
      exact isHeader ⟨header, reducible⟩
    rw [← afterEq]
    constructor
    case sets => exact sets
    case toZero => exact zeroed'
    case loopsValid =>
      intro other isDone last val ends live
      by_cases same : other = bb
      · subst same
        exact absurd ends (noLoop last)
      · exact ranged.loopsValid other (by simpa [same] using isDone) last val ends live
    case hulls =>
      intro val
      have hull := within.hulls val
      rw [startsIn_eq parts] at hull
      have sameEnds : endsIn store (store.cfg func) order numbers bb (fun val =>
            endsOf store (store.cfg func) order loops numbers val done) others val =
          endsOf store (store.cfg func) order loops numbers val (bb :: done) := by
        ext num
        rw [endsIn_eq parts]
        simp [noLoop]
      rw [← sameEnds]
      exact hull

end LeechJit.Analysis
