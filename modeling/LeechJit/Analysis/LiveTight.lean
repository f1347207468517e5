import LeechJit.Analysis.AllocationSound
import LeechJit.Analysis.LiveAcyclic

/-! # Tight intervals on acyclic code

Along a topological order the pass sees all uses of a value before its definition, so each
interval reaches from the definition to the last use and no further.
-/

namespace LeechJit.Analysis

open IR LeechJit.Graph Dominance

/-- Some instruction of the function has `val` among its inputs. -/
def Used (store : Store) (func : Function) (val : InstId) : Prop :=
  ∃ user ∈ store.listed func, ∃ inst, store.insts user = some inst ∧ val ∈ inst.inputs

/-- What the interval of `val` has to reach: its users that are no phis, and the ends of the
blocks it is live out of. -/
def valueEnds (store : Store) (func : Function) (numbers : LiveNumbers) (val : InstId) :
    Set Nat :=
  { num | (∃ user ∈ store.listed func, val ∈ store.operands user ∧ num = numbers.liveNum user) ∨
    ∃ bb ∈ func.bbs, Live store (store.cfg func) val bb [] ∧
      num = (numbers.liveInterval bb).end }

/-- The interval of each value is the least there can be. -/
structure Tight (store : Store) (func : Function) (analyzer : LivenessAnalyzer) : Prop where
  defined : ∀ val, IsValue store func val → ¬ store.IsPhi val → ∃ interval,
    analyzer.getLiveInterval val = some interval ∧
      interval.start = analyzer.numbers.liveNum val ∧
      IsGreatest (insert (analyzer.numbers.liveNum val + 2)
        (valueEnds store func analyzer.numbers val)) interval.end
  phi : ∀ bb ∈ func.bbs, ∀ val ∈ store.instructions bb, store.IsPhi val → Used store func val →
    ∃ interval, analyzer.getLiveInterval val = some interval ∧
      interval.start = (analyzer.numbers.liveInterval bb).start ∧
      IsGreatest (valueEnds store func analyzer.numbers val) interval.end
  unusedPhi : ∀ val ∈ store.listed func, store.IsPhi val → ¬ Used store func val →
    analyzer.getLiveInterval val = none
  noValue : ∀ val ∈ store.listed func, NoValue store val → ∃ interval,
    analyzer.getLiveInterval val = some interval ∧ interval.empty = true

variable {store : Store} {func : Function} {analyzer : LivenessAnalyzer} {bb home : BlockId}
  {val : InstId} {order : List BlockId} {loops : LoopAnalyzer BlockId} {numbers : LiveNumbers}

/-! ## Uses -/

theorem used_of_live (wellFormed : store.WellFormed func) (member : bb ∈ func.bbs)
    {front rest : List InstId} (split : store.instructions bb = front ++ rest)
    (live : Live store (store.cfg func) val bb rest) : Used store func val := by
  induction live generalizing front with
  | used isUse =>
      rename_i bb id rest
      have inBlock : id ∈ store.instructions bb := by
        rw [split]
        simp
      rcases wellFormed.insts bb member id inBlock with ⟨inst, stored, -⟩
      have notPhi := not_isPhi_of_mem_operands isUse
      have isPhi : inst.kind.isPhi = false := by
        cases kind : inst.kind.isPhi with
        | true => exact absurd ⟨inst, stored, kind⟩ notPhi
        | false => rfl
      refine ⟨id, Store.Consistent.mem_listed member inBlock, inst, stored, ?_⟩
      simpa [Store.operands, stored, isPhi] using isUse
  | skip notDef live induction =>
      rename_i bb id rest
      have shifted : store.instructions bb = (front ++ [id]) ++ rest := by
        rw [split, List.append_assoc, List.singleton_append]
      exact induction member shifted
  | phi jump isUse =>
      rename_i bb succ
      rcases isUse with ⟨id, inSucc, inst, vars, stored, kind, entry, entryMem, -, rfl⟩
      have succMem := wellFormed.closed.succs_mem bb member succ jump
      rcases wellFormed.insts succ succMem id inSucc with ⟨again, foundAgain, fits⟩
      cases Option.some.inj (foundAgain.symm.trans stored)
      have inputs : inst.inputs = vars.map PhiEntry.val := by
        have shaped := fits.shaped
        simp only [Inst.Shaped, kind] at shaped
        exact shaped
      refine ⟨id, Store.Consistent.mem_listed succMem inSucc, inst, stored, ?_⟩
      rw [inputs]
      exact List.mem_map_of_mem entryMem
  | jump jump live induction =>
      rename_i bb succ
      exact induction (wellFormed.closed.succs_mem bb member succ jump) (List.nil_append _).symm

/-- A value is live where it is used. -/
theorem live_of_used (wellFormed : store.WellFormed func) (used : Used store func val) :
    ∃ bb ∈ func.bbs, ∃ front rest, store.instructions bb = front ++ rest ∧
      Live store (store.cfg func) val bb rest := by
  rcases used with ⟨user, listed, inst, stored, isInput⟩
  rcases wellFormed.fits listed stored with ⟨bb, bbMem, inBlock, fits⟩
  cases isPhi : inst.kind.isPhi with
  | false =>
      rcases List.append_of_mem inBlock with ⟨front, back, split⟩
      exact ⟨bb, bbMem, front, user :: back, split,
        .used (by simpa [Store.operands, stored, isPhi] using isInput)⟩
  | true =>
      cases kind : inst.kind with
      | kPhi vars =>
          have shaped := fits.shaped
          simp only [Inst.Shaped, kind] at shaped
          rw [shaped] at isInput
          rcases List.mem_map.mp isInput with ⟨entry, entryMem, rfl⟩
          have isPred : entry.bb ∈ store.preds bb :=
            ((wellFormed.entries bb bbMem user inBlock inst vars stored kind).2 entry.bb).mp
              (List.mem_map_of_mem entryMem)
          have predMem := wellFormed.predsMem bb bbMem entry.bb isPred
          have edge : (store.cfg func).Edge entry.bb bb := by
            have counts := wellFormed.mirrored entry.bb predMem bb bbMem
            rw [Graph.Edge]
            apply List.count_pos_iff.mp
            exact counts ▸ List.count_pos_iff.mpr isPred
          exact ⟨entry.bb, predMem, _, [], (List.append_nil _).symm,
            .phi edge ⟨user, inBlock, inst, vars, stored, kind, entry, entryMem, rfl, rfl⟩⟩
      | _ => simp [kind, InstKind.isPhi] at isPhi

/-- A value that is used is live at the end of its block, or used there. -/
theorem touched_at_home (wellFormed : store.WellFormed func) (homeMem : home ∈ func.bbs)
    (inHome : val ∈ store.instructions home) (used : Used store func val) :
    Live store (store.cfg func) val home [] ∨ Uses store val home := by
  rcases live_of_used wellFormed used with ⟨bb, bbMem, front, rest, split, live⟩
  cases decEq bb home with
  | isTrue same =>
      subst same
      rcases live.cases_rest with ⟨before, id, back, restSplit, -, isUse⟩ | ⟨-, atEnd⟩
      · exact .inr ⟨id, by rw [split, restSplit]; simp, isUse⟩
      · exact .inl atEnd
  | isFalse different =>
      have fresh : val ∉ front := by
        intro inFront
        apply different
        apply wellFormed.home_unique bbMem homeMem _ inHome
        rw [split]
        exact List.mem_append_left _ inFront
      have atStart := LiveAlong.append live fresh
      rw [← split] at atStart
      exact .inl (live_at_end_of_home wellFormed homeMem inHome bbMem atStart)

/-! ## Topological orders -/

/-- All edges of the function lead forwards in `order`, and no block is the header of a loop. -/
structure Straight (store : Store) (func : Function) (order : List BlockId)
    (loops : LoopAnalyzer BlockId) : Prop where
  forwards : ∀ bb ∈ func.bbs, ∀ succ, (store.cfg func).Edge bb succ →
    order.idxOf bb < order.idxOf succ
  noLoops : ∀ bb ∈ func.bbs, ∀ last, ¬ LoopEnds loops bb last

namespace Straight

variable (straight : Straight store func order loops) (wellFormed : store.WellFormed func)

include straight wellFormed

theorem idxOf_le_of_walk {start finish : BlockId} {nodes : List BlockId}
    (startMem : start ∈ func.bbs) (walk : Walk (store.cfg func).Edge start nodes finish) :
    order.idxOf start ≤ order.idxOf finish := by
  induction walk with
  | here node => exact Nat.le_refl _
  | step first rest induction =>
      have nextMem := wellFormed.closed.succs_mem _ startMem _ first
      exact Nat.le_trans (Nat.le_of_lt (straight.forwards _ startMem _ first)) (induction nextMem)

theorem forwardLive_iff (member : bb ∈ func.bbs) {rest : List InstId} :
    ForwardLive store (store.cfg func) order val bb rest ↔
      Live store (store.cfg func) val bb rest := by
  constructor
  · exact ForwardLive.live
  · intro live
    induction live with
    | used isUse => exact .used isUse
    | skip notDef _ induction => exact .skip notDef (induction member)
    | phi jump isUse =>
        exact .phi ⟨jump, Nat.le_of_lt (straight.forwards _ member _ jump)⟩ isUse
    | jump jump _ induction =>
        have succMem := wellFormed.closed.succs_mem _ member _ jump
        exact .jump ⟨jump, straight.forwards _ member _ jump⟩ (induction succMem)

theorem touches_iff (member : bb ∈ func.bbs) : Touches store (store.cfg func) order val bb ↔
    Live store (store.cfg func) val bb [] ∨ Uses store val bb := by
  rw [Touches, straight.forwardLive_iff wellFormed member]

/-- The pass meets no value before the block that defines it. -/
theorem home_le_of_touches (homeMem : home ∈ func.bbs) (inHome : val ∈ store.instructions home)
    (member : bb ∈ func.bbs) (touches : Touches store (store.cfg func) order val bb) :
    order.idxOf home ≤ order.idxOf bb := by
  have live : ∃ front rest, store.instructions bb = front ++ rest ∧
      Live store (store.cfg func) val bb rest := by
    cases (straight.touches_iff wellFormed member).mp touches with
    | inl atEnd => exact ⟨_, [], (List.append_nil _).symm, atEnd⟩
    | inr uses =>
        rcases uses with ⟨id, inBlock, isUse⟩
        rcases List.append_of_mem inBlock with ⟨front, back, split⟩
        exact ⟨front, id :: back, split, .used isUse⟩
  rcases live with ⟨front, rest, split, live⟩
  rcases Walk.of_reachable (wellFormed.reachable bb member) with ⟨nodes, walk⟩
  have onWalk := live_behind_home wellFormed homeMem inHome live split member walk
  rcases List.append_of_mem onWalk with ⟨before, after, rfl⟩
  exact straight.idxOf_le_of_walk wellFormed homeMem walk.split.2

theorem mem_endsOf (perm : order.Perm func.bbs) {num : Nat} :
    num ∈ endsOf store (store.cfg func) order loops numbers val order ↔
      num ∈ valueEnds store func numbers val ∨
        ∃ bb ∈ func.bbs, Defines store val bb ∧ num = numbers.liveNum val + 2 := by
  constructor
  · rintro ⟨bb, inOrder, isEnd⟩
    have member := perm.mem_iff.mp inOrder
    rcases isEnd with ⟨live, equal⟩ | ⟨id, inBlock, isUse, equal⟩ | defines | ⟨last, ends, -⟩
    · exact .inl (.inr ⟨bb, member, (straight.forwardLive_iff wellFormed member).mp live, equal⟩)
    · exact .inl (.inl ⟨id, Store.Consistent.mem_listed member inBlock, isUse, equal⟩)
    · exact .inr ⟨bb, member, defines⟩
    · exact absurd ends (straight.noLoops bb member last)
  · rintro ((⟨user, listed, isUse, equal⟩ | ⟨bb, member, live, equal⟩) | ⟨bb, member, defines⟩)
    · rcases List.mem_flatMap.mp listed with ⟨bb, member, inBlock⟩
      exact ⟨bb, perm.mem_iff.mpr member, .inr (.inl ⟨user, inBlock, isUse, equal⟩)⟩
    · have forward := (straight.forwardLive_iff wellFormed member).mpr live
      exact ⟨bb, perm.mem_iff.mpr member, .inl ⟨forward, equal⟩⟩
    · exact ⟨bb, perm.mem_iff.mpr member, .inr (.inr (.inl defines))⟩

end Straight

/-- The definition is the only start of a value, once it is met. -/
theorem startsOf_defined (numbers : LiveNumbers) {front : List BlockId} (done : List BlockId)
    (defines : Defines store val home)
    (untouched : ∀ bb ∈ front, ¬ Defines store val bb ∧
      ¬ Touches store (store.cfg func) order val bb) :
    startsOf store (store.cfg func) order numbers val (front ++ home :: done) =
      {numbers.liveNum val} := by
  induction front with
  | nil =>
      ext num
      simp [startsOf, defines]
  | cons bb rest induction =>
      rw [List.cons_append]
      ext num
      rw [← induction fun other inRest => untouched other (.tail _ inRest)]
      simp [startsOf, untouched bb (.head _)]

/-- A value that is never defined starts with the blocks that touch it. -/
theorem startsOf_undefined {bbs : List BlockId} (undefined : ∀ bb ∈ bbs, ¬ Defines store val bb)
    {num : Nat} : num ∈ startsOf store (store.cfg func) order numbers val bbs ↔
      ∃ bb ∈ bbs, Touches store (store.cfg func) order val bb ∧
        num = (numbers.liveInterval bb).start := by
  induction bbs with
  | nil => simp [startsOf]
  | cons bb rest induction =>
      have notHere := undefined bb (.head _)
      have later := induction fun other inRest => undefined other (.tail _ inRest)
      simp [startsOf, notHere, later, or_comm]

theorem isValue_of_isPhi (listed : val ∈ store.listed func) (isPhi : store.IsPhi val) :
    IsValue store func val := by
  rcases isPhi with ⟨inst, stored, kind⟩
  refine ⟨listed, inst, stored, ?_⟩
  cases isKind : inst.kind <;> simp [isKind, InstKind.isPhi, producesValue] at *

/-! ## The intervals -/

section Intervals

variable (analyzed : Analyzed store func analyzer)
  (straight : Straight store func analyzer.linearOrder analyzer.loops)

include analyzed straight

theorem tight_defined (isValue : IsValue store func val) (notPhi : ¬ store.IsPhi val) :
    ∃ interval, analyzer.getLiveInterval val = some interval ∧
      interval.start = analyzer.numbers.liveNum val ∧
      IsGreatest (insert (analyzer.numbers.liveNum val + 2)
        (valueEnds store func analyzer.numbers val)) interval.end := by
  have wellFormed := analyzed.ordering.wellFormed
  have perm := analyzed.ordering.perm
  rcases List.mem_flatMap.mp isValue.1 with ⟨home, homeMem, inHome⟩
  have defines : Defines store val home := ⟨inHome, notPhi⟩
  have homeIn := analyzed.mem_linearOrder homeMem
  rcases List.append_of_mem homeIn with ⟨front, done, split⟩
  have untouched : ∀ bb ∈ front, ¬ Defines store val bb ∧
      ¬ Touches store (store.cfg func) analyzer.linearOrder val bb := by
    intro bb inFront
    have inOrder : bb ∈ analyzer.linearOrder := by
      rw [split]
      exact List.mem_append_left _ inFront
    have member := perm.mem_iff.mp inOrder
    have different : bb ≠ home := by
      rintro rfl
      have nodup := analyzed.ordering.nodup
      rw [split] at nodup
      exact (List.nodup_append.mp nodup).2.2 bb inFront bb (.head _) rfl
    have earlier : analyzer.linearOrder.idxOf bb < analyzer.linearOrder.idxOf home := by
      have notLater := mt (idxOf_lt_iff analyzed.ordering.nodup split inOrder).mp fun inDone => by
        have nodup := analyzed.ordering.nodup
        rw [split] at nodup
        exact (List.nodup_append.mp nodup).2.2 bb inFront bb (.tail _ inDone) rfl
      have apart : analyzer.linearOrder.idxOf bb ≠ analyzer.linearOrder.idxOf home :=
        fun equal => different ((List.idxOf_inj inOrder).mp equal)
      omega
    constructor
    · exact fun definesHere =>
        different (wellFormed.home_unique member homeMem definesHere.1 inHome)
    · intro touches
      have notBefore := straight.home_le_of_touches wellFormed homeMem inHome member touches
      omega
  have hull := analyzed.hulls val isValue
  have starts := startsOf_defined analyzer.numbers done defines untouched
  rw [← split] at starts
  have ends : endsOf store (store.cfg func) analyzer.linearOrder analyzer.loops analyzer.numbers
      val analyzer.linearOrder = insert (analyzer.numbers.liveNum val + 2)
        (valueEnds store func analyzer.numbers val) := by
    ext num
    rw [straight.mem_endsOf wellFormed perm, Set.mem_insert_iff, or_comm]
    exact or_congr_left ⟨fun ⟨_, _, _, equal⟩ => equal, fun equal => ⟨home, homeMem, defines, equal⟩⟩
  rw [starts, ends] at hull
  cases known : analyzer.getLiveInterval val with
  | none =>
      rw [known] at hull
      exact absurd hull.1 (Set.singleton_ne_empty _)
  | some interval =>
      rw [known] at hull
      exact ⟨interval, rfl, hull.1.1, hull.2.1⟩

/-- Where a phi is touched. -/
theorem mem_startsOf_phi (isPhi : store.IsPhi val) {num : Nat} :
    num ∈ startsOf store (store.cfg func) analyzer.linearOrder analyzer.numbers val
        analyzer.linearOrder ↔
      ∃ bb ∈ func.bbs, (Live store (store.cfg func) val bb [] ∨ Uses store val bb) ∧
        num = (analyzer.numbers.liveInterval bb).start := by
  have wellFormed := analyzed.ordering.wellFormed
  have perm := analyzed.ordering.perm
  rw [startsOf_undefined fun _ _ defines => defines.2 isPhi]
  apply exists_congr
  intro other
  rw [perm.mem_iff]
  apply and_congr_right
  intro otherMem
  rw [straight.touches_iff wellFormed otherMem]

theorem endsOf_phi (isPhi : store.IsPhi val) :
    endsOf store (store.cfg func) analyzer.linearOrder analyzer.loops analyzer.numbers val
      analyzer.linearOrder = valueEnds store func analyzer.numbers val := by
  ext num
  rw [straight.mem_endsOf analyzed.ordering.wellFormed analyzed.ordering.perm]
  apply or_iff_left
  rintro ⟨other, -, defines, -⟩
  exact defines.2 isPhi

theorem tight_phi (member : bb ∈ func.bbs) (inBlock : val ∈ store.instructions bb)
    (isPhi : store.IsPhi val) (used : Used store func val) :
    ∃ interval, analyzer.getLiveInterval val = some interval ∧
      interval.start = (analyzer.numbers.liveInterval bb).start ∧
      IsGreatest (valueEnds store func analyzer.numbers val) interval.end := by
  have wellFormed := analyzed.ordering.wellFormed
  have hull := analyzed.hulls val
    (isValue_of_isPhi (Store.Consistent.mem_listed member inBlock) isPhi)
  rw [endsOf_phi analyzed straight isPhi] at hull
  have here := (mem_startsOf_phi analyzed straight isPhi).mpr
    ⟨bb, member, touched_at_home wellFormed member inBlock used, rfl⟩
  rcases hull.exists_of_start here with ⟨interval, known, notAfter⟩
  rw [known] at hull
  refine ⟨interval, known, Nat.le_antisymm notAfter ?_, hull.2.1⟩
  -- All blocks that touch the phi come behind its own.
  rcases (mem_startsOf_phi analyzed straight isPhi).mp hull.1.1 with
    ⟨other, otherMem, touches, equal⟩
  rw [← straight.touches_iff wellFormed otherMem] at touches
  rw [equal, analyzed.ordering.start_le_start_iff (analyzed.mem_linearOrder member)
    (analyzed.mem_linearOrder otherMem)]
  exact straight.home_le_of_touches wellFormed member inBlock otherMem touches

theorem tight_unused (member : bb ∈ func.bbs) (inBlock : val ∈ store.instructions bb)
    (isPhi : store.IsPhi val) (unused : ¬ Used store func val) :
    analyzer.getLiveInterval val = none := by
  have wellFormed := analyzed.ordering.wellFormed
  have hull := analyzed.hulls val
    (isValue_of_isPhi (Store.Consistent.mem_listed member inBlock) isPhi)
  cases known : analyzer.getLiveInterval val with
  | none => rfl
  | some interval =>
      rw [known] at hull
      rcases (mem_startsOf_phi analyzed straight isPhi).mp hull.1.1 with
        ⟨other, otherMem, atEnd | ⟨id, inOther, isUse⟩, -⟩
      · exact absurd (used_of_live wellFormed otherMem (List.append_nil _).symm atEnd) unused
      · rcases List.append_of_mem inOther with ⟨front, back, split⟩
        exact absurd (used_of_live wellFormed otherMem split (.used isUse)) unused

end Intervals

theorem make_zeroes (wellFormed : store.WellFormed func)
    (returns : LivenessAnalyzer.make store (store.cfg func) = .ok analyzer)
    (listed : val ∈ store.listed func) (noValue : NoValue store val) :
    ∃ interval, analyzer.getLiveInterval val = some interval ∧ interval.empty = true := by
  have perm := (make_analyzed wellFormed returns).ordering.perm
  rcases Result.bind_eq_ok.mp returns with ⟨loops, -, rest⟩
  rcases Result.bind_eq_ok.mp rest with ⟨linearOrder, -, rest⟩
  rcases Result.bind_eq_ok.mp rest with ⟨-, -, rest⟩
  rcases Result.bind_eq_ok.mp rest with ⟨numbers, -, rest⟩
  rcases Result.bind_eq_ok.mp rest with ⟨final, calculated, equal⟩
  cases equal
  rcases Result.bind_eq_ok.mp calculated with ⟨ranges, passed, zeroed⟩
  apply zeroInterval_fold_empty zeroed
  apply (calcBlockRange_fold_toZero passed).mpr
  rcases List.mem_flatMap.mp listed with ⟨bb, member, inBlock⟩
  have inOrder : bb ∈ linearOrder.reverse := List.mem_reverse.mpr (perm.mem_iff.mpr member)
  exact .inr ⟨List.mem_flatMap.mpr ⟨bb, inOrder, inBlock⟩, noValue⟩

theorem make_straight (wellFormed : store.WellFormedAcyclic func)
    (returns : LivenessAnalyzer.make store (store.cfg func) = .ok analyzer) :
    Straight store func analyzer.linearOrder analyzer.loops := by
  have acyclic : wellFormed.toCfg.Acyclic := wellFormed.acyclic
  rcases make_acyclic acyclic with ⟨loops, made, free⟩
  have ordered : buildLinearOrder (store.cfg func) loops =
      .ok (store.cfg func).depthFirstSearchReversePostOrder := buildLinearOrder_acyclic free
  rcases Result.bind_eq_ok.mp returns with ⟨loops', made', rest⟩
  cases Except.ok.inj (made'.symm.trans made)
  rcases Result.bind_eq_ok.mp rest with ⟨linearOrder, ordered', rest⟩
  cases Except.ok.inj (ordered'.symm.trans ordered)
  rcases Result.bind_eq_ok.mp rest with ⟨-, -, rest⟩
  rcases Result.bind_eq_ok.mp rest with ⟨numbers, -, rest⟩
  rcases Result.bind_eq_ok.mp rest with ⟨ranges, -, equal⟩
  cases equal
  constructor
  case forwards =>
    intro bb member succ edge
    have topological := wellFormed.acyclic.topological wellFormed.closed
    exact topological.forwards bb succ (wellFormed.reachable bb member) edge
  case noLoops =>
    rintro bb member last ⟨info, infoAt, header, -, -⟩
    rcases free bb member with ⟨info', infoAt', noHeader⟩
    cases Except.ok.inj (infoAt.symm.trans infoAt')
    rw [noHeader] at header
    cases header

/-- On a function without loops whose returns carry values the analyzer returns, and the
interval of each value is tight. -/
theorem make_tight (wellFormed : store.WellFormedAcyclic func)
    (carries : store.RetsCarryValues func) :
    ∃ graph analyzer, store.makeBBGraph func = .ok graph ∧
      LivenessAnalyzer.make store graph = .ok analyzer ∧ Tight store func analyzer := by
  rcases make_returns wellFormed carries with ⟨analyzer, returns⟩
  have analyzed := make_analyzed wellFormed.toWellFormed returns
  have straight := make_straight wellFormed returns
  refine ⟨_, analyzer, Store.makeBBGraph_eq wellFormed.nonempty, returns, ?_⟩
  constructor
  case defined => exact fun val => tight_defined analyzed straight
  case phi => exact fun bb member val => tight_phi analyzed straight member
  case unusedPhi =>
    intro val listed isPhi unused
    rcases List.mem_flatMap.mp listed with ⟨bb, member, inBlock⟩
    exact tight_unused analyzed straight member inBlock isPhi unused
  case noValue => exact fun val => make_zeroes wellFormed.toWellFormed returns

/-- A branch on a parameter whose sides meet at two phis, one of them unused. -/
def meeting : Store :=
  .ofTables
    [{ type := .I1, kind := .kParam 0, users := [2], bb := some 0 },
      { type := .I64, kind := .kConst (.I64 5), users := [6, 7], bb := some 0 },
      { kind := .kIf 1 2, bb := some 0, inputs := [0] },
      { kind := .kJump 3, bb := some 1 },
      { type := .I64, kind := .kConst (.I64 7), users := [6, 7], bb := some 2 },
      { kind := .kJump 3, bb := some 2 },
      { type := .I64, kind := .kPhi [⟨1, 1⟩, ⟨4, 2⟩], users := [8], bb := some 3, inputs := [1, 4] },
      { type := .I64, kind := .kPhi [⟨1, 1⟩, ⟨4, 2⟩], bb := some 3, inputs := [1, 4] },
      { kind := .kRet, bb := some 3, inputs := [6] }]
    [{ instructions := [0, 1, 2], succ := [1, 2], id := 0 },
      { instructions := [3], pred := [0], succ := [3], id := 1 },
      { instructions := [4, 5], pred := [0], succ := [3], id := 2 },
      { instructions := [6, 7, 8], pred := [1, 2], id := 3 }] []

theorem meeting_wellFormed : meeting.WellFormedAcyclic fourBlocks where
  toWellFormed := Store.checkWellFormed_sound rfl
  ids := by decide
  acyclic := .of_index (by decide) (fun bb => bb) (by decide)

theorem meeting_carries : meeting.RetsCarryValues fourBlocks := by
  have carries : ∀ id ∈ meeting.listed fourBlocks, ∀ inst ∈ meeting.insts id,
      inst.kind = .kRet → inst.inputs ≠ [] := by decide
  exact carries

theorem make_tight_meeting :
    ∃ graph analyzer, meeting.makeBBGraph fourBlocks = .ok graph ∧
      LivenessAnalyzer.make meeting graph = .ok analyzer ∧ Tight meeting fourBlocks analyzer :=
  make_tight meeting_wellFormed meeting_carries

end LeechJit.Analysis
