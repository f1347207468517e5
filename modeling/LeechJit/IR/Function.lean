import LeechJit.Graph.GraphTraits
import LeechJit.IR.Inst

/-! # Functions as graphs of blocks -/

namespace LeechJit.IR

namespace Store

def succs (store : Store) (bb : BlockId) : List BlockId :=
  (store.blocks bb).elim [] BasicBlock.succ

def preds (store : Store) (bb : BlockId) : List BlockId :=
  (store.blocks bb).elim [] BasicBlock.pred

def instructions (store : Store) (bb : BlockId) : List InstId :=
  (store.blocks bb).elim [] BasicBlock.instructions

/-- The graph of the blocks `bbs`, entered at `root`. -/
def graphOf (store : Store) (root : BlockId) (bbs : List BlockId) : Graph BlockId where
  nodes := bbs
  entryPoint := root
  succs := store.succs
  preds := store.preds
  id bb := (store.blocks bb).elim 0 BasicBlock.id

def makeBBGraph (store : Store) (func : Function) : Result (Graph BlockId) :=
  match func.bbs with
  | [] => .error .assertFailed
  | root :: rest => .ok (store.graphOf root (root :: rest))

/-- The answer of a predicate that returned. -/
def answer : Result Bool → Bool
  | .ok holds => holds
  | .error _ => false

/-- `std::copy_if` over the instructions of one block. -/
def copyIf (pred : InstId → Result Bool) : List InstId → Result (List InstId)
  | [] => .ok []
  | id :: rest => do
      let holds ← pred id
      let copied ← copyIf pred rest
      return if holds then id :: copied else copied

/-- The instructions that satisfy `pred`, block by block. -/
def collect (store : Store) (pred : InstId → Result Bool) :
    List BlockId → Result (List InstId)
  | [] => .ok []
  | bb :: rest => do
      let block ← store.block bb
      let here ← copyIf pred block.instructions
      let later ← store.collect pred rest
      return here ++ later

theorem answer_eq_true {result : Result Bool} : answer result = true ↔ result = .ok true := by
  cases result with
  | ok holds => cases holds <;> simp [answer]
  | error fault => simp [answer]

theorem copyIf_eq_ok {pred : InstId → Result Bool} {ids copied : List InstId}
    (result : copyIf pred ids = .ok copied) :
    copied = ids.filter (fun id => answer (pred id)) ∧
      ∀ id ∈ ids, ∃ holds, pred id = .ok holds := by
  induction ids generalizing copied with
  | nil =>
      cases result
      simp
  | cons id rest induction =>
      rcases Result.bind_eq_ok.mp result with ⟨holds, decided, continued⟩
      rcases Result.bind_eq_ok.mp continued with ⟨later, tail, equal⟩
      cases equal
      rcases induction tail with ⟨rfl, others⟩
      constructor
      · cases holds <;> simp [decided, answer]
      · intro other member
        cases member with
        | head => exact ⟨holds, decided⟩
        | tail _ member => exact others other member

theorem collect_eq_ok {store : Store} {pred : InstId → Result Bool} {bbs : List BlockId}
    {ids : List InstId} (result : store.collect pred bbs = .ok ids) :
    ids = (bbs.flatMap store.instructions).filter (fun id => answer (pred id)) ∧
      ∀ id ∈ bbs.flatMap store.instructions, ∃ holds, pred id = .ok holds := by
  induction bbs generalizing ids with
  | nil =>
      cases result
      simp
  | cons bb rest induction =>
      rcases Result.bind_eq_ok.mp result with ⟨block, found, continued⟩
      rcases Result.bind_eq_ok.mp continued with ⟨here, first, others⟩
      rcases Result.bind_eq_ok.mp others with ⟨later, tail, equal⟩
      cases equal
      have instructionsEq : store.instructions bb = block.instructions := by
        cases stored : store.blocks bb <;> simp [Store.block, stored] at found
        simp [instructions, stored, found]
      rcases copyIf_eq_ok first with ⟨rfl, decidedHere⟩
      rcases induction tail with ⟨rfl, decidedLater⟩
      constructor
      · simp [instructionsEq]
      · intro id member
        rw [List.flatMap_cons, List.mem_append, instructionsEq] at member
        cases member with
        | inl inBlock => exact decidedHere id inBlock
        | inr inRest => exact decidedLater id inRest

theorem copyIf_returns {pred : InstId → Result Bool} {ids : List InstId}
    (decided : ∀ id ∈ ids, ∃ holds, pred id = .ok holds) : ∃ copied, copyIf pred ids = .ok copied := by
  induction ids with
  | nil => exact ⟨[], rfl⟩
  | cons id rest induction =>
      rcases decided id List.mem_cons_self with ⟨holds, here⟩
      rcases induction fun other member => decided other (List.mem_cons_of_mem _ member) with
        ⟨copied, later⟩
      exact ⟨_, by rw [copyIf, here, Result.ok_bind, later]; rfl⟩

theorem collect_returns {store : Store} {pred : InstId → Result Bool} {bbs : List BlockId}
    (blocks : ∀ bb ∈ bbs, ∃ block, store.blocks bb = some block)
    (decided : ∀ id ∈ bbs.flatMap store.instructions, ∃ holds, pred id = .ok holds) :
    ∃ ids, store.collect pred bbs = .ok ids := by
  induction bbs with
  | nil => exact ⟨[], rfl⟩
  | cons bb rest induction =>
      rcases blocks bb List.mem_cons_self with ⟨block, found⟩
      have instructionsEq : store.instructions bb = block.instructions := by
        rw [instructions, found]
        rfl
      rw [List.flatMap_cons, instructionsEq] at decided
      rcases copyIf_returns fun id member => decided id (List.mem_append_left _ member) with
        ⟨here, copied⟩
      rcases induction (fun other member => blocks other (List.mem_cons_of_mem _ member))
        (fun id member => decided id (List.mem_append_right _ member)) with ⟨later, collected⟩
      have stored : store.block bb = .ok block := by rw [Store.block, found]
      exact ⟨_, by rw [collect, stored, Result.ok_bind, copied, Result.ok_bind, collected]; rfl⟩

end Store

end LeechJit.IR
