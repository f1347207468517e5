import LeechJit.IR.Function

/-! # Liveness

A value is live at a point when a path from there reaches a use of it and does
not pass its definition. The operands of a phi are used at the ends of the
predecessors of its block.
-/

namespace LeechJit.IR

namespace Store

/-- The operands an instruction reads where it stands. -/
def operands (store : Store) (id : InstId) : List InstId :=
  match store.insts id with
  | some inst => if inst.kind.isPhi then [] else inst.inputs
  | none => []

def IsPhi (store : Store) (id : InstId) : Prop :=
  ∃ inst, store.insts id = some inst ∧ inst.kind.isPhi = true

/-- A phi of block `succ` has the operand `val` for its predecessor `bb`. -/
def PhiUse (store : Store) (val : InstId) (bb succ : BlockId) : Prop :=
  ∃ id ∈ store.instructions succ, ∃ inst vars, store.insts id = some inst ∧
    inst.kind = .kPhi vars ∧ ∃ entry ∈ vars, entry.bb = bb ∧ entry.val = val

end Store

/-- `val` is live in block `bb` before the instructions that remain, along paths
whose jumps are `edge`s and whose last jump, if it is to a phi, is a `phiEdge`. -/
inductive LiveAlong (store : Store) (edge phiEdge : BlockId → BlockId → Prop) (val : InstId) :
    BlockId → List InstId → Prop where
  | used {bb : BlockId} {id : InstId} {rest : List InstId} (isUse : val ∈ store.operands id) :
      LiveAlong store edge phiEdge val bb (id :: rest)
  | skip {bb : BlockId} {id : InstId} {rest : List InstId} (notDef : val ≠ id)
      (later : LiveAlong store edge phiEdge val bb rest) :
      LiveAlong store edge phiEdge val bb (id :: rest)
  | phi {bb succ : BlockId} (jump : phiEdge bb succ) (isUse : store.PhiUse val bb succ) :
      LiveAlong store edge phiEdge val bb []
  | jump {bb succ : BlockId} (jump : edge bb succ)
      (later : LiveAlong store edge phiEdge val succ (store.instructions succ)) :
      LiveAlong store edge phiEdge val bb []

/-- Liveness in the flow graph. -/
def Live (store : Store) (graph : Graph BlockId) : InstId → BlockId → List InstId → Prop :=
  LiveAlong store graph.Edge graph.Edge

/-- Liveness along paths that only go forward in a linear order, or from a block to
a phi of its own. -/
def ForwardLive (store : Store) (graph : Graph BlockId) (order : List BlockId) :
    InstId → BlockId → List InstId → Prop :=
  LiveAlong store (fun bb succ => graph.Edge bb succ ∧ order.idxOf bb < order.idxOf succ)
    fun bb succ => graph.Edge bb succ ∧ order.idxOf bb ≤ order.idxOf succ

namespace LiveAlong

variable {store : Store} {edge phiEdge : BlockId → BlockId → Prop} {val : InstId}
  {bb : BlockId} {front rest : List InstId}

/-- Fewer edges, less liveness. -/
theorem mono {edge' phiEdge' : BlockId → BlockId → Prop}
    (live : LiveAlong store edge phiEdge val bb rest)
    (edges : ∀ bb succ, edge bb succ → edge' bb succ)
    (phiEdges : ∀ bb succ, phiEdge bb succ → phiEdge' bb succ) :
    LiveAlong store edge' phiEdge' val bb rest := by
  induction live with
  | used isUse => exact .used isUse
  | skip notDef _ induction => exact .skip notDef induction
  | phi jump isUse => exact .phi (phiEdges _ _ jump) isUse
  | jump jump _ induction => exact .jump (edges _ _ jump) induction

/-- A value not defined in between is live there too. -/
theorem append (live : LiveAlong store edge phiEdge val bb rest) (notDefined : val ∉ front) :
    LiveAlong store edge phiEdge val bb (front ++ rest) := by
  induction front with
  | nil => exact live
  | cons id front induction =>
      rw [List.mem_cons, not_or] at notDefined
      exact .skip notDefined.1 (induction notDefined.2)

/-- A live value is used in the rest of the block or live at its end. -/
theorem cases_rest (live : LiveAlong store edge phiEdge val bb rest) :
    (∃ front id back, rest = front ++ id :: back ∧ val ∉ front ∧ val ∈ store.operands id) ∨
      (val ∉ rest ∧ LiveAlong store edge phiEdge val bb []) := by
  induction rest with
  | nil => exact .inr ⟨List.not_mem_nil, live⟩
  | cons id rest induction =>
      cases live with
      | used isUse => exact .inl ⟨[], id, rest, rfl, List.not_mem_nil, isUse⟩
      | skip notDef later =>
          rcases induction later with ⟨front, user, back, split, fresh, isUse⟩ | ⟨fresh, atEnd⟩
          · refine .inl ⟨id :: front, user, back, by rw [split, List.cons_append], ?_, isUse⟩
            exact not_or.mpr ⟨notDef, fresh⟩ ∘ List.mem_cons.mp
          · exact .inr ⟨not_or.mpr ⟨notDef, fresh⟩ ∘ List.mem_cons.mp, atEnd⟩

theorem nil_iff : LiveAlong store edge phiEdge val bb [] ↔
    ∃ succ, (phiEdge bb succ ∧ store.PhiUse val bb succ) ∨
      (edge bb succ ∧ LiveAlong store edge phiEdge val succ (store.instructions succ)) := by
  constructor
  · intro live
    cases live with
    | phi jump isUse => exact ⟨_, .inl ⟨jump, isUse⟩⟩
    | jump jump later => exact ⟨_, .inr ⟨jump, later⟩⟩
  · rintro ⟨succ, ⟨jump, isUse⟩ | ⟨jump, later⟩⟩
    · exact .phi jump isUse
    · exact .jump jump later

theorem cons_iff {id : InstId} : LiveAlong store edge phiEdge val bb (id :: rest) ↔
    val ∈ store.operands id ∨ (val ≠ id ∧ LiveAlong store edge phiEdge val bb rest) := by
  constructor
  · intro live
    cases live with
    | used isUse => exact .inl isUse
    | skip notDef later => exact .inr ⟨notDef, later⟩
  · rintro (isUse | ⟨notDef, later⟩)
    · exact .used isUse
    · exact .skip notDef later

end LiveAlong

theorem ForwardLive.live {store : Store} {graph : Graph BlockId} {order : List BlockId}
    {val : InstId} {bb : BlockId} {rest : List InstId}
    (live : ForwardLive store graph order val bb rest) : Live store graph val bb rest :=
  LiveAlong.mono live (fun _ _ jump => jump.1) fun _ _ jump => jump.1

end LeechJit.IR
