import LeechJit.IR.Coherence

/-! # Functions whose executions find their operands

What an execution relies on, without the users sets: definitions dominate their uses, and
each block ends in its only branch or return.
-/

namespace LeechJit.IR.Store

variable {store : Store} {func : Function} {id value : InstId} {front back rest : List InstId}
  {bb other : BlockId} {inst : Inst}

/-- The instructions stand in one block each, operands are defined before they are used, and the
last instruction of a block, and no other one, leaves it. -/
structure Grounded (store : Store) (func : Function) : Prop where
  stored : ∀ id ∈ store.listed func, ∃ inst, store.insts id = some inst
  inputs : ∀ id ∈ store.listed func, ∀ input ∈ store.inputs id, input ∈ store.listed func
  nodup : (store.listed func).Nodup
  closed : (store.cfg func).Closed
  reachable : ∀ bb ∈ func.bbs, (store.cfg func).Reachable bb
  usesDefined : store.UsesDefined func Set.univ
  ends : ∀ bb ∈ func.bbs, ∃ front last inst, store.instructions bb = front ++ [last] ∧
    store.insts last = some inst ∧ inst.kind.isTerminator = true ∧
    store.succs bb = inst.kind.targets ∧
    ∀ id ∈ front, ∀ other, store.insts id = some other → other.kind.isTerminator = false

/-- No block has what another one has. -/
theorem home_unique_of_nodup (nodup : (store.listed func).Nodup) (bbMem : bb ∈ func.bbs)
    (otherMem : other ∈ func.bbs) (inBlock : id ∈ store.instructions bb)
    (inOther : id ∈ store.instructions other) : bb = other := by
  by_contra different
  have apart := (List.nodup_flatMap.mp nodup).2
  have : Std.Symm (Function.onFun List.Disjoint store.instructions) :=
    ⟨fun _ _ disjoint _ inLeft inRight => disjoint inRight inLeft⟩
  exact apart.forall bbMem otherMem different inBlock inOther

theorem WellFormed.grounded (wellFormed : store.WellFormed func) : store.Grounded func where
  stored := wellFormed.housed.linked.stored
  inputs := wellFormed.housed.linked.inputs
  nodup := wellFormed.nodup
  closed := wellFormed.closed
  reachable := wellFormed.reachable
  usesDefined := wellFormed.usesDefined _
  ends := wellFormed.branches

namespace Grounded

variable (grounded : store.Grounded func)

include grounded

theorem home_unique (bbMem : bb ∈ func.bbs) (otherMem : other ∈ func.bbs)
    (inBlock : id ∈ store.instructions bb) (inOther : id ∈ store.instructions other) :
    bb = other :=
  home_unique_of_nodup grounded.nodup bbMem otherMem inBlock inOther

theorem instructions_nodup (bbMem : bb ∈ func.bbs) : (store.instructions bb).Nodup :=
  (List.nodup_flatMap.mp grounded.nodup).1 bb bbMem

/-- An instruction stands in its block once. -/
theorem split_unique (bbMem : bb ∈ func.bbs) {front' back' : List InstId}
    (split : store.instructions bb = front ++ id :: back)
    (again : store.instructions bb = front' ++ id :: back') : front = front' ∧ back = back' := by
  have nodup := grounded.instructions_nodup bbMem
  rw [split] at nodup again
  have alone := (List.nodup_cons.mp (List.nodup_middle.mp nodup)).1
  rw [List.mem_append, not_or] at alone
  have parts := (List.append_cons_inj_of_notMem alone.1 alone.2).mp again
  exact ⟨parts.1, parts.2.2⟩

/-- What leaves a block is its last instruction. -/
theorem last_of_terminator (bbMem : bb ∈ func.bbs)
    (split : store.instructions bb = front ++ id :: back) (found : store.insts id = some inst)
    (terminates : inst.kind.isTerminator = true) :
    back = [] ∧ store.succs bb = inst.kind.targets := by
  rcases grounded.ends bb bbMem with ⟨others, last, own, ends, foundOwn, -, succs, notTerminators⟩
  have isLast : id = last := by
    have member : id ∈ others ++ [last] := by
      rw [← ends, split]
      simp
    rcases List.mem_append.mp member with inOthers | isLast
    · rw [notTerminators id inOthers inst found] at terminates
      cases terminates
    · exact List.mem_singleton.mp isLast
  subst isLast
  cases Option.some.inj (found.symm.trans foundOwn)
  exact ⟨(grounded.split_unique bbMem split ends).2, succs⟩

theorem branches (bbMem : bb ∈ func.bbs) (split : store.instructions bb = front ++ id :: back)
    (found : store.insts id = some inst) {target : BlockId} (isTarget : target ∈ inst.kind.targets) :
    back = [] ∧ target ∈ store.succs bb := by
  have terminates : inst.kind.isTerminator = true := by
    cases kind : inst.kind with
    | kIf _ _ | kJump _ => rfl
    | _ =>
        rw [kind] at isTarget
        cases isTarget
  rcases grounded.last_of_terminator bbMem split found terminates with ⟨isLast, succs⟩
  exact ⟨isLast, succs ▸ isTarget⟩

theorem inOrder_nodup : (store.inOrder func).Nodup :=
  ((Graph.reversePostOrder_perm grounded.closed grounded.reachable).flatMap_right
    store.instructions).nodup_iff.mpr grounded.nodup

/-- What is defined before an instruction is another one, and does not use it. -/
theorem not_uses (bbMem : bb ∈ func.bbs) (split : store.instructions bb = front ++ id :: back)
    (found : store.insts value = some inst) (notPhi : inst.kind.isPhi = false)
    (defined : value = id ∨ store.DefinedBefore func value bb front) : id ∉ inst.inputs := by
  intro uses
  have home : ∃ home ∈ func.bbs, value ∈ store.instructions home := by
    rcases defined with rfl | here | ⟨dom, domMem, inDom, -⟩
    · exact ⟨bb, bbMem, by simp [split]⟩
    · exact ⟨bb, bbMem, by simp [split, here]⟩
    · exact ⟨dom, domMem, inDom⟩
  rcases home with ⟨home, homeMem, inHome⟩
  rcases List.append_of_mem inHome with ⟨before, after, splitHome⟩
  have earlier := grounded.usesDefined.uses home homeMem before value after splitHome inst found
    notPhi id uses (Set.mem_univ _)
  have first := Graph.idxOf_lt_of_sublist grounded.inOrder_nodup
    (inOrder_sublist grounded.closed (grounded.reachable home homeMem) splitHome earlier)
  rcases defined with rfl | defined
  · exact Nat.lt_irrefl _ first
  · have second := Graph.idxOf_lt_of_sublist grounded.inOrder_nodup
      (inOrder_sublist grounded.closed (grounded.reachable bb bbMem) split defined)
    exact Nat.lt_asymm first second

end Grounded

end LeechJit.IR.Store
