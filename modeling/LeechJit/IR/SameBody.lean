import LeechJit.IR.Execution
import LeechJit.IR.Supplied

/-! # The same function in another store

What a change elsewhere leaves: the blocks, where they lead, and the instructions in them with
their operands, but not their users.
-/

namespace LeechJit.IR.Store

open Steps

variable {World : Type} {store store' : Store} {func : Function} {id : InstId} {bb : BlockId}
  {meaning : Meaning World} {args : List ConstVal} {world : World} {config next : Config World}
  {result : Option ConstVal × World}

/-- Both stores have the same blocks and instructions for the function. -/
structure SameBody (store store' : Store) (func : Function) : Prop where
  lists : ∀ bb ∈ func.bbs, store'.instructions bb = store.instructions bb
  succs : ∀ bb ∈ func.bbs, store'.succs bb = store.succs bb
  insts : ∀ id ∈ store.listed func, ∀ inst, store.insts id = some inst →
    ∃ inst', store'.insts id = some inst' ∧ inst'.type = inst.type ∧ inst'.kind = inst.kind ∧
      inst'.inputs = inst.inputs

/-- The execution is in a block of the function, with the rest of it ahead. -/
def Within (store : Store) (func : Function) (config : Config World) : Prop :=
  config.bb ∈ func.bbs ∧ ∃ front, store.instructions config.bb = front ++ config.rest

theorem Grounded.within_goes (grounded : store.Grounded func) (within : store.Within func config)
    (steps : store.step meaning args config = some (.goes next)) : store.Within func next := by
  rcases within with ⟨bbMem, front, placed⟩
  rcases step_eq_some steps with ⟨id, rest, inst, action, isRest, found, acts, performs⟩
  rw [isRest] at placed
  cases action with
  | value val world =>
      cases performs
      exact ⟨bbMem, front ++ [id], by rw [placed, List.append_assoc]; rfl⟩
  | jump target =>
      cases performs
      have edge := (grounded.branches bbMem placed found (Meaning.target_mem acts)).2
      exact ⟨grounded.closed.succs_mem _ bbMem target edge, [], rfl⟩
  | ret val => cases performs

namespace SameBody

variable (same : store.SameBody store' func)

include same

theorem listed_eq : store'.listed func = store.listed func :=
  List.flatMap_congr same.lists

theorem kindOf_eq (grounded : store.Grounded func) (member : id ∈ store.listed func) :
    store'.kindOf id = store.kindOf id := by
  rcases grounded.stored id member with ⟨inst, found⟩
  rcases same.insts id member inst found with ⟨inst', found', -, kind, -⟩
  rw [Store.kindOf_eq found, Store.kindOf_eq found', kind]

theorem inputs_eq (grounded : store.Grounded func) (member : id ∈ store.listed func) :
    store'.inputs id = store.inputs id := by
  rcases grounded.stored id member with ⟨inst, found⟩
  rcases same.insts id member inst found with ⟨inst', found', -, -, inputs⟩
  rw [Store.inputs_eq found, Store.inputs_eq found', inputs]

/-- What the other store has for an instruction of the function. -/
theorem inst_of (grounded : store.Grounded func) (member : id ∈ store.listed func) {inst' : Inst}
    (found' : store'.insts id = some inst') : ∃ inst, store.insts id = some inst ∧
      inst'.type = inst.type ∧ inst'.kind = inst.kind ∧ inst'.inputs = inst.inputs := by
  rcases grounded.stored id member with ⟨inst, found⟩
  rcases same.insts id member inst found with ⟨again, foundAgain, parts⟩
  cases Option.some.inj (found'.symm.trans foundAgain)
  exact ⟨inst, found, parts⟩

theorem closed (closed : (store.cfg func).Closed) : (store'.cfg func).Closed where
  nodup := closed.nodup
  entry_mem := closed.entry_mem
  succs_mem := by
    intro bb bbMem succ edge
    change succ ∈ store'.succs bb at edge
    rw [same.succs bb bbMem] at edge
    exact closed.succs_mem bb bbMem succ edge

theorem reachable_iff (closed : (store.cfg func).Closed) :
    (store'.cfg func).Reachable bb ↔ (store.cfg func).Reachable bb := by
  have sameEntry : (store'.cfg func).entryPoint = (store.cfg func).entryPoint := rfl
  exact closed.reachable_iff sameEntry same.succs

theorem namesPreds (grounded : store.Grounded func) (named : store.NamesPreds func) :
    store'.NamesPreds func := by
  intro bb bbMem id inBlock vars isPhi
  rw [same.lists bb bbMem] at inBlock
  have member := Consistent.mem_listed bbMem inBlock
  rw [same.kindOf_eq grounded member] at isPhi
  have names := named bb bbMem id inBlock vars isPhi
  constructor
  case length =>
    rw [same.inputs_eq grounded member]
    exact names.length
  case entries =>
    intro entry isEntry
    rcases names.entries entry isEntry with ⟨entryMem, edge⟩
    rw [same.succs entry.bb entryMem]
    exact ⟨entryMem, edge⟩

/-- What reaches a block is available there in the other store too. -/
theorem supplied (grounded : store.Grounded func) (named : store.NamesPreds func) :
    store'.Supplied func (store.reaches func) where
  start _ := not_reaches_root
  flow pred bb reachable edge value reaches := by
    have predMem := (same.closed grounded.closed).mem_of_reachable reachable
    change bb ∈ store'.succs pred at edge
    rw [same.succs pred predMem] at edge
    refine (reaches_pred edge reaches).imp_right fun inBlock => ?_
    change value ∈ store'.instructions pred
    rwa [same.lists pred predMem]
  uses bb bbMem front id back split inst' found' notPhi input isInput := by
    rw [same.lists bb bbMem] at split
    have member : id ∈ store.listed func := Consistent.mem_listed bbMem (by simp [split])
    rcases same.inst_of grounded member found' with ⟨inst, found, -, kind, inputs⟩
    rw [inputs] at isInput
    exact definedBefore_iff_reaches.mp (grounded.usesDefined.uses bb bbMem front id back split inst
      found (kind ▸ notPhi) input isInput (Set.mem_univ _))
  phiUses bb bbMem id inBlock inst' vars found' isPhi value entry matched := by
    rw [same.lists bb bbMem] at inBlock
    have member := Consistent.mem_listed bbMem inBlock
    rcases same.inst_of grounded member found' with ⟨inst, found, -, kind, inputs⟩
    rw [kind] at isPhi
    rw [inputs] at matched
    have isVars : store.kindOf id = some (.kPhi vars) := by rw [Store.kindOf_eq found, isPhi]
    have isEntry := (List.of_mem_zip matched).2
    have entryMem := ((named bb bbMem id inBlock vars isVars).entries entry isEntry).1
    rw [same.lists entry.bb entryMem, ← definedAtEnd_iff_reaches entryMem]
    exact grounded.usesDefined.phiUses bb bbMem id inBlock inst vars found isPhi value entry
      matched (Set.mem_univ _)

theorem grounded (grounded : store.Grounded func) (named : store.NamesPreds func) :
    store'.Grounded func where
  stored id member := by
    rw [same.listed_eq] at member
    rcases grounded.stored id member with ⟨inst, found⟩
    rcases same.insts id member inst found with ⟨inst', found', -⟩
    exact ⟨inst', found'⟩
  inputs id member := by
    rw [same.listed_eq] at member ⊢
    rw [same.inputs_eq grounded member]
    exact grounded.inputs id member
  nodup := same.listed_eq ▸ grounded.nodup
  closed := same.closed grounded.closed
  reachable bb bbMem := (same.reachable_iff grounded.closed).mpr (grounded.reachable bb bbMem)
  usesDefined := (same.supplied grounded named).usesDefined (same.closed grounded.closed)
    (fun bb bbMem => (same.reachable_iff grounded.closed).mpr (grounded.reachable bb bbMem))
    (same.listed_eq ▸ grounded.nodup) (same.namesPreds grounded named)
  ends bb bbMem := by
    rcases grounded.ends bb bbMem with ⟨front, last, inst, ends, found, terminates, succs, goesOn⟩
    have member : ∀ id ∈ front ++ [last], id ∈ store.listed func := by
      rw [← ends]
      exact fun id => Consistent.mem_listed bbMem
    rcases same.insts last (member last (by simp)) inst found with ⟨inst', found', -, kind, -⟩
    refine ⟨front, last, inst', (same.lists bb bbMem).trans ends, found', kind ▸ terminates, ?_, ?_⟩
    · rw [same.succs bb bbMem, kind, succs]
    · intro id inFront other foundOther
      rcases same.inst_of grounded (member id (by simp [inFront])) foundOther with
        ⟨own, foundOwn, -, kind, -⟩
      exact kind ▸ goesOn id inFront own foundOwn

/-! ## Executions -/

theorem step_eq (grounded : store.Grounded func) (within : store.Within func config) :
    store'.step meaning args config = store.step meaning args config := by
  rcases within with ⟨bbMem, front, placed⟩
  cases isRest : config.rest with
  | nil => simp [Store.step, isRest]
  | cons id rest =>
      rw [isRest] at placed
      have member : id ∈ store.listed func := Consistent.mem_listed bbMem (by simp [placed])
      rcases grounded.stored id member with ⟨inst, found⟩
      rcases same.insts id member inst found with ⟨inst', found', type, kind, inputs⟩
      have reads : inst'.reads config = inst.reads config := by
        simp only [Inst.reads, kind, inputs]
      rw [Store.step_eq isRest found, Store.step_eq isRest found', type, kind, reads]
      cases acts : meaning.act args inst.type inst.kind (inst.reads config) config.world with
      | none => rfl
      | some action =>
          cases action with
          | value _ _ | ret _ => rfl
          | jump target =>
              have edge := (grounded.branches bbMem placed found (Meaning.target_mem acts)).2
              have targetMem := grounded.closed.succs_mem _ bbMem target edge
              simp [perform, enter, same.lists target targetMem]

/-- Executions of the function have the same results in the other store. -/
theorem results (grounded : store.Grounded func)
    (completes : store.Results func meaning args world result) :
    store'.Results func meaning args world result := by
  have rootMem : root func ∈ func.bbs := grounded.closed.entry_mem
  have start : store'.start func world = store.start func world := by
    simp [Store.start, same.lists _ rootMem]
  have within : store.Within func (store.start func world) := ⟨rootMem, [], rfl⟩
  rw [Results, start]
  rw [Results] at completes
  generalize store.start func world = config at completes within
  induction completes with
  | returns last => exact .returns ((same.step_eq grounded within).trans last)
  | goes first _ induction =>
      exact .goes ((same.step_eq grounded within).trans first)
        (induction (grounded.within_goes within first))

end SameBody

end LeechJit.IR.Store
