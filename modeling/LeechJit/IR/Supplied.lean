import LeechJit.Foundation.Availability
import LeechJit.IR.Built
import LeechJit.IR.Grounded

/-! # Operands that are available

Whether definitions dominate their uses can be seen from sets of values, one for each block,
that hold what is defined on every way to it.
-/

namespace LeechJit.IR.Store

open Dominance

variable {store : Store} {func : Function} {available : BlockId → Set InstId} {id value : InstId}
  {bb pred : BlockId} {front : List InstId}

/-- What a block defines. -/
def defines (store : Store) (bb : BlockId) : Set InstId :=
  { id | id ∈ store.instructions bb }

/-- What is defined before the first instruction of a block. -/
def reaches (store : Store) (func : Function) (bb : BlockId) : Set InstId :=
  { id | store.DefinedBefore func id bb [] }

theorem definedBefore_iff_reaches :
    store.DefinedBefore func value bb front ↔ value ∈ front ∨ value ∈ store.reaches func bb := by
  simp [reaches, DefinedBefore]

theorem definedAtEnd_iff_reaches (bbMem : bb ∈ func.bbs) :
    store.DefinedAtEnd func value bb ↔
      value ∈ store.instructions bb ∨ value ∈ store.reaches func bb := by
  constructor
  · rintro ⟨dom, domMem, inDom, dominates⟩
    by_cases same : dom = bb
    · exact .inl (same ▸ inDom)
    · exact .inr (.inr ⟨dom, domMem, inDom, same, dominates⟩)
  · rintro (inBlock | none | ⟨dom, domMem, inDom, -, dominates⟩)
    · exact ⟨bb, bbMem, inBlock, Dominates.refl bb⟩
    · cases none
    · exact ⟨dom, domMem, inDom, dominates⟩

/-- Nothing is defined before the entry. -/
theorem not_reaches_root : value ∉ store.reaches func (root func) := by
  rintro (none | ⟨dom, -, -, different, dominates⟩)
  · cases none
  · exact different (List.mem_singleton.mp (dominates [root func] (.here (root func))))

/-- What is defined before a block was so before its predecessor, or in it. -/
theorem reaches_pred (edge : bb ∈ store.succs pred) (reaches : value ∈ store.reaches func bb) :
    value ∈ store.reaches func pred ∨ value ∈ store.instructions pred := by
  rcases reaches with none | ⟨dom, domMem, inDom, different, dominates⟩
  · cases none
  · by_cases same : dom = pred
    · exact .inr (same ▸ inDom)
    · exact .inl (.inr ⟨dom, domMem, inDom, same, dominates.of_edge different edge⟩)

/-- A phi has an operand for each of its entries, which name blocks that lead to it. -/
structure PhiNames (store : Store) (func : Function) (bb : BlockId) (id : InstId)
    (vars : List PhiEntry) : Prop where
  length : (store.inputs id).length = vars.length
  entries : ∀ entry ∈ vars, entry.bb ∈ func.bbs ∧ bb ∈ store.succs entry.bb

def NamesPreds (store : Store) (func : Function) : Prop :=
  ∀ bb ∈ func.bbs, ∀ id ∈ store.instructions bb, ∀ vars, store.kindOf id = some (.kPhi vars) →
    store.PhiNames func bb id vars

theorem WellFormed.namesPreds (wellFormed : store.WellFormed func) : store.NamesPreds func := by
  intro bb bbMem id inBlock vars isPhi
  rcases wellFormed.insts bb bbMem id inBlock with ⟨inst, found, consistent⟩
  rw [kindOf_eq found, Option.some.injEq] at isPhi
  have shaped := consistent.shaped
  rw [Inst.Shaped, isPhi] at shaped
  have inputs : inst.inputs = vars.map PhiEntry.val := shaped
  constructor
  case length => rw [inputs_eq found, inputs, List.length_map]
  case entries =>
    intro entry isEntry
    have isPred : entry.bb ∈ store.preds bb :=
      ((wellFormed.entries bb bbMem id inBlock inst vars found isPhi).2 entry.bb).mp
        (List.mem_map_of_mem isEntry)
    have predMem := wellFormed.predsMem bb bbMem entry.bb isPred
    refine ⟨predMem, ?_⟩
    rw [← List.count_pos_iff, wellFormed.mirrored entry.bb predMem bb bbMem, List.count_pos_iff]
    exact isPred

/-- Each operand is available where it is used. -/
structure Supplied (store : Store) (func : Function) (available : BlockId → Set InstId) : Prop
    extends Available (store.cfg func).Edge (root func) store.defines available where
  uses : ∀ bb ∈ func.bbs, ∀ front id back, store.instructions bb = front ++ id :: back →
    ∀ inst, store.insts id = some inst → inst.kind.isPhi = false →
    ∀ input ∈ inst.inputs, input ∈ front ∨ input ∈ available bb
  phiUses : ∀ bb ∈ func.bbs, ∀ id ∈ store.instructions bb, ∀ inst vars,
    store.insts id = some inst → inst.kind = .kPhi vars →
    ∀ value entry, (value, entry) ∈ inst.inputs.zip vars →
      value ∈ store.instructions entry.bb ∨ value ∈ available entry.bb

namespace Supplied

variable (supplied : store.Supplied func available) (closed : (store.cfg func).Closed)
  (reachable : ∀ bb ∈ func.bbs, (store.cfg func).Reachable bb)
  (nodup : (store.listed func).Nodup) (named : store.NamesPreds func)

include supplied closed reachable nodup

theorem available_reaches (bbMem : bb ∈ func.bbs)
    (isAvailable : value ∈ available bb) : value ∈ store.reaches func bb := by
  have unique : ∀ dom other, (store.cfg func).Reachable dom → (store.cfg func).Reachable other →
      value ∈ store.defines dom → value ∈ store.defines other → dom = other :=
    fun dom other domReachable otherReachable => home_unique_of_nodup nodup
      (closed.mem_of_reachable domReachable) (closed.mem_of_reachable otherReachable)
  rcases supplied.dominates unique (reachable bb bbMem) isAvailable with
    ⟨dom, isReachable, inDom, different, dominates⟩
  exact .inr ⟨dom, closed.mem_of_reachable isReachable, inDom, different, dominates⟩

theorem available_listed (bbMem : bb ∈ func.bbs) (isAvailable : value ∈ available bb) :
    value ∈ store.listed func := by
  rcases supplied.available_reaches closed reachable nodup bbMem isAvailable with
    none | ⟨dom, domMem, inDom, -⟩
  · cases none
  · exact Consistent.mem_listed domMem inDom

include named

/-- Definitions of operands that are available dominate their uses. -/
theorem usesDefined : store.UsesDefined func Set.univ := by
  constructor
  · intro bb bbMem front id back split inst found notPhi input isInput _
    rw [definedBefore_iff_reaches]
    exact (supplied.uses bb bbMem front id back split inst found notPhi input isInput).imp_right
      (supplied.available_reaches closed reachable nodup bbMem)
  · intro bb bbMem id inBlock inst vars found isPhi value entry matched _
    have entryMem : entry.bb ∈ func.bbs := by
      rw [← Option.some.injEq, ← kindOf_eq found] at isPhi
      exact ((named bb bbMem id inBlock vars isPhi).entries entry (List.of_mem_zip matched).2).1
    rw [definedAtEnd_iff_reaches entryMem]
    exact (supplied.phiUses bb bbMem id inBlock inst vars found isPhi value entry matched).imp_right
      (supplied.available_reaches closed reachable nodup entryMem)

/-- Operands that are available are instructions of the function. -/
theorem inputs (stored : ∀ id ∈ store.listed func, ∃ inst, store.insts id = some inst) :
    ∀ id ∈ store.listed func, ∀ input ∈ store.inputs id, input ∈ store.listed func := by
  intro id member input isInput
  rcases List.mem_flatMap.mp member with ⟨bb, bbMem, inBlock⟩
  rcases stored id member with ⟨inst, found⟩
  rw [inputs_eq found] at isInput
  cases isPhi : inst.kind.isPhi with
  | false =>
      rcases List.append_of_mem inBlock with ⟨front, back, split⟩
      rcases supplied.uses bb bbMem front id back split inst found isPhi input isInput with
        inFront | isAvailable
      · exact Consistent.mem_listed bbMem (by simp [split, inFront])
      · exact supplied.available_listed closed reachable nodup bbMem isAvailable
  | true =>
      cases kind : inst.kind with
      | kPhi vars =>
          have isVars : store.kindOf id = some (.kPhi vars) := by rw [kindOf_eq found, kind]
          have names := named bb bbMem id inBlock vars isVars
          rw [← inputs_eq found] at isInput
          rcases List.mem_iff_getElem.mp isInput with ⟨position, inside, isInput⟩
          have inVars : position < vars.length := names.length ▸ inside
          have matched : (input, vars[position]) ∈ inst.inputs.zip vars := by
            rw [← inputs_eq found, List.mem_iff_getElem]
            exact ⟨position, by simp [inside, inVars], by simp [isInput]⟩
          have entryMem := (names.entries vars[position] (List.getElem_mem inVars)).1
          rcases supplied.phiUses bb bbMem id inBlock inst vars found kind input _ matched with
            inEntry | isAvailable
          · exact Consistent.mem_listed entryMem inEntry
          · exact supplied.available_listed closed reachable nodup entryMem isAvailable
      | _ =>
          rw [kind] at isPhi
          cases isPhi

end Supplied

end LeechJit.IR.Store
