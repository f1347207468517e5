import LeechJit.Foundation.Nesting
import LeechJit.Graph.NaturalLoop

/-! # How the analyzer nests loops

A loop is named by its header. The nest says in which loop each node was put,
which loop is around another, and what was added to a body after the sources of
the back edges. Where the loops are apart, no node and no loop is added twice.
-/

namespace LeechJit.Analysis

open LeechJit.Graph
open Nesting (Item Nested)

structure Nest (Node : Type) where
  owner : Node → Option Node
  outer : Node → Option Node
  items : Node → List (Item Node Node)

variable {Node : Type} [DecidableEq Node]

namespace Nest

instance (graph : Graph Node) (node : Node) : Decidable (graph.IsHeader node) :=
  inferInstanceAs (Decidable (graph.backEdgesSrc node ≠ []))

/-- Before the first loop is populated only the headers are in their loops. -/
def start (graph : Graph Node) : Nest Node where
  owner node := if graph.IsHeader node then some node else none
  outer _ := none
  items _ := []

def add (nest : Nest Node) (header : Node) (item : Item Node Node) : Nest Node :=
  { nest with items := Function.update nest.items header (nest.items header ++ [item]) }

def put (nest : Nest Node) (header node : Node) : Nest Node :=
  { nest with owner := Function.update nest.owner node (some header) }

/-- The source of a back edge is put in the loop, if it is in no other. -/
def claim (header : Node) (nest : Nest Node) (node : Node) : Nest Node :=
  match nest.owner node with
  | none => nest.put header node
  | some _ => nest

/-- A node of the body is added to the loop, or the outermost loop it is in. -/
def link (header : Node) (nest : Nest Node) (node : Node) : Nest Node :=
  match nest.owner node with
  | none => (nest.put header node).add header (.leaf node)
  | some inner =>
      match nest.outer inner with
      | none =>
          { nest.add header (.group inner) with
            outer := Function.update nest.outer inner (some header) }
      | some _ => nest

@[simp] theorem owner_add (nest : Nest Node) (header : Node) (item : Item Node Node) :
    (nest.add header item).owner = nest.owner := rfl

@[simp] theorem outer_add (nest : Nest Node) (header : Node) (item : Item Node Node) :
    (nest.add header item).outer = nest.outer := rfl

@[simp] theorem items_put (nest : Nest Node) (header node : Node) :
    (nest.put header node).items = nest.items := rfl

@[simp] theorem outer_put (nest : Nest Node) (header node : Node) :
    (nest.put header node).outer = nest.outer := rfl

theorem mem_add {nest : Nest Node} {header other : Node} {item old : Item Node Node} :
    old ∈ (nest.add header item).items other ↔
      old ∈ nest.items other ∨ other = header ∧ old = item := by
  by_cases same : other = header
  · subst same
    simp [add]
  · simp [add, same]

theorem add_nodup {nest : Nest Node} {header : Node} {item : Item Node Node}
    (nodup : ∀ other, (nest.items other).Nodup) (fresh : item ∉ nest.items header)
    (other : Node) : ((nest.add header item).items other).Nodup := by
  by_cases same : other = header
  · subst same
    simpa [add, List.nodup_append] using
      ⟨nodup other, fun old member equal => fresh (equal ▸ member)⟩
  · simpa [add, same] using nodup other

theorem put_owner {nest : Nest Node} {header node : Node} (free : nest.owner node = none)
    {other loop : Node} :
    (nest.put header node).owner other = some loop ↔
      nest.owner other = some loop ∨ other = node ∧ header = loop := by
  by_cases same : other = node
  · subst same
    simp [put, free]
  · simp [put, same]

/-! ## What holds of the nest -/

/-- `done` are the headers whose loops have been populated, or are being so. -/
structure Sound (graph : Graph Node) (done : List Node) (nest : Nest Node) : Prop where
  header : ∀ node, graph.IsHeader node → nest.owner node = some node
  owner : ∀ node loop, nest.owner node = some loop → graph.IsHeader loop ∧
    (node = loop ∨ loop ∈ done ∧
      (node ∈ graph.backEdgesSrc loop ∨ .leaf node ∈ nest.items loop))
  claimed : ∀ loop ∈ done, ∀ src ∈ graph.backEdgesSrc loop, nest.owner src ≠ none
  leaf_owner : ∀ node loop, .leaf node ∈ nest.items loop → nest.owner node = some loop
  leaf_inLoop : ∀ node loop, .leaf node ∈ nest.items loop →
    loop ∈ done ∧ graph.reducible loop = true ∧ graph.InLoop loop node
  leaf_reachable : ∀ node loop, .leaf node ∈ nest.items loop → graph.Reachable node
  leaf_plain : ∀ node loop, .leaf node ∈ nest.items loop → ¬ graph.IsHeader node ∧
    ∀ other, graph.Emitted other → node ∉ graph.backEdgesSrc other
  group_iff : ∀ inner loop, .group inner ∈ nest.items loop ↔ nest.outer inner = some loop
  group_done : ∀ inner loop, nest.outer inner = some loop → loop ∈ done
  group_inLoop : ∀ inner loop, nest.outer inner = some loop →
    graph.IsHeader inner ∧ graph.reducible loop = true ∧ graph.InLoop loop inner
  nodup : ∀ loop, (nest.items loop).Nodup

namespace Sound

variable {graph : Graph Node} {done : List Node} {nest : Nest Node}

theorem start (graph : Graph Node) : Sound graph [] (Nest.start graph) where
  header node isHeader := by simp [Nest.start, isHeader]
  owner node loop owned := by
    by_cases isHeader : graph.IsHeader node
    · simp only [Nest.start, isHeader, if_true, Option.some.injEq] at owned
      subst owned
      exact ⟨isHeader, .inl rfl⟩
    · simp [Nest.start, isHeader] at owned
  claimed := by simp
  leaf_owner := by simp [Nest.start]
  leaf_inLoop := by simp [Nest.start]
  leaf_reachable := by simp [Nest.start]
  leaf_plain := by simp [Nest.start]
  group_iff := by simp [Nest.start]
  group_done := by simp [Nest.start]
  group_inLoop := by simp [Nest.start]
  nodup := by simp [Nest.start]

end Sound

namespace Sound

variable {graph : Graph Node} {done : List Node} {nest : Nest Node}

theorem reachable (sound : Sound graph done nest) {node : Node} (owned : nest.owner node ≠ none) :
    graph.Reachable node := by
  rcases Option.ne_none_iff_exists'.mp owned with ⟨loop, isLoop⟩
  rcases sound.owner node loop isLoop with ⟨isHeader, rfl | ⟨-, isSrc | held⟩⟩
  · exact isHeader_reachable isHeader
  · exact backEdge_reachable (mem_backEdgesSrc.mp isSrc)
  · exact sound.leaf_reachable node loop held

end Sound

/-! ## Claiming the sources of the back edges -/

theorem claims_items (header : Node) (nodes : List Node) (nest : Nest Node) :
    (nodes.foldl (claim header) nest).items = nest.items ∧
      (nodes.foldl (claim header) nest).outer = nest.outer := by
  induction nodes generalizing nest with
  | nil => exact ⟨rfl, rfl⟩
  | cons node rest induction =>
      have later := induction (claim header nest node)
      have same : (claim header nest node).items = nest.items ∧
          (claim header nest node).outer = nest.outer := by
        cases owned : nest.owner node <;> simp [claim, owned]
      exact ⟨later.1.trans same.1, later.2.trans same.2⟩

theorem claim_owner {header node other loop : Node} {nest : Nest Node} :
    (claim header nest node).owner other = some loop ↔
      nest.owner other = some loop ∨
        nest.owner other = none ∧ other = node ∧ header = loop := by
  cases owned : nest.owner node with
  | none =>
      simp only [claim, owned]
      rw [put_owner owned]
      constructor
      · rintro (old | ⟨rfl, equal⟩)
        · exact .inl old
        · exact .inr ⟨owned, rfl, equal⟩
      · rintro (old | ⟨-, new⟩)
        · exact .inl old
        · exact .inr new
  | some inner =>
      simp only [claim, owned]
      constructor
      · exact .inl
      · rintro (old | ⟨free, rfl, -⟩)
        · exact old
        · rw [owned] at free
          cases free

theorem claim_owner_none {header node other : Node} {nest : Nest Node} :
    (claim header nest node).owner other = none ↔ nest.owner other = none ∧ other ≠ node := by
  rw [Option.eq_none_iff_forall_ne_some]
  simp only [ne_eq, claim_owner, not_or, not_and]
  constructor
  · intro never
    have unowned := Option.eq_none_iff_forall_ne_some.mpr fun loop => (never loop).1
    exact ⟨unowned, fun equal => (never header).2 unowned equal rfl⟩
  · rintro ⟨unowned, different⟩ loop
    exact ⟨by simp [unowned], fun _ equal => absurd equal different⟩

theorem claims_owner {header other loop : Node} {nodes : List Node} {nest : Nest Node} :
    (nodes.foldl (claim header) nest).owner other = some loop ↔
      nest.owner other = some loop ∨
        nest.owner other = none ∧ other ∈ nodes ∧ header = loop := by
  induction nodes generalizing nest with
  | nil => simp
  | cons node rest induction =>
      rw [List.foldl_cons, induction, claim_owner, List.mem_cons]
      rw [claim_owner_none]
      tauto

theorem claims_owner_none {header other : Node} {nodes : List Node} {nest : Nest Node} :
    (nodes.foldl (claim header) nest).owner other = none ↔
      nest.owner other = none ∧ other ∉ nodes := by
  induction nodes generalizing nest with
  | nil => simp
  | cons node rest induction =>
      rw [List.foldl_cons, induction, claim_owner_none, List.mem_cons]
      tauto

namespace Sound

variable {graph : Graph Node} {done : List Node} {nest : Nest Node}

/-- At the end of the claims the loop of `header` has its sources. -/
theorem claims (sound : Sound graph done nest) {header : Node}
    (isHeader : graph.IsHeader header) :
    Sound graph (header :: done) ((graph.backEdgesSrc header).foldl (claim header) nest) := by
  have kept := claims_items header (graph.backEdgesSrc header) nest
  constructor
  case header => exact fun node isNode => claims_owner.mpr (.inl (sound.header node isNode))
  case owner =>
    intro node loop owned
    rw [kept.1, List.mem_cons]
    rcases claims_owner.mp owned with old | ⟨-, isSrc, rfl⟩
    · rcases sound.owner node loop old with ⟨loopHeader, isLoop | ⟨isDone, held⟩⟩
      · exact ⟨loopHeader, .inl isLoop⟩
      · exact ⟨loopHeader, .inr ⟨.inr isDone, held⟩⟩
    · exact ⟨isHeader, .inr ⟨.inl rfl, .inl isSrc⟩⟩
  case claimed =>
    intro loop inDone src isSrc free
    have unowned : nest.owner src = none := by
      cases owned : nest.owner src with
      | none => rfl
      | some other =>
          rw [claims_owner.mpr (.inl owned)] at free
          cases free
    rcases List.mem_cons.mp inDone with rfl | old
    · rw [claims_owner.mpr (.inr ⟨unowned, isSrc, rfl⟩)] at free
      cases free
    · exact sound.claimed loop old src isSrc unowned
  case leaf_owner =>
    rw [kept.1]
    exact fun node loop held => claims_owner.mpr (.inl (sound.leaf_owner node loop held))
  case leaf_inLoop =>
    rw [kept.1]
    intro node loop held
    have old := sound.leaf_inLoop node loop held
    exact ⟨List.mem_cons_of_mem _ old.1, old.2⟩
  case leaf_reachable =>
    rw [kept.1]
    exact sound.leaf_reachable
  case leaf_plain =>
    rw [kept.1]
    exact sound.leaf_plain
  case group_iff =>
    rw [kept.1, kept.2]
    exact sound.group_iff
  case group_done =>
    rw [kept.2]
    exact fun inner loop around => .tail _ (sound.group_done inner loop around)
  case group_inLoop =>
    rw [kept.2]
    exact sound.group_inLoop
  case nodup =>
    rw [kept.1]
    exact sound.nodup

end Sound

/-! ## Filling a body -/

namespace Sound

variable {graph : Graph Node} {done : List Node} {nest : Nest Node}

/-- A node that is in no loop yet becomes an item of its own. -/
theorem link_node (sound : Sound graph done nest) {header node : Node}
    (isDone : header ∈ done) (reducible : graph.reducible header = true)
    (inLoop : graph.InLoop header node) (reachable : graph.Reachable node)
    (free : nest.owner node = none)
    (unclaimed : ∀ other, graph.Emitted other → node ∉ graph.backEdgesSrc other) :
    Sound graph done ((nest.put header node).add header (.leaf node)) := by
  have plain : ¬ graph.IsHeader node := by
    intro isHeader
    rw [sound.header node isHeader] at free
    cases free
  constructor
  case header =>
    exact fun other isHeader => (put_owner free).mpr (.inl (sound.header other isHeader))
  case owner =>
    intro other loop owned
    rcases (put_owner free).mp owned with old | ⟨rfl, rfl⟩
    · rcases sound.owner other loop old with ⟨loopHeader, isLoop | ⟨loopDone, isSrc | held⟩⟩
      · exact ⟨loopHeader, .inl isLoop⟩
      · exact ⟨loopHeader, .inr ⟨loopDone, .inl isSrc⟩⟩
      · exact ⟨loopHeader, .inr ⟨loopDone, .inr (mem_add.mpr (.inl held))⟩⟩
    · exact ⟨isHeader_of_reducible reducible,
        .inr ⟨isDone, .inr (mem_add.mpr (.inr ⟨rfl, rfl⟩))⟩⟩
  case claimed =>
    intro loop loopDone src isSrc
    have claimed := sound.claimed loop loopDone src isSrc
    rcases Option.ne_none_iff_exists'.mp claimed with ⟨other, owned⟩
    rw [owner_add, (put_owner free).mpr (.inl owned)]
    exact Option.some_ne_none _
  case leaf_owner =>
    intro other loop held
    apply (put_owner free).mpr
    rcases mem_add.mp held with old | ⟨rfl, equal⟩
    · exact .inl (sound.leaf_owner other loop old)
    · cases equal
      exact .inr ⟨rfl, rfl⟩
  case leaf_inLoop =>
    intro other loop held
    rcases mem_add.mp held with old | ⟨rfl, equal⟩
    · exact sound.leaf_inLoop other loop old
    · cases equal
      exact ⟨isDone, reducible, inLoop⟩
  case leaf_reachable =>
    intro other loop held
    rcases mem_add.mp held with old | ⟨rfl, equal⟩
    · exact sound.leaf_reachable other loop old
    · cases equal
      exact reachable
  case leaf_plain =>
    intro other loop held
    rcases mem_add.mp held with old | ⟨rfl, equal⟩
    · exact sound.leaf_plain other loop old
    · cases equal
      exact ⟨plain, unclaimed⟩
  case group_iff =>
    intro inner loop
    rw [mem_add]
    simpa using sound.group_iff inner loop
  case group_done => exact sound.group_done
  case group_inLoop => exact sound.group_inLoop
  case nodup =>
    apply add_nodup sound.nodup
    intro held
    rw [sound.leaf_owner node header held] at free
    cases free

/-- A loop that is in no other becomes an item of the one that meets it. -/
theorem link_loop (sound : Sound graph done nest) {header inner : Node}
    (isDone : header ∈ done) (reducible : graph.reducible header = true) (isHeader : graph.IsHeader inner)
    (inLoop : graph.InLoop header inner) (free : nest.outer inner = none) :
    Sound graph done { nest.add header (.group inner) with
      outer := Function.update nest.outer inner (some header) } := by
  have newOuter : ∀ other loop,
      Function.update nest.outer inner (some header) other = some loop ↔
        nest.outer other = some loop ∨ other = inner ∧ loop = header := by
    intro other loop
    by_cases same : other = inner
    · subst same
      simp [free, eq_comm]
    · simp [same]
  constructor
  case header => exact sound.header
  case owner =>
    intro other loop owned
    rcases sound.owner other loop owned with ⟨loopHeader, isLoop | ⟨loopDone, isSrc | held⟩⟩
    · exact ⟨loopHeader, .inl isLoop⟩
    · exact ⟨loopHeader, .inr ⟨loopDone, .inl isSrc⟩⟩
    · exact ⟨loopHeader, .inr ⟨loopDone, .inr (mem_add.mpr (.inl held))⟩⟩
  case claimed => exact sound.claimed
  case leaf_owner =>
    intro other loop held
    exact sound.leaf_owner other loop (by simpa using mem_add.mp held)
  case leaf_inLoop =>
    intro other loop held
    exact sound.leaf_inLoop other loop (by simpa using mem_add.mp held)
  case leaf_reachable =>
    intro other loop held
    exact sound.leaf_reachable other loop (by simpa using mem_add.mp held)
  case leaf_plain =>
    intro other loop held
    exact sound.leaf_plain other loop (by simpa using mem_add.mp held)
  case group_iff =>
    intro other loop
    rw [newOuter, ← sound.group_iff]
    apply mem_add.trans
    rw [Item.group.injEq, and_comm]
  case group_done =>
    intro other loop around
    rcases (newOuter other loop).mp around with old | ⟨-, rfl⟩
    · exact sound.group_done other loop old
    · exact isDone
  case group_inLoop =>
    intro other loop around
    rcases (newOuter other loop).mp around with old | ⟨rfl, rfl⟩
    · exact sound.group_inLoop other loop old
    · exact ⟨isHeader, reducible, inLoop⟩
  case nodup =>
    apply add_nodup sound.nodup
    intro held
    rw [(sound.group_iff inner header).mp held] at free
    cases free

end Sound

/-- The loop of `header` is being filled, after the loops that finish before it. -/
structure Filling (graph : Graph Node) (done : List Node) (header : Node) : Prop where
  isDone : header ∈ done
  reducible : graph.reducible header = true
  earlier : ∀ loop ∈ done, loop = header ∨ graph.finishTime loop < graph.finishTime header
  all : ∀ loop, graph.IsHeader loop → graph.finishTime loop < graph.finishTime header →
    loop ∈ done

namespace Sound

variable {graph : Graph Node} {done : List Node} {nest : Nest Node} {header node : Node}

/-- A node in no loop is the source of no back edge of another that is written out. -/
theorem unclaimed (sound : Sound graph done nest) (filling : Filling graph done header)
    (closed : graph.Closed) (apart : graph.LoopsApart) (inLoop : graph.InLoop header node)
    (notSrc : node ∉ graph.backEdgesSrc header) (free : nest.owner node = none)
    (other : Node) (emitted : graph.Emitted other) : node ∉ graph.backEdgesSrc other := by
  intro isSrc
  have different : header ≠ other := fun equal => notSrc (equal ▸ isSrc)
  -- The other loop is in the body, so it has claimed the node.
  have enclosed := apart.enclosed header other node filling.reducible emitted different isSrc
    inLoop
  have earlier := apart.finishTime_lt closed filling.reducible enclosed
    (isHeader_reachable emitted.1)
  exact sound.claimed other (filling.all other emitted.1 earlier) node isSrc free

/-- A node that is in a loop has it in the body. -/
theorem owner_inLoop (sound : Sound graph done nest) (filling : Filling graph done header)
    (closed : graph.Closed) (apart : graph.LoopsApart) (inLoop : graph.InLoop header node)
    (reachable : graph.Reachable node) (notSrc : node ∉ graph.backEdgesSrc header)
    (fresh : .leaf node ∉ nest.items header) {inner : Node}
    (owned : nest.owner node = some inner) : graph.InLoop header inner := by
  rcases (sound.owner node inner owned).2 with rfl | ⟨isDone, isSrc | held⟩
  · exact inLoop
  · rcases filling.earlier inner isDone with rfl | earlier
    · exact absurd isSrc notSrc
    · exact apart.inLoop_of_earlier closed filling.reducible inLoop reachable earlier
        (.inl isSrc)
  · rcases filling.earlier inner isDone with rfl | earlier
    · exact absurd held fresh
    · exact apart.inLoop_of_earlier closed filling.reducible inLoop reachable earlier
        (.inr (sound.leaf_inLoop node inner held).2)

theorem link (sound : Sound graph done nest) (filling : Filling graph done header)
    (closed : graph.Closed) (apart : graph.LoopsApart) (inLoop : graph.InLoop header node)
    (reachable : graph.Reachable node) (notSrc : node ∉ graph.backEdgesSrc header)
    (fresh : .leaf node ∉ nest.items header) : Sound graph done (link header nest node) := by
  cases owned : nest.owner node with
  | none =>
      simp only [Nest.link, owned]
      exact sound.link_node filling.isDone filling.reducible inLoop reachable owned
        (sound.unclaimed filling closed apart inLoop notSrc owned)
  | some inner =>
      cases around : nest.outer inner with
      | none =>
          simp only [Nest.link, owned, around]
          exact sound.link_loop filling.isDone filling.reducible (sound.owner node inner owned).1
            (sound.owner_inLoop filling closed apart inLoop reachable notSrc fresh owned) around
      | some loop =>
          simp only [Nest.link, owned, around]
          exact sound

end Sound

/-! ## The nest of the whole graph -/

/-- A loop as it is written out: its header and then its body backwards. -/
def emission (graph : Graph Node) (nest : Nest Node) (loop : Node) : List (Item Node Node) :=
  .leaf loop :: ((graph.backEdgesSrc loop).map Item.leaf ++ nest.items loop).reverse

theorem mem_emission {graph : Graph Node} {nest : Nest Node} {loop : Node}
    {item : Item Node Node} :
    item ∈ nest.emission graph loop ↔ item = .leaf loop ∨
      (∃ src ∈ graph.backEdgesSrc loop, .leaf src = item) ∨ item ∈ nest.items loop := by
  rw [emission, List.mem_cons, List.mem_reverse, List.mem_append, List.mem_map]

namespace Sound

variable {graph : Graph Node} {done : List Node} {nest : Nest Node}

theorem leaf_emission (nest : Nest Node) {loop node : Node} :
    .leaf node ∈ nest.emission graph loop ↔
      node = loop ∨ node ∈ graph.backEdgesSrc loop ∨ .leaf node ∈ nest.items loop := by
  simp [mem_emission]

theorem group_emission (sound : Sound graph done nest) {loop inner : Node} :
    .group inner ∈ nest.emission graph loop ↔ nest.outer inner = some loop := by
  simp [mem_emission, sound.group_iff]

/-- A header, a source of a back edge and a node of a body are different nodes. -/
theorem leaf_unique (sound : Sound graph done nest) (apart : graph.LoopsApart)
    {left right node : Node} (leftEmitted : graph.Emitted left)
    (rightEmitted : graph.Emitted right) (inLeft : .leaf node ∈ nest.emission graph left)
    (inRight : .leaf node ∈ nest.emission graph right) : left = right := by
  rcases (leaf_emission nest).mp inLeft with rfl | leftSrc | leftHeld
  · rcases (leaf_emission nest).mp inRight with rfl | rightSrc | rightHeld
    · rfl
    · exact absurd leftEmitted.1 (apart.notHeader right rightEmitted node rightSrc)
    · exact absurd leftEmitted.1 (sound.leaf_plain node right rightHeld).1
  · rcases (leaf_emission nest).mp inRight with rfl | rightSrc | rightHeld
    · exact absurd rightEmitted.1 (apart.notHeader left leftEmitted node leftSrc)
    · exact apart.unshared left right node leftEmitted rightEmitted leftSrc rightSrc
    · exact absurd leftSrc ((sound.leaf_plain node right rightHeld).2 left leftEmitted)
  · rcases (leaf_emission nest).mp inRight with rfl | rightSrc | rightHeld
    · exact absurd rightEmitted.1 (sound.leaf_plain node left leftHeld).1
    · exact absurd rightSrc ((sound.leaf_plain node left leftHeld).2 right rightEmitted)
    · have owners := (sound.leaf_owner node left leftHeld).symm.trans
        (sound.leaf_owner node right rightHeld)
      exact Option.some.inj owners

theorem emission_nodup (sound : Sound graph done nest) (apart : graph.LoopsApart) {loop : Node}
    (emitted : graph.Emitted loop) : (nest.emission graph loop).Nodup := by
  have srcs : ((graph.backEdgesSrc loop).map (Item.leaf (ι := Node))).Nodup :=
    (apart.nodup loop emitted).map fun _ _ equal => Item.leaf.inj equal
  rw [emission, List.nodup_cons, List.nodup_reverse, List.mem_reverse, List.mem_append]
  constructor
  · rintro (isSrc | held)
    · rcases List.mem_map.mp isSrc with ⟨src, isSrc, equal⟩
      cases equal
      exact apart.notHeader loop emitted loop isSrc emitted.1
    · exact (sound.leaf_plain loop loop held).1 emitted.1
  · apply List.nodup_append.mpr
    refine ⟨srcs, sound.nodup loop, ?_⟩
    intro item member other held equal
    subst equal
    rcases List.mem_map.mp member with ⟨src, isSrc, rfl⟩
    exact (sound.leaf_plain src loop held).2 loop emitted isSrc

/-- The loops that are written out are nested in each other. -/
theorem nested (sound : Sound graph done nest) (closed : graph.Closed)
    (apart : graph.LoopsApart) :
    Nested (nest.emission graph) graph.finishTime graph.Emitted where
  valid_inner outer inner _ held := by
    rcases sound.group_inLoop inner outer (sound.group_emission.mp held) with
      ⟨isHeader, reducible, inLoop⟩
    exact ⟨isHeader, .inr ⟨outer, reducible, inLoop⟩⟩
  rank_inner outer inner _ held := by
    rcases sound.group_inLoop inner outer (sound.group_emission.mp held) with
      ⟨isHeader, reducible, inLoop⟩
    exact apart.finishTime_lt closed reducible inLoop (isHeader_reachable isHeader)
  nodup loop emitted := sound.emission_nodup apart emitted
  leaf_unique left right node leftEmitted rightEmitted inLeft inRight :=
    sound.leaf_unique apart leftEmitted rightEmitted inLeft inRight
  group_unique left right inner _ _ inLeft inRight :=
    Option.some.inj ((sound.group_emission.mp inLeft).symm.trans (sound.group_emission.mp inRight))

end Sound

end Nest

end LeechJit.Analysis
