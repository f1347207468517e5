import Mathlib.Data.Finset.Card
import Mathlib.Data.Finset.Dedup
import Mathlib.Data.Finset.Lattice.Fold

/-! # Keeping as many intervals as possible

Intervals `[start, finish)` arrive in the order of their starts, and no point may be in more of
those that are kept than there is room for. Whenever an interval is one too many, one that
finishes last is dropped. No choice of intervals that leaves enough room everywhere keeps more.
-/

namespace LeechJit.Keeping

variable {Item : Type*} {start finish : Item → Nat} {room : Nat} {arrived : List Item}
  {kept chosen : Finset Item} {item dropped : Item} {bound : Nat}

/-- The chosen intervals that contain a point. -/
def alive (start finish : Item → Nat) (chosen : Finset Item) (point : Nat) : Finset Item :=
  chosen.filter fun item => start item ≤ point ∧ point < finish item

/-- No point is in more of the chosen intervals than there is room for. -/
def Fit (start finish : Item → Nat) (room : Nat) (chosen : Finset Item) : Prop :=
  ∀ point, (alive start finish chosen point).card ≤ room

/-- The chosen intervals that finish by `bound`. -/
def finished (finish : Item → Nat) (chosen : Finset Item) (bound : Nat) : Finset Item :=
  chosen.filter fun item => finish item ≤ bound

variable [DecidableEq Item]

/-- What is kept of the intervals that have arrived, the latest first. -/
inductive Kept (start finish : Item → Nat) (room : Nat) : List Item → Finset Item → Prop
  | nothing : Kept start finish room [] ∅
  | keeps {arrived : List Item} {kept : Finset Item} (item : Item)
      (earlier : Kept start finish room arrived kept) :
      Kept start finish room (item :: arrived) (insert item kept)
  | drops {arrived : List Item} {kept : Finset Item} (item dropped : Item)
      (earlier : Kept start finish room arrived kept)
      (full : (alive start finish kept (start item)).card = room)
      (isAlive : dropped ∈ insert item (alive start finish kept (start item)))
      (latest : ∀ other ∈ insert item (alive start finish kept (start item)),
        finish other ≤ finish dropped) :
      Kept start finish room (item :: arrived) ((insert item kept).erase dropped)

theorem Kept.subset (keeping : Kept start finish room arrived kept) : kept ⊆ arrived.toFinset := by
  induction keeping with
  | nothing => simp
  | keeps item _ induction =>
      rw [List.toFinset_cons]
      exact Finset.insert_subset_insert item induction
  | drops item dropped _ _ _ _ induction =>
      rw [List.toFinset_cons]
      exact (Finset.erase_subset _ _).trans (Finset.insert_subset_insert item induction)

omit [DecidableEq Item] in
theorem Fit.mono {fewer : Finset Item} (fit : Fit start finish room chosen)
    (subset : fewer ⊆ chosen) : Fit start finish room fewer := by
  intro point
  exact (Finset.card_le_card (Finset.filter_subset_filter _ subset)).trans (fit point)

/-! ## Counting what has finished -/

theorem finished_insert (fresh : item ∉ kept) :
    (finished finish (insert item kept) bound).card =
      (finished finish kept bound).card + if finish item ≤ bound then 1 else 0 := by
  rw [finished, Finset.filter_insert]
  split
  · rw [Finset.card_insert_of_notMem fun member => fresh (Finset.mem_of_mem_filter item member)]
    rfl
  · rfl

theorem finished_le_erase :
    (finished finish chosen bound).card ≤
      (finished finish (chosen.erase item) bound).card + if finish item ≤ bound then 1 else 0 := by
  have covered : chosen ⊆ insert item (chosen.erase item) := Finset.subset_insert_iff.mpr le_rfl
  have more := Finset.card_le_card
    (Finset.filter_subset_filter (fun other => finish other ≤ bound) covered)
  exact more.trans_eq (finished_insert (Finset.notMem_erase item chosen))

/-- An interval that finishes later does not count. -/
theorem finished_erase_of_lt (later : bound < finish dropped) :
    finished finish (kept.erase dropped) bound = finished finish kept bound := by
  rw [finished, Finset.filter_erase, Finset.erase_eq_of_notMem]
  · rfl
  · intro member
    exact absurd (Finset.mem_filter.mp member).2 (Nat.not_le.mpr later)

theorem finished_erase (member : dropped ∈ kept) (done : finish dropped ≤ bound) :
    (finished finish (kept.erase dropped) bound).card + 1 = (finished finish kept bound).card := by
  rw [finished, Finset.filter_erase]
  exact Finset.card_erase_add_one (Finset.mem_filter.mpr ⟨member, done⟩)

theorem alive_erase {point : Nat} (isAlive : item ∈ alive start finish chosen point) :
    (alive start finish (chosen.erase item) point).card + 1 =
      (alive start finish chosen point).card := by
  rw [alive, Finset.filter_erase]
  exact Finset.card_erase_add_one isAlive

omit [DecidableEq Item] in
/-- What has started by a point has finished by then, or contains it. -/
theorem card_le_finished_add_alive {point : Nat} (started : ∀ item ∈ chosen, start item ≤ point) :
    chosen.card ≤ (finished finish chosen point).card + (alive start finish chosen point).card := by
  rw [← Finset.card_filter_add_card_filter_not (s := chosen) fun item => finish item ≤ point]
  apply Nat.add_le_add_left
  apply Finset.card_le_card
  intro item member
  rcases Finset.mem_filter.mp member with ⟨isChosen, notDone⟩
  exact Finset.mem_filter.mpr ⟨isChosen, started item isChosen, Nat.not_le.mp notDone⟩

/-- What contains a point has not finished by then. -/
theorem finished_add_alive_le {point : Nat} (before : point ≤ bound)
    (done : ∀ item ∈ alive start finish kept point, finish item ≤ bound) :
    (finished finish kept point).card + (alive start finish kept point).card ≤
      (finished finish kept bound).card := by
  have apart : Disjoint (finished finish kept point) (alive start finish kept point) := by
    rw [Finset.disjoint_left]
    intro item isFinished isAlive
    have ended := (Finset.mem_filter.mp isFinished).2
    have goesOn := (Finset.mem_filter.mp isAlive).2.2
    exact absurd ended (Nat.not_le.mpr goesOn)
  rw [← Finset.card_union_of_disjoint apart]
  apply Finset.card_le_card
  intro item member
  rcases Finset.mem_union.mp member with isFinished | isAlive
  · rcases Finset.mem_filter.mp isFinished with ⟨isKept, ended⟩
    exact Finset.mem_filter.mpr ⟨isKept, ended.trans before⟩
  · exact Finset.mem_filter.mpr ⟨Finset.mem_of_mem_filter item isAlive, done item isAlive⟩

/-! ## Nothing keeps more -/

section Step

variable (fresh : item ∉ kept) (started : ∀ other ∈ chosen, start other ≤ start item)
  (nonempty : start item < finish item) (fit : Fit start finish room chosen)
  (fewer : ∀ bound, (finished finish (chosen.erase item) bound).card ≤
    (finished finish kept bound).card)

include fresh fewer

theorem finished_le_insert : (finished finish chosen bound).card ≤
    (finished finish (insert item kept) bound).card := by
  rw [finished_insert fresh]
  exact finished_le_erase.trans (Nat.add_le_add_right (fewer bound) _)

include started nonempty fit

theorem finished_le_erase_dropped (full : (alive start finish kept (start item)).card = room)
    (isAlive : dropped ∈ insert item (alive start finish kept (start item)))
    (latest : ∀ other ∈ insert item (alive start finish kept (start item)),
      finish other ≤ finish dropped) :
    (finished finish chosen bound).card ≤
      (finished finish ((insert item kept).erase dropped) bound).card := by
  cases Nat.lt_or_ge bound (finish dropped) with
  | inl later =>
      rw [finished_erase_of_lt later]
      exact finished_le_insert fresh fewer
  | inr done =>
      have isKept : dropped ∈ insert item kept :=
        Finset.insert_subset_insert item (Finset.filter_subset _ _) isAlive
      have itemDone : finish item ≤ bound := (latest item (Finset.mem_insert_self _ _)).trans done
      have count := finished_erase isKept done
      rw [finished_insert fresh, if_pos itemDone, Nat.add_right_cancel_iff] at count
      rw [count]
      by_cases isChosen : item ∈ chosen
      · -- the others that contain the start of the new interval leave one place
        have others : (chosen.erase item).card ≤
            (finished finish (chosen.erase item) (start item)).card +
              (alive start finish (chosen.erase item) (start item)).card :=
          card_le_finished_add_alive fun other member =>
            started other (Finset.mem_of_mem_erase member)
        have here : item ∈ alive start finish chosen (start item) :=
          Finset.mem_filter.mpr ⟨isChosen, le_rfl, nonempty⟩
        have place := alive_erase here
        have most := fit (start item)
        have held : (finished finish kept (start item)).card +
            (alive start finish kept (start item)).card ≤ (finished finish kept bound).card :=
          finished_add_alive_le (nonempty.le.trans itemDone) fun other member =>
            (latest other (Finset.mem_insert_of_mem member)).trans done
        have atStart := fewer (start item)
        calc (finished finish chosen bound).card
          _ ≤ chosen.card := Finset.card_filter_le _ _
          _ = (chosen.erase item).card + 1 := (Finset.card_erase_add_one isChosen).symm
          _ ≤ (finished finish kept (start item)).card + room := by omega
          _ ≤ (finished finish kept bound).card := by rwa [← full]
      · rw [← Finset.erase_eq_of_notMem isChosen]
        exact fewer bound

end Step

/-- Of the intervals chosen, no more have finished by any point than of those kept. -/
theorem Kept.finished_le (keeping : Kept start finish room arrived kept) (nodup : arrived.Nodup)
    (sorted : arrived.Pairwise fun later earlier => start earlier ≤ start later)
    (nonempty : ∀ item ∈ arrived, start item < finish item)
    (subset : chosen ⊆ arrived.toFinset) (fit : Fit start finish room chosen) :
    (finished finish chosen bound).card ≤ (finished finish kept bound).card := by
  induction keeping generalizing chosen bound with
  | nothing =>
      rw [Finset.subset_empty.mp subset]
  | @keeps arrived kept item earlier induction =>
      rw [List.nodup_cons] at nodup
      rw [List.pairwise_cons] at sorted
      have fresh : item ∉ kept :=
        fun member => nodup.1 (List.mem_toFinset.mp (earlier.subset member))
      apply finished_le_insert fresh
      intro bound
      apply induction nodup.2 sorted.2 fun other member => nonempty other (.tail _ member)
      · rwa [List.toFinset_cons, Finset.subset_insert_iff] at subset
      · exact fit.mono (Finset.erase_subset _ _)
  | @drops arrived kept item dropped earlier full isAlive latest induction =>
      rw [List.nodup_cons] at nodup
      rw [List.pairwise_cons] at sorted
      have fresh : item ∉ kept :=
        fun member => nodup.1 (List.mem_toFinset.mp (earlier.subset member))
      have started : ∀ other ∈ chosen, start other ≤ start item := by
        intro other member
        cases List.mem_cons.mp (List.mem_toFinset.mp (subset member)) with
        | inl isItem => rw [isItem]
        | inr old => exact sorted.1 other old
      apply finished_le_erase_dropped fresh started (nonempty item (.head _)) fit _ full isAlive latest
      intro bound
      apply induction nodup.2 sorted.2 fun other member => nonempty other (.tail _ member)
      · rwa [List.toFinset_cons, Finset.subset_insert_iff] at subset
      · exact fit.mono (Finset.erase_subset _ _)

/-- No choice of intervals that leaves enough room everywhere is larger. -/
theorem Kept.card_le (keeping : Kept start finish room arrived kept) (nodup : arrived.Nodup)
    (sorted : arrived.Pairwise fun later earlier => start earlier ≤ start later)
    (nonempty : ∀ item ∈ arrived, start item < finish item)
    (subset : chosen ⊆ arrived.toFinset) (fit : Fit start finish room chosen) :
    chosen.card ≤ kept.card := by
  have all : (finished finish chosen (chosen.sup finish)).card ≤
      (finished finish kept (chosen.sup finish)).card :=
    keeping.finished_le nodup sorted nonempty subset fit
  have done : finished finish chosen (chosen.sup finish) = chosen :=
    Finset.filter_true_of_mem fun item member => Finset.le_sup member
  rw [done] at all
  exact all.trans (Finset.card_filter_le _ _)

end LeechJit.Keeping
