import Mathlib.Data.Finset.Card
import Mathlib.Tactic

/-!
# Majorities

A majority of a finite set is a subset with more than half of its elements. Two majorities of one
set meet.

## Main definitions

* `IsMajority` — more than half of a finite set

## Main results

* `IsMajority.inter_nonempty` — two majorities of one set meet
-/

namespace Rift

variable {α : Type*}

/-- More than half of the elements of `V`. -/
def IsMajority (V Q : Finset α) : Prop := Q ⊆ V ∧ V.card < 2 * Q.card

section Single

variable {V Q : Finset α}

/-- In a set of more than one element a majority has an element besides any given one. -/
theorem IsMajority.exists_ne (h : IsMajority V Q) (hV : 1 < V.card) (a : α) :
    ∃ b ∈ Q, b ≠ a := by
  refine Finset.exists_mem_ne ?_ a
  have := h.2
  omega

end Single

variable [DecidableEq α] {V Q R : Finset α}

theorem IsMajority.inter_nonempty (hQ : IsMajority V Q) (hR : IsMajority V R) : ∃ a ∈ Q, a ∈ R := by
  by_contra hdisj
  have hd : Disjoint Q R := Finset.disjoint_left.mpr fun a ha ha' => hdisj ⟨a, ha, ha'⟩
  have hle : (Q ∪ R).card ≤ V.card := Finset.card_le_card (Finset.union_subset hQ.1 hR.1)
  rw [Finset.card_union_of_disjoint hd] at hle
  have hq := hQ.2
  have hr := hR.2
  omega

end Rift
