import Mathlib.Data.List.Basic

/-!
# A store with writes in flight

A store accepts writes in order, each under a numbered mark, and learns later that every
write up to some mark has landed. A `Journal` keeps the value that is known to be stable and,
for each write in flight, the value the store has once that write has landed.

## Main definitions

* `Journal` — the stable value and the values in flight
* `Journal.newest` — the value once everything in flight has landed
* `Journal.push` — a new write
* `Journal.land` — every write up to a mark has landed
* `Journal.Ordered` — the marks in flight never decrease

## Main results

* `Journal.newest_land` — landing loses no write
* `Journal.land_stable` — the value a landed mark leaves is the one its own write announced
-/

/-- A stable value and the values that writes in flight lead to. -/
structure Journal (α : Type*) where
  stable : α
  inFlight : List (ℕ × α) := []
  deriving DecidableEq

namespace Journal

open List

variable {α : Type*} {j : Journal α} {m : ℕ} {a : α} {l : List (ℕ × α)} {x : ℕ × α}

/-- The value once everything in flight has landed. -/
def newest (j : Journal α) : α := (j.inFlight.getLast?.map Prod.snd).getD j.stable

/-- A new write under mark `m` that leads to the value `a`. -/
def push (j : Journal α) (m : ℕ) (a : α) : Journal α :=
  { j with inFlight := j.inFlight ++ [(m, a)] }

/-- Every write up to mark `m` has landed. -/
def land (j : Journal α) (m : ℕ) : Journal α where
  stable := ((j.inFlight.filter (·.1 ≤ m)).getLast?.map Prod.snd).getD j.stable
  inFlight := j.inFlight.filter (m < ·.1)

/-- The marks in flight never decrease. -/
def Ordered (j : Journal α) : Prop := j.inFlight.Pairwise fun x y => x.1 ≤ y.1

/-- The values a crash may leave behind: the stable one and every one in flight. -/
def versions (j : Journal α) : List α := j.stable :: j.inFlight.map Prod.snd

@[simp] theorem newest_push : (j.push m a).newest = a := by simp [newest, push]

theorem mem_push : x ∈ (j.push m a).inFlight ↔ x ∈ j.inFlight ∨ x = (m, a) := by
  simp [push]

theorem mem_versions_push {b : α} : b ∈ (j.push m a).versions ↔ b ∈ j.versions ∨ b = a := by
  simp [versions, push, or_assoc]

theorem mem_land : x ∈ (j.land m).inFlight ↔ x ∈ j.inFlight ∧ m < x.1 := by
  simp [land]

theorem le_or_mem_newer {n : ℕ} (h : n ∈ l.map Prod.fst) (m : ℕ) :
    n ≤ m ∨ n ∈ (l.filter (m < ·.1)).map Prod.fst := by
  obtain ⟨x, hx, rfl⟩ := mem_map.mp h
  rcases Nat.lt_or_ge m x.1 with hlt | hge
  · exact .inr (mem_map_of_mem (mem_filter.mpr ⟨hx, by simpa using hlt⟩))
  · exact .inl hge

theorem Ordered.push (h : j.Ordered) (hm : ∀ x ∈ j.inFlight, x.1 ≤ m) :
    (j.push m a).Ordered := by
  refine pairwise_append.mpr ⟨h, pairwise_singleton _ _, ?_⟩
  intro x hx y hy
  rw [mem_singleton.mp hy]
  exact hm x hx

theorem Ordered.land (h : j.Ordered) (m : ℕ) : (j.land m).Ordered :=
  List.Pairwise.sublist filter_sublist h

/-- In an ordered list, what a mark covers comes before what it does not cover. -/
theorem filter_append_filter (h : l.Pairwise fun x y => x.1 ≤ y.1) (m : ℕ) :
    l.filter (·.1 ≤ m) ++ l.filter (m < ·.1) = l := by
  induction l with
  | nil => rfl
  | cons x l ih =>
    obtain ⟨hx, hl⟩ := pairwise_cons.mp h
    by_cases hm : x.1 ≤ m
    · rw [filter_cons_of_pos (by simpa using hm), filter_cons_of_neg (by simpa using hm),
        cons_append, ih hl]
    · have hnone : l.filter (·.1 ≤ m) = [] := by
        refine filter_eq_nil_iff.mpr fun y hy => ?_
        have := hx y hy
        simp only [decide_eq_true_eq]
        omega
      have hall : l.filter (m < ·.1) = l := by
        refine filter_eq_self.mpr fun y hy => ?_
        have := hx y hy
        simp only [decide_eq_true_eq]
        omega
      rw [filter_cons_of_neg (by simpa using hm),
        filter_cons_of_pos (by simpa using hm), hnone, hall, nil_append]

theorem newest_land (h : j.Ordered) (m : ℕ) : (j.land m).newest = j.newest := by
  have hsplit := filter_append_filter h m
  unfold newest land
  dsimp only
  rcases eq_nil_or_concat (j.inFlight.filter (m < ·.1)) with hnil | ⟨l, x, hx⟩
  · rw [hnil, append_nil] at hsplit
    rw [hnil, hsplit]
    rfl
  · have hlast : j.inFlight.getLast? = some x := by
      rw [← hsplit, hx, concat_eq_append, ← append_assoc, getLast?_concat]
    rw [hlast, hx, concat_eq_append, getLast?_concat]
    rfl

theorem land_stable (h : j.Ordered) (hm : m ∈ j.inFlight.map Prod.fst) :
    ∃ x ∈ j.inFlight, x.1 = m ∧ (j.land m).stable = x.2 := by
  obtain ⟨y, hy, rfl⟩ := mem_map.mp hm
  have hmem : y ∈ j.inFlight.filter (·.1 ≤ y.1) := by simp [hy]
  rcases eq_nil_or_concat (j.inFlight.filter (·.1 ≤ y.1)) with hnil | ⟨l, x, hx⟩
  · rw [hnil] at hmem
    cases hmem
  · rw [concat_eq_append] at hx
    have hxmem : x ∈ j.inFlight.filter (·.1 ≤ y.1) := by rw [hx]; simp
    obtain ⟨hx₁, hx₂⟩ := mem_filter.mp hxmem
    refine ⟨x, hx₁, Nat.le_antisymm (by simpa using hx₂) ?_, ?_⟩
    · -- The newest of the landed writes is at least as new as the one that carries the mark.
      have hord : (j.inFlight.filter (·.1 ≤ y.1)).Pairwise fun x y => x.1 ≤ y.1 :=
        List.Pairwise.sublist filter_sublist h
      rw [hx] at hord hmem
      rcases mem_append.mp hmem with hl | hl
      · exact (pairwise_append.mp hord).2.2 y hl x (by simp)
      · exact Nat.le_of_eq (congrArg Prod.fst (mem_singleton.mp hl))
    · unfold land
      rw [hx, getLast?_concat]
      rfl

theorem newest_mem_versions (j : Journal α) : j.newest ∈ j.versions := by
  unfold newest
  cases hlast : j.inFlight.getLast? with
  | none => exact mem_cons_self
  | some x => exact mem_cons_of_mem _ (mem_map_of_mem (mem_of_getLast? hlast))

theorem mem_versions_land (ha : a ∈ (j.land m).versions) : a ∈ j.versions := by
  rcases mem_cons.mp ha with rfl | ha
  · unfold land
    dsimp only
    cases hlast : (j.inFlight.filter (·.1 ≤ m)).getLast? with
    | none => exact mem_cons_self
    | some x =>
      have hx := (mem_filter.mp (mem_of_getLast? hlast)).1
      exact mem_cons_of_mem _ (mem_map_of_mem hx)
  · obtain ⟨x, hx, rfl⟩ := mem_map.mp ha
    exact mem_cons_of_mem _ (mem_map_of_mem (mem_land.mp hx).1)

end Journal
