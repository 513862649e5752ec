import Mathlib.Data.List.Basic
import Mathlib.Data.List.Sort
import Mathlib.Order.Basic

/-!
# Ordered maps

A finite map as the sorted list of its pairs: lookups, updates, deletion of a key and of a range, and
scans of a range in key order. A map is determined by its lookups, and a scan by the lookups in its
range; the first pair of a scan is the one with the least key.

## Main definitions

* `OrderedMap` — a list of pairs with strictly ascending keys
* `OrderedMap.get`, `OrderedMap.set`, `OrderedMap.erase`, `OrderedMap.eraseIf`
* `OrderedMap.filterMap` — change or drop every value

## Main results

* `OrderedMap.get_set`, `OrderedMap.get_erase`, `OrderedMap.get_eraseIf` — lookups after updates
* `OrderedMap.mem_entries` — a pair is an entry exactly when the lookup finds it
* `OrderedMap.ext_get` — maps with equal lookups are equal
* `OrderedMap.filter_congr` — scans with equal lookups are equal
-/

namespace Rift

open List

/-- A finite map with its pairs in ascending key order. -/
structure OrderedMap (K V : Type*) [LinearOrder K] where
  entries : List (K × V) := []
  sorted : entries.Pairwise (fun a b => a.1 < b.1) := by simp

namespace OrderedMap

variable {K V : Type*} [LinearOrder K] (m : OrderedMap K V) {p : K × V → Bool}

instance [DecidableEq V] : DecidableEq (OrderedMap K V) := fun a b =>
  decidable_of_iff (a.entries = b.entries) (by cases a; cases b; simp)

abbrev empty : OrderedMap K V := {}

instance : Inhabited (OrderedMap K V) := ⟨empty⟩

def get (k : K) : Option V := (m.entries.find? (·.1 = k)).map (·.2)

/-- The entries with the value of one key replaced, or the key inserted at its place. -/
def set (k : K) (v : V) : OrderedMap K V where
  entries := m.entries.filter (·.1 < k) ++ (k, v) :: m.entries.filter (k < ·.1)
  sorted := by
    rw [pairwise_append, pairwise_cons]
    refine ⟨m.sorted.filter _, ⟨?_, m.sorted.filter _⟩, ?_⟩
    · intro p hp
      simpa using (mem_filter.mp hp).2
    · intro p hp q hq
      have hpk : p.1 < k := by simpa using (mem_filter.mp hp).2
      rcases mem_cons.mp hq with rfl | hq
      · exact hpk
      · exact hpk.trans (by simpa using (mem_filter.mp hq).2)

/-- Delete the entries whose key satisfies a condition. -/
def eraseIf (p : K → Bool) : OrderedMap K V where
  entries := m.entries.filter fun e => !p e.1
  sorted := m.sorted.filter _

def erase (k : K) : OrderedMap K V := m.eraseIf (· = k)

/-- Change every value, and delete the entries whose value is dropped. -/
def filterMap {W : Type*} (f : V → Option W) : OrderedMap K W where
  entries := m.entries.filterMap fun e => (f e.2).map (e.1, ·)
  sorted := by
    refine pairwise_filterMap.mpr (m.sorted.imp fun hlt a ha b hb => ?_)
    obtain ⟨x, -, rfl⟩ := Option.map_eq_some_iff.mp ha
    obtain ⟨y, -, rfl⟩ := Option.map_eq_some_iff.mp hb
    exact hlt

theorem nodup_keys : (m.entries.map (·.1)).Nodup := by
  rw [List.Nodup, pairwise_map]
  exact m.sorted.imp fun h => h.ne

theorem mem_entries {k : K} {v : V} : (k, v) ∈ m.entries ↔ m.get k = some v := by
  have hsorted := m.sorted
  unfold get
  generalize m.entries = es at hsorted ⊢
  induction es with
  | nil => simp
  | cons e es ih =>
    obtain ⟨k', v'⟩ := e
    rw [pairwise_cons] at hsorted
    have hrest : (k, v) ∈ es ↔ (es.find? (·.1 = k)).map (·.2) = some v := ih hsorted.2
    rw [mem_cons, hrest]
    by_cases hk : k' = k
    · subst hk
      rw [find?_cons_of_pos (by simp)]
      simp only [Prod.mk.injEq, true_and, Option.map_some, Option.some.injEq]
      constructor
      · rintro (h | h)
        · exact h.symm
        · -- The rest of the list has larger keys only.
          obtain ⟨q, hq, rfl⟩ := Option.map_eq_some_iff.mp h
          have hlt := hsorted.1 q (mem_of_find?_eq_some hq)
          have heq : q.1 = k' := by simpa using find?_some hq
          exact absurd heq hlt.ne'
      · exact fun h => .inl h.symm
    · rw [find?_cons_of_neg (by simpa using hk)]
      simp [Ne.symm hk]

theorem get_eq_none {k : K} : m.get k = none ↔ ∀ v, (k, v) ∉ m.entries := by
  simp only [mem_entries]
  cases m.get k <;> simp

@[simp] theorem get_empty (k : K) : (({} : OrderedMap K V)).get k = none := rfl

variable {m}

theorem get_congr_of_mem {m₁ m₂ : OrderedMap K V} {k k' : K}
    (h : ∀ v, (k, v) ∈ m₁.entries ↔ (k', v) ∈ m₂.entries) : m₁.get k = m₂.get k' := by
  apply Option.ext
  intro v
  exact (mem_entries m₁).symm.trans ((h v).trans (mem_entries m₂))

@[simp] theorem get_set (k k' : K) (v : V) :
    (m.set k v).get k' = if k = k' then some v else m.get k' := by
  split
  · next h =>
    subst h
    rw [← mem_entries]
    simp [set]
  · next h =>
    apply get_congr_of_mem
    intro w
    simp only [set, mem_append, mem_cons, mem_filter, decide_eq_true_eq,
      Prod.mk.injEq, Ne.symm h, false_and, false_or]
    rcases lt_or_gt_of_ne h with hlt | hlt
    · simp [hlt, hlt.not_gt]
    · simp [hlt, hlt.not_gt]

@[simp] theorem get_eraseIf (p : K → Bool) (k : K) :
    (m.eraseIf p).get k = if p k then none else m.get k := by
  split
  · next h =>
    rw [get_eq_none]
    simp [eraseIf, h]
  · next h =>
    apply get_congr_of_mem
    intro v
    simp [eraseIf, h]

@[simp] theorem get_erase (k k' : K) :
    (m.erase k).get k' = if k = k' then none else m.get k' := by
  simp [erase, eq_comm]

private theorem eq_of_mem_iff {l₁ l₂ : List (K × V)} (h₁ : l₁.Pairwise (fun a b => a.1 < b.1))
    (h₂ : l₂.Pairwise (fun a b => a.1 < b.1)) (h : ∀ e, e ∈ l₁ ↔ e ∈ l₂) : l₁ = l₂ := by
  have hnd : ∀ {l : List (K × V)}, l.Pairwise (fun a b => a.1 < b.1) → l.Nodup :=
    fun hl => hl.imp fun hab heq => (heq ▸ hab).false
  have hperm : l₁.Perm l₂ := (perm_ext_iff_of_nodup (hnd h₁) (hnd h₂)).mpr h
  exact hperm.eq_of_pairwise (fun a b _ _ hab hba => absurd hab hba.not_gt) h₁ h₂

/-- The part of a map that satisfies a condition depends on the lookups there. -/
theorem filter_congr {m₁ m₂ : OrderedMap K V} {q : K × V → Bool}
    (h : ∀ k v, m₁.get k = some v ∧ p (k, v) ↔ m₂.get k = some v ∧ q (k, v)) :
    m₁.entries.filter p = m₂.entries.filter q := by
  apply eq_of_mem_iff (m₁.sorted.filter _) (m₂.sorted.filter _)
  rintro ⟨k, v⟩
  simpa only [mem_filter, mem_entries] using h k v

/-- The part of a map that satisfies a condition, as a sorted list with its elements. -/
theorem filter_eq_of_mem {l : List (K × V)} (hl : l.Pairwise (fun a b => a.1 < b.1))
    (h : ∀ k v, (k, v) ∈ l ↔ m.get k = some v ∧ p (k, v)) : m.entries.filter p = l := by
  apply eq_of_mem_iff (m.sorted.filter _) hl
  rintro ⟨k, v⟩
  rw [h, mem_filter, mem_entries]

section

variable {a b : List (K × V)} {k : K} (mid : List (K × V)) (hm : m.entries = a ++ mid ++ b)
  (ha : ∀ e ∈ a, e.1 < k) (hmid : ∀ e ∈ mid, e.1 = k) (hb : ∀ e ∈ b, k < e.1)
include hm ha hmid hb

theorem entries_set_of_split (v : V) : (m.set k v).entries = a ++ (k, v) :: b := by
  have hlt : m.entries.filter (·.1 < k) = a := by
    rw [hm, filter_append, filter_append, filter_eq_self.mpr (by simpa using ha),
      filter_eq_nil_iff.mpr fun e he => by simp [hmid e he],
      filter_eq_nil_iff.mpr fun e he => by simpa using (hb e he).le]
    simp
  have hgt : m.entries.filter (k < ·.1) = b := by
    rw [hm, filter_append, filter_append,
      filter_eq_nil_iff.mpr fun e he => by simpa using (ha e he).le,
      filter_eq_nil_iff.mpr fun e he => by simp [hmid e he],
      filter_eq_self.mpr (by simpa using hb)]
    simp
  unfold set
  simp only [hlt, hgt]

theorem entries_erase_of_split : (m.erase k).entries = a ++ b := by
  unfold erase eraseIf
  simp only [hm, filter_append]
  rw [filter_eq_self.mpr fun e he => by simpa using (ha e he).ne,
    filter_eq_nil_iff.mpr fun e he => by simp [hmid e he],
    filter_eq_self.mpr fun e he => by simpa using (hb e he).ne', append_nil]

end

theorem ext_get {m₁ m₂ : OrderedMap K V} (h : ∀ k, m₁.get k = m₂.get k) : m₁ = m₂ := by
  have heq : m₁.entries = m₂.entries :=
    eq_of_mem_iff m₁.sorted m₂.sorted fun ⟨k, v⟩ => by rw [mem_entries, mem_entries, h]
  cases m₁
  cases m₂
  simpa using heq

end OrderedMap

end Rift
