import Mathlib.Data.List.Perm.Basic
import Mathlib.Order.Lattice

/-!
# Binary heaps in an array

The children of the place `i` are `2 * i + 1` and `2 * i + 2`. An element that was put in is moved up
past the parents it comes before. Taking out the root puts the last element in its place, which is moved
down. While one element is on its way, the order holds everywhere but at that element, and across it.
-/

namespace Rift.Heap

variable {α κ : Type*}

section

variable (before : α → α → Bool)

/-- Move an element up while it comes before its parent. -/
def siftUp (a : Array α) (i : ℕ) (hi : i < a.size) : Array α :=
  if h : 0 < i then
    have hp : (i - 1) / 2 < a.size := by omega
    if before a[i] a[(i - 1) / 2] then
      siftUp (a.swap i ((i - 1) / 2)) ((i - 1) / 2) (by simpa using hp)
    else a
  else a
termination_by i

/-- Of an element and its children, the one that comes first. -/
def smallest (a : Array α) (i : Fin a.size) : Fin a.size :=
  let small := if h : 2 * i.1 + 1 < a.size then
    if before a[2 * i.1 + 1] a[i] then ⟨2 * i + 1, h⟩ else i else i
  if h : 2 * i.1 + 2 < a.size then if before a[2 * i.1 + 2] a[small] then ⟨2 * i + 2, h⟩ else small
  else small

theorem le_smallest (a : Array α) (i : Fin a.size) : i ≤ smallest before a i := by
  unfold smallest
  grind

/-- Move an element down while a child comes before it. -/
def siftDown (a : Array α) (i : Fin a.size) : Array α :=
  if smallest before a i = i then a
  else siftDown (a.swap i (smallest before a i)) ⟨smallest before a i, by simp⟩
termination_by a.size - i
decreasing_by
  have := le_smallest before a i
  simp
  grind

def push (a : Array α) (x : α) : Array α := siftUp before (a.push x) a.size (by simp)

/-- Move the root down. -/
def settle (a : Array α) : Array α := if h : 0 < a.size then siftDown before a ⟨0, h⟩ else a

def pop (a : Array α) : Option (α × Array α) :=
  if h : 0 < a.size then some (a[0], settle before (a.set 0 a[a.size - 1]).pop) else none

end

/-! ### The elements stay the same -/

variable {before : α → α → Bool} {a : Array α}

theorem perm_siftUp {i : ℕ} {hi : i < a.size} : (siftUp before a i hi).Perm a := by
  fun_induction siftUp before a i hi with
  | case1 a i hi hpos hp hlt ih => exact ih.trans (Array.swap_perm _ _)
  | case2 => exact .refl _
  | case3 => exact .refl _

theorem perm_siftDown {i : Fin a.size} : (siftDown before a i).Perm a := by
  fun_induction siftDown before a i with
  | case1 => exact .refl _
  | case2 a i hsmall ih => exact ih.trans (Array.swap_perm _ _)

theorem perm_push (x : α) : (push before a x).toList.Perm (x :: a.toList) := by
  have h : (push before a x).toList.Perm (a.push x).toList := Array.perm_iff_toList_perm.mp perm_siftUp
  rw [Array.toList_push] at h
  exact h.trans (List.perm_append_singleton _ _)

theorem perm_root (h : 0 < a.size) :
    (a[0] :: (a.set 0 a[a.size - 1]).pop.toList).Perm a.toList := by
  obtain ⟨l⟩ := a
  cases l with
  | nil => exact absurd h (Nat.lt_irrefl _)
  | cons x l =>
    rcases l.eq_nil_or_concat with rfl | ⟨l, y, rfl⟩
    · simp
    · have hlast : (y :: (l ++ [y])).dropLast = y :: l := by
        rw [← List.cons_append, List.dropLast_concat]
      simpa [hlast] using (List.perm_append_singleton y l).symm

/-! ### The order -/

variable [LinearOrder κ] {key : α → κ}

section

variable (key)

/-- No element comes before its parent, apart from the elements at the places with `p`. -/
def OrderedOff (p : ℕ → Prop) (a : Array α) : Prop :=
  ∀ j (hj : j < a.size) (hp : (j - 1) / 2 < a.size), 0 < j → ¬ p j → key a[(j - 1) / 2] ≤ key a[j]

abbrev Ordered (a : Array α) : Prop := OrderedOff key (fun _ => False) a

/-- The children of a place do not come before its parent. -/
def Spans (i : ℕ) (a : Array α) : Prop :=
  ∀ j (hj : j < a.size) (hp : (i - 1) / 2 < a.size), 0 < i → 0 < j → (j - 1) / 2 = i →
    key a[(i - 1) / 2] ≤ key a[j]

end

theorem Ordered.root_le (h : Ordered key a) {j : ℕ} (hj : j < a.size) (h₀ : 0 < a.size) :
    key a[0] ≤ key a[j] := by
  induction j using Nat.strongRecOn with
  | _ j ih =>
    rcases Nat.eq_zero_or_pos j with rfl | hpos
    · exact le_rfl
    · exact (ih ((j - 1) / 2) (by omega) (by omega)).trans (h j hj (by omega) hpos not_false)

theorem orderedOff_swap {i k : ℕ} {hi : i < a.size} {hk : k < a.size}
    (h : OrderedOff key (fun j => (j - 1) / 2 = i) a) (hs : Spans key i a) (hpos : 0 < k)
    (hparent : (k - 1) / 2 = i)
    (hleast : ∀ j (hj : j < a.size), 0 < j → (j - 1) / 2 = i → key a[k] ≤ key a[j])
    (hlt : key a[k] < key a[i]) :
    OrderedOff key (fun j => (j - 1) / 2 = k) (a.swap i k hi hk) ∧
      Spans key k (a.swap i k hi hk) := by
  constructor
  · intro j hj hp hj₀ hne
    simp only [Array.size_swap] at hj hp
    simp only [Array.getElem_swap]
    have hoff := h j hj hp hj₀
    have hacross := hs k hk
    have hfirst := hleast j hj hj₀
    split_ifs <;> grind
  · intro j hj hp _ hj₀ hjk
    simp only [Array.size_swap] at hj hp
    simp only [Array.getElem_swap]
    have hoff := h j hj (by omega) hj₀
    split_ifs <;> grind

variable (hb : ∀ x y, before x y ↔ key x < key y)
include hb

theorem ordered_siftUp {i : ℕ} {hi : i < a.size} (h : OrderedOff key (· = i) a)
    (hs : Spans key i a) : Ordered key (siftUp before a i hi) := by
  fun_induction siftUp before a i hi with
  | case1 a i hi hpos hparent hlt ih =>
    rw [hb] at hlt
    refine ih ?_ ?_
    · intro j hj hp hj₀ hne
      simp only [Array.size_swap] at hj hp
      simp only [Array.getElem_swap]
      have hoff := h j hj hp hj₀
      have hacross := hs j hj
      split_ifs <;> grind
    · intro j hj hp hi₀ hj₀ hji
      simp only [Array.size_swap] at hj hp
      simp only [Array.getElem_swap]
      have hoff := h j hj
      have habove := h ((i - 1) / 2) (by omega) (by omega) hi₀
      split_ifs <;> grind
  | case2 a i hi hpos hparent hlt =>
    rw [hb, not_lt] at hlt
    intro j hj hp hj₀ _
    by_cases hji : j = i
    · subst hji
      exact hlt
    · exact h j hj hp hj₀ hji
  | case3 a i hi hpos => exact fun j hj hp hj₀ _ => h j hj hp hj₀ (by omega)

theorem smallest_spec (a : Array α) (i : Fin a.size) :
    (smallest before a i = i ∨ 0 < (smallest before a i).1 ∧
      ((smallest before a i).1 - 1) / 2 = i ∧ key a[smallest before a i] < key a[i]) ∧
    ∀ j (hj : j < a.size), 0 < j → (j - 1) / 2 = i → key a[smallest before a i] ≤ key a[j] := by
  have hchild : ∀ j : ℕ, 0 < j → (j - 1) / 2 = i.1 → j = 2 * i.1 + 1 ∨ j = 2 * i.1 + 2 := by omega
  unfold smallest
  simp only [hb]
  grind

theorem ordered_siftDown {i : Fin a.size} (h : OrderedOff key (fun j => (j - 1) / 2 = i) a)
    (hs : Spans key i a) : Ordered key (siftDown before a i) := by
  fun_induction siftDown before a i with
  | case1 a i hsmall =>
    intro j hj hp hj₀ _
    by_cases hji : (j - 1) / 2 = i
    · have hleast := (smallest_spec hb a i).2 j hj hj₀ hji
      grind
    · exact h j hj hp hj₀ hji
  | case2 a i hsmall ih =>
    obtain ⟨hchild, hleast⟩ := smallest_spec hb a i
    obtain ⟨hpos, hparent, hlt⟩ := hchild.resolve_left hsmall
    obtain ⟨h', hs'⟩ := orderedOff_swap h hs hpos hparent hleast hlt
    exact ih h' hs'

theorem ordered_push (h : Ordered key a) (x : α) : Ordered key (push before a x) := by
  refine ordered_siftUp hb ?_ fun j hj _ hpos _ hji => ?_
  · intro j hj hp hj₀ hne
    simp only [Array.size_push] at hj
    have hoff := h j (by omega) (by omega) hj₀
    grind
  · simp only [Array.size_push] at hj
    omega

theorem pop_spec (h : Ordered key a) (h₀ : 0 < a.size) :
    ∃ x rest, pop before a = some (x, rest) ∧ Ordered key rest ∧
      (x :: rest.toList).Perm a.toList ∧ ∀ y ∈ rest.toList, key x ≤ key y := by
  have hperm : (a[0] :: (settle before (a.set 0 a[a.size - 1]).pop).toList).Perm a.toList := by
    refine .trans (.cons _ ?_) (perm_root h₀)
    unfold settle
    split_ifs
    · exact Array.perm_iff_toList_perm.mp perm_siftDown
    · exact .refl _
  refine ⟨_, _, dif_pos h₀, ?_, hperm, fun y hy => ?_⟩
  · unfold settle
    split_ifs with h'
    · -- only the children of the root may come before their parent
      refine ordered_siftDown hb (fun j hj hp hj₀ hne => ?_) fun _ _ _ hi => absurd hi (by simp)
      simp only [Array.size_pop, Array.size_set] at hj hp
      have hoff := h j (by omega) (by omega) hj₀ not_false
      simp only [Array.getElem_pop, Array.getElem_set]
      grind
    · exact fun j hj => absurd (Nat.zero_lt_of_lt hj) h'
  · obtain ⟨j, hj, rfl⟩ := List.getElem_of_mem (hperm.subset (List.mem_cons_of_mem _ hy))
    exact h.root_le hj h₀

end Rift.Heap
