import Mathlib.Data.List.Basic
import Mathlib.Data.List.Sort
import Mathlib.Order.OrderDual

/-!
# Places in sorted lists

What a cursor over a sorted collection stands on is described by the elements there are, not by how
they are stored: it is the first, or the last, of those that satisfy a condition. Several cursors are
merged by taking the least of what they stand on.

## Main definitions

* `IsFirst`, `IsLast` — the first and the last element that satisfies a condition
* `bisect` — binary search for the place where a test stops to hold
* `pickFirst` — the least of several optional elements, by its index

## Main results

* `IsFirst.unique` — with distinct keys there is one first element
* `isFirst_getElem`, `isLast_getElem` — the element at a place of a sorted list
* `bisect_spec` — what binary search finds
* `isFirst_pickFirst` — the least of the firsts is the first of all
* `check_iff_pairwise` — neighbours in a transitive relation are checked for all pairs
-/

namespace Rift

open List

variable {α κ : Type*} [LinearOrder κ] {x : α}

/-! ### Checks of neighbours -/

/-- A check that goes through a list and compares neighbours, by a transitive relation, holds where all
pairs are related. -/
theorem check_iff_pairwise {R : α → α → Prop} {check : List α → Bool}
    (htrans : ∀ {a b c}, R a b → R b c → R a c) (hnil : check []) (hone : ∀ a, check [a])
    (hcons : ∀ a b l, check (a :: b :: l) ↔ R a b ∧ check (b :: l)) (l : List α) :
    check l ↔ l.Pairwise R := by
  have : Trans R R R := ⟨htrans⟩
  rw [← isChain_iff_pairwise]
  induction l with
  | nil => exact iff_of_true hnil .nil
  | cons a l ih =>
    cases l with
    | nil => exact iff_of_true (hone a) (.singleton a)
    | cons b l => simp only [hcons, isChain_cons_cons, ih]

/-! ### The first and the last -/

/-- The element with the least key among those that satisfy `P`; none if there is none. -/
def IsFirst (key : α → κ) (P : α → Prop) : Option α → Prop
  | none => ∀ x, ¬ P x
  | some e => P e ∧ ∀ x, P x → key e ≤ key x

/-- The element with the greatest key among those that satisfy `P`; none if there is none. -/
def IsLast (key : α → κ) (P : α → Prop) : Option α → Prop :=
  IsFirst (fun x => OrderDual.toDual (key x)) P

section

variable {key : α → κ} {P Q : α → Prop} {o o' : Option α}

theorem isLast_none : IsLast key P none ↔ ∀ x, ¬ P x := Iff.rfl

theorem isLast_some {e : α} : IsLast key P (some e) ↔ P e ∧ ∀ x, P x → key x ≤ key e := Iff.rfl

theorem IsFirst.of_mem (h : IsFirst key P o) (hx : x ∈ o) : P x := by
  cases hx
  exact h.1

theorem IsFirst.congr (h : IsFirst key P o) (hPQ : ∀ x, P x ↔ Q x) : IsFirst key Q o := by
  rwa [show Q = P from funext fun x => propext (hPQ x).symm]

theorem IsLast.congr (h : IsLast key P o) (hPQ : ∀ x, P x ↔ Q x) : IsLast key Q o :=
  IsFirst.congr h hPQ

theorem IsFirst.unique (hinj : ∀ x y, P x → P y → key x = key y → x = y)
    (h : IsFirst key P o) (h' : IsFirst key P o') : o = o' := by
  cases o with
  | none =>
    cases o' with
    | none => rfl
    | some e' => exact absurd h'.1 (h e')
  | some e =>
    cases o' with
    | none => exact absurd h.1 (h' e)
    | some e' => exact congrArg some (hinj e e' h.1 h'.1 (le_antisymm (h.2 e' h'.1) (h'.2 e h.1)))

theorem IsLast.unique (hinj : ∀ x y, P x → P y → key x = key y → x = y)
    (h : IsLast key P o) (h' : IsLast key P o') : o = o' :=
  IsFirst.unique (fun x y hx hy hxy => hinj x y hx hy (OrderDual.toDual.injective hxy)) h h'

/-- Elements that the first one satisfies no more can be left out of the condition. -/
theorem IsFirst.of_imp (h : IsFirst key P o) (hQP : ∀ x, Q x → P x) (hQ : ∀ x ∈ o, Q x) :
    IsFirst key Q o := by
  cases o with
  | none => exact fun x hx => h x (hQP x hx)
  | some e => exact ⟨hQ e rfl, fun x hx => h.2 x (hQP x hx)⟩

end

/-! ### Sorted lists -/

section

variable {key : α → κ} {l : List α} {i j : ℕ} {p : α → Bool} {P : α → Prop}

section

variable (hs : l.Pairwise (key · < key ·))
include hs

theorem key_lt_of_getElem? {y : α} (hij : i < j) (hx : l[i]? = some x) (hy : l[j]? = some y) :
    key x < key y := by
  obtain ⟨hi, rfl⟩ := List.getElem?_eq_some_iff.mp hx
  obtain ⟨hj, rfl⟩ := List.getElem?_eq_some_iff.mp hy
  exact List.pairwise_iff_getElem.mp hs i j hi hj hij

theorem key_le_of_getElem? {y : α} (hij : i ≤ j) (hx : l[i]? = some x) (hy : l[j]? = some y) :
    key x ≤ key y := by
  rcases hij.lt_or_eq with h | rfl
  · exact (key_lt_of_getElem? hs h hx hy).le
  · exact (Option.some.inj (hx.symm.trans hy) ▸ le_rfl)

theorem lt_iff_of_getElem? {y : α} (hx : l[i]? = some x) (hy : l[j]? = some y) :
    key x < key y ↔ i < j :=
  ⟨fun h => not_le.mp fun hji => (key_le_of_getElem? hs hji hy hx).not_gt h,
    fun h => key_lt_of_getElem? hs h hx hy⟩

theorem isFirst_getElem (h : ∀ j x, l[j]? = some x → (P x ↔ i ≤ j)) :
    IsFirst key (fun x => x ∈ l ∧ P x) l[i]? := by
  cases hi : l[i]? with
  | none =>
    rintro x ⟨hx, hP⟩
    obtain ⟨j, hj⟩ := mem_iff_getElem?.mp hx
    have hlen := getElem?_eq_none_iff.mp hi
    have hjlen := (List.getElem?_eq_some_iff.mp hj).1
    have := (h j x hj).mp hP
    omega
  | some e =>
    refine ⟨⟨mem_of_getElem? hi, (h i e hi).mpr le_rfl⟩, ?_⟩
    rintro x ⟨hx, hP⟩
    obtain ⟨j, hj⟩ := mem_iff_getElem?.mp hx
    exact key_le_of_getElem? hs ((h j x hj).mp hP) hi hj

theorem isLast_getElem (hi : i < l.length) (h : ∀ j x, l[j]? = some x → (P x ↔ j ≤ i)) :
    IsLast key (fun x => x ∈ l ∧ P x) l[i]? := by
  have he := getElem?_eq_getElem hi
  rw [he]
  refine ⟨⟨getElem_mem hi, (h i _ he).mpr le_rfl⟩, ?_⟩
  rintro x ⟨hx, hP⟩
  obtain ⟨j, hj⟩ := mem_iff_getElem?.mp hx
  exact key_le_of_getElem? hs ((h j x hj).mp hP) hj he

end

/-- The first place whose element fails a test, when the test holds on a lower part. -/
theorem le_findIdx_iff (hp : ∀ x y, key x ≤ key y → p y → p x) (hs : l.Pairwise (key · < key ·))
    (hj : l[j]? = some x) : ¬ p x ↔ l.findIdx (fun y => !p y) ≤ j := by
  obtain ⟨hlen, rfl⟩ := List.getElem?_eq_some_iff.mp hj
  constructor
  · intro hx
    by_contra hlt
    have := not_of_lt_findIdx (not_le.mp hlt)
    simp_all
  · intro hle hx
    have hi : l.findIdx (fun y => !p y) < l.length := hle.trans_lt hlen
    have hfail := findIdx_getElem (w := hi)
    have := hp _ _ (key_le_of_getElem? hs hle (getElem?_eq_getElem hi) hj) hx
    simp [this] at hfail

theorem filter_not_eq_splice {lo hi : ℕ} {l : List α} (hle : lo ≤ hi)
    (h : ∀ j x, l[j]? = some x → (p x = true ↔ lo ≤ j ∧ j < hi)) :
    l.filter (fun x => !p x) = l.take lo ++ l.drop hi := by
  have hmid : l.drop lo = (l.drop lo).take (hi - lo) ++ l.drop hi := by
    conv_lhs => rw [← take_append_drop (hi - lo) (l.drop lo), drop_drop,
      Nat.add_sub_cancel' hle]
  conv_lhs => rw [← take_append_drop lo l, hmid]
  rw [filter_append, filter_append]
  have h₁ : (l.take lo).filter (fun x => !p x) = l.take lo := by
    refine filter_eq_self.mpr fun x hx => ?_
    obtain ⟨j, hj⟩ := mem_iff_getElem?.mp hx
    rw [getElem?_take] at hj
    split_ifs at hj with hlt
    have := h j x hj
    simpa [hlt.not_ge] using this
  have h₂ : ((l.drop lo).take (hi - lo)).filter (fun x => !p x) = [] := by
    refine filter_eq_nil_iff.mpr fun x hx => ?_
    obtain ⟨j, hj⟩ := mem_iff_getElem?.mp hx
    rw [getElem?_take, getElem?_drop] at hj
    split_ifs at hj with hlt
    simpa using (h _ x hj).mpr ⟨Nat.le_add_right _ _, by omega⟩
  have h₃ : (l.drop hi).filter (fun x => !p x) = l.drop hi := by
    refine filter_eq_self.mpr fun x hx => ?_
    obtain ⟨j, hj⟩ := mem_iff_getElem?.mp hx
    rw [getElem?_drop] at hj
    have := h _ x hj
    simpa [show ¬ hi + j < hi by omega] using this
  rw [h₁, h₂, h₃, nil_append]

end

/-! ### Binary search -/

/-- The loop of a binary search: the interval shrinks in every round. -/
def bisectLoop (below : ℕ → Bool) : ℕ → ℕ → ℕ → ℕ
  | 0, lo, _ => lo
  | fuel + 1, lo, hi =>
    if lo < hi then
      let mid := lo + (hi - lo) / 2
      if below mid then bisectLoop below fuel (mid + 1) hi else bisectLoop below fuel lo mid
    else lo

/-- The least index below `n` at which the test fails, or `n`. -/
def bisect (below : ℕ → Bool) (n : ℕ) : ℕ := bisectLoop below n 0 n

section

variable {below : ℕ → Bool} {n : ℕ}

theorem bisectLoop_spec (hdown : ∀ i j, i ≤ j → j < n → below j → below i) (fuel lo hi : ℕ)
    (hfuel : hi - lo ≤ fuel) (hle : lo ≤ hi) (hn : hi ≤ n) (hlo : ∀ i < lo, below i)
    (hhi : ∀ i, hi ≤ i → i < n → ¬ below i) :
    bisectLoop below fuel lo hi ≤ n ∧
      ∀ i < n, below i ↔ i < bisectLoop below fuel lo hi := by
  induction fuel generalizing lo hi with
  | zero =>
    obtain rfl : lo = hi := by omega
    exact ⟨hn, fun i hi => ⟨fun hb => not_le.mp fun h => hhi i h hi hb, hlo i⟩⟩
  | succ fuel ih =>
    simp only [bisectLoop]
    split_ifs with hlt hb
    · -- Everything up to the middle is below.
      refine ih _ _ (by omega) (by omega) hn (fun i hi => ?_) hhi
      exact hdown i _ (Nat.lt_succ_iff.mp hi) (by omega) hb
    · refine ih _ _ (by omega) (by omega) (by omega) hlo fun i hi hin hbi => ?_
      exact hb (hdown _ i hi hin hbi)
    · obtain rfl : lo = hi := by omega
      exact ⟨hn, fun i hi => ⟨fun hb => not_le.mp fun h => hhi i h hi hb, hlo i⟩⟩

/-- For a test that holds on a lower part, binary search finds where that part ends. -/
theorem bisect_spec (hdown : ∀ i j, i ≤ j → j < n → below j → below i) :
    bisect below n ≤ n ∧ ∀ i < n, below i ↔ i < bisect below n :=
  bisectLoop_spec hdown n 0 n (by omega) (Nat.zero_le n) le_rfl (by simp) (by omega)

end

/-! ### The least of several -/

/-- One step of the scan: an index whose element comes strictly before the one picked so far replaces
it. -/
def pickStep (key : α → κ) (o : ℕ → Option α) (current : Option ℕ) (i : ℕ) : Option ℕ :=
  match o i, current.bind o with
  | none, _ => current
  | some _, none => some i
  | some x, some y => if key x < key y then some i else current

/-- The index of the least of the first `n` optional elements, by a linear scan. -/
def pickFirst (key : α → κ) (o : ℕ → Option α) (n : ℕ) : Option ℕ :=
  (List.range n).foldl (pickStep key o) none

section

variable {key : α → κ} {o : ℕ → Option α} {n : ℕ}

theorem pickFirst_succ : pickFirst key o (n + 1) = pickStep key o (pickFirst key o n) n := by
  simp [pickFirst, range_succ]

theorem isFirst_pickFirst_bind :
    IsFirst key (fun x => ∃ i < n, o i = some x) ((pickFirst key o n).bind o) := by
  induction n with
  | zero => simp [pickFirst, IsFirst]
  | succ n ih =>
    have hsplit : ∀ x, (∃ i < n + 1, o i = some x) ↔ (∃ i < n, o i = some x) ∨ o n = some x := by
      intro x
      constructor
      · rintro ⟨i, hi, hx⟩
        rcases Nat.lt_succ_iff_lt_or_eq.mp hi with h | rfl
        · exact .inl ⟨i, h, hx⟩
        · exact .inr hx
      · rintro (⟨i, hi, hx⟩ | hx)
        · exact ⟨i, Nat.lt_succ_of_lt hi, hx⟩
        · exact ⟨n, Nat.lt_succ_self n, hx⟩
    refine IsFirst.congr (P := fun x => (∃ i < n, o i = some x) ∨ o n = some x) ?_
      fun x => (hsplit x).symm
    rw [pickFirst_succ]
    unfold pickStep
    split
    · next hn => simpa [hn] using ih
    · next x hn hnone =>
      rw [hnone] at ih
      simp only [Option.bind_some, hn]
      refine ⟨.inr rfl, ?_⟩
      rintro y (hy | hy)
      · exact absurd hy (ih y)
      · exact (Option.some.inj hy ▸ le_rfl)
    · next x y hn hy =>
      rw [hy] at ih
      split_ifs with hlt
      · simp only [Option.bind_some, hn]
        refine ⟨.inr rfl, ?_⟩
        rintro z (hz | hz)
        · exact hlt.le.trans (ih.2 z hz)
        · exact (Option.some.inj hz ▸ le_rfl)
      · rw [hy]
        refine ⟨.inl ih.1, ?_⟩
        rintro z (hz | hz)
        · exact ih.2 z hz
        · exact Option.some.inj (hn.symm.trans hz) ▸ not_lt.mp hlt

theorem isFirst_pickFirst {P : ℕ → α → Prop} (h : ∀ i < n, IsFirst key (P i) (o i)) :
    IsFirst key (fun x => ∃ i < n, P i x) ((pickFirst key o n).bind o) := by
  have hpick := @isFirst_pickFirst_bind _ _ _ key o n
  cases hc : (pickFirst key o n).bind o with
  | none =>
    rw [hc] at hpick
    rintro x ⟨i, hi, hx⟩
    have hi' := h i hi
    cases ho : o i with
    | none =>
      rw [ho] at hi'
      exact hi' x hx
    | some e => exact hpick e ⟨i, hi, ho⟩
  | some e =>
    rw [hc] at hpick
    obtain ⟨⟨c, hcn, hec⟩, hle⟩ := hpick
    have hPc := h c hcn
    rw [hec] at hPc
    refine ⟨⟨c, hcn, hPc.1⟩, ?_⟩
    rintro x ⟨i, hi, hx⟩
    have hi' := h i hi
    cases ho : o i with
    | none =>
      rw [ho] at hi'
      exact absurd hx (hi' x)
    | some y =>
      rw [ho] at hi'
      exact (hle y ⟨i, hi, ho⟩).trans (hi'.2 x hx)

end

end Rift
