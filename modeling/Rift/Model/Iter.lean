import Rift.Lib.Sorted
import Rift.Model.DB

/-!
# The reference iterator

`engine/model/iter.go`: an index into the sorted entries of one version, kept inside the range of
indices that the bounds allow.
-/

namespace Rift.Model

open List

/-- The first index whose key is at or after `k`, by binary search. -/
def Version.search (v : Version) (k : Bytes) : ℕ :=
  bisect (fun i => v.entries[i]?.any (·.1 < k)) v.entries.length

/-- An index into the entries of a version; outside the bounds it is invalid. -/
structure Iter where
  v : Version
  lo : Option Bytes := none
  hi : Option Bytes := none
  pos : ℤ := -1
  valid : Bool := false

namespace Iter

variable (it : Iter)

/-- The half-open range of indices that may be visited. -/
def bounds : ℕ × ℕ :=
  let lo := it.lo.elim 0 it.v.search
  let hi := it.hi.elim it.v.entries.length it.v.search
  (lo, if hi < lo then lo else hi)

def settle (i : ℤ) : Iter :=
  { it with valid := it.bounds.1 ≤ i && i < it.bounds.2, pos := i }

def seekGE (key : Bytes) : Iter :=
  let target := match it.lo with
    | some l => if key < l then l else key
    | none => key
  let i := it.v.search target
  it.settle (if i < it.bounds.1 then it.bounds.1 else i : ℕ)

def seekLT (key : Bytes) : Iter := it.settle (it.v.search key - 1)

def first : Iter := it.settle it.bounds.1

def last : Iter := it.settle (it.bounds.2 - 1)

def next : Iter := if !it.valid then it else it.settle (it.pos + 1)

def prev : Iter := if !it.valid then it else it.settle (it.pos - 1)

/-- The key and the value the iterator stands on. -/
def position : Option (Bytes × Bytes) :=
  if it.valid then it.v.entries[it.pos.toNat]? else none

/-! ### Where a call lands -/

/-- An entry inside the bounds whose key satisfies a condition. -/
def Shows (P : Bytes → Prop) (p : Bytes × Bytes) : Prop :=
  p ∈ it.v.entries ∧ ((∀ l ∈ it.lo, l ≤ p.1) ∧ ∀ h ∈ it.hi, p.1 < h) ∧ P p.1

/-- A valid iterator has its index in range. -/
def Ok : Prop := it.valid → it.bounds.1 ≤ it.pos ∧ it.pos < it.bounds.2

end Iter

theorem Version.search_spec (v : Version) (k : Bytes) : v.search k ≤ v.entries.length ∧
    ∀ (j : ℕ) (p : Bytes × Bytes), v.entries[j]? = some p → (p.1 < k ↔ j < v.search k) := by
  have hdown : ∀ i j, i ≤ j → j < v.entries.length → v.entries[j]?.any (·.1 < k) →
      v.entries[i]?.any (·.1 < k) := by
    intro i j hij hj hjk
    have hi : i < v.entries.length := hij.trans_lt hj
    rw [getElem?_eq_getElem hj] at hjk
    rw [getElem?_eq_getElem hi]
    have hle := key_le_of_getElem? v.sorted hij (getElem?_eq_getElem hi)
      (getElem?_eq_getElem hj)
    simp only [Option.any_some, decide_eq_true_eq] at hjk ⊢
    exact hle.trans_lt hjk
  obtain ⟨hle, hspec⟩ := bisect_spec hdown
  refine ⟨hle, fun j p hp => ?_⟩
  have hj := hspec j (List.getElem?_eq_some_iff.mp hp).1
  rw [hp, Option.any_some, decide_eq_true_eq] at hj
  exact hj

theorem Version.search_mono (v : Version) {k k' : Bytes} (h : k ≤ k') :
    v.search k ≤ v.search k' := by
  by_contra hlt
  have hlen := (v.search_spec k).1
  have hp := getElem?_eq_getElem (show v.search k' < v.entries.length by omega)
  have hbelow := ((v.search_spec k).2 _ _ hp).mpr (by omega)
  exact absurd (((v.search_spec k').2 _ _ hp).mp (hbelow.trans_le h)) (lt_irrefl _)

namespace Iter

variable {it : Iter} {P : Bytes → Prop}

theorem bounds_le : it.bounds.2 ≤ it.v.entries.length := by
  have hlo : it.lo.elim 0 it.v.search ≤ it.v.entries.length := by
    cases it.lo with
    | none => exact Nat.zero_le _
    | some l => exact (it.v.search_spec l).1
  have hhi : it.hi.elim it.v.entries.length it.v.search ≤ it.v.entries.length := by
    cases it.hi with
    | none => exact le_rfl
    | some h => exact (it.v.search_spec h).1
  simp only [bounds]
  split_ifs <;> assumption

theorem within_iff {j : ℕ} {p : Bytes × Bytes} (hp : it.v.entries[j]? = some p) :
    ((∀ l ∈ it.lo, l ≤ p.1) ∧ ∀ h ∈ it.hi, p.1 < h) ↔ it.bounds.1 ≤ j ∧ j < it.bounds.2 := by
  have hlo : (∀ l ∈ it.lo, l ≤ p.1) ↔ it.lo.elim 0 it.v.search ≤ j := by
    cases it.lo with
    | none => simp
    | some l => simpa using not_congr ((it.v.search_spec l).2 j p hp)
  have hhi : (∀ h ∈ it.hi, p.1 < h) ↔ j < it.hi.elim it.v.entries.length it.v.search := by
    cases it.hi with
    | none => simpa using (List.getElem?_eq_some_iff.mp hp).1
    | some h => simpa using (it.v.search_spec h).2 j p hp
  rw [hlo, hhi]
  simp only [bounds]
  split_ifs <;> omega

@[simp] theorem bounds_settle (i : ℤ) : (it.settle i).bounds = it.bounds := rfl

theorem ok_settle (i : ℤ) : (it.settle i).Ok := fun h => by
  rw [bounds_settle]
  simpa [settle] using h

theorem isFirst_settle {i : ℕ} (hlo : it.bounds.1 ≤ i)
    (h : ∀ (j : ℕ) (p : Bytes × Bytes), it.v.entries[j]? = some p →
      it.bounds.1 ≤ j ∧ j < it.bounds.2 → (P p.1 ↔ i ≤ j)) :
    IsFirst Prod.fst (it.Shows P) (it.settle i).position := by
  by_cases hi : i < it.bounds.2
  · have he := getElem?_eq_getElem (hi.trans_le bounds_le)
    have hpos : (it.settle i).position = some (it.v.entries.get ⟨i, hi.trans_le bounds_le⟩) := by
      simp [position, settle, hlo, hi]
    rw [hpos]
    refine ⟨⟨get_mem _ _, (within_iff he).mpr ⟨hlo, hi⟩, (h i _ he ⟨hlo, hi⟩).mpr le_rfl⟩, ?_⟩
    rintro p ⟨hp, hwithin, hP⟩
    obtain ⟨j, hj⟩ := mem_iff_getElem?.mp hp
    have hin := (within_iff hj).mp hwithin
    exact key_le_of_getElem? it.v.sorted ((h j p hj hin).mp hP) he hj
  · have hpos : (it.settle i).position = none := by
      simp [position, settle, hi]
    rw [hpos]
    rintro p ⟨hp, hwithin, hP⟩
    obtain ⟨j, hj⟩ := mem_iff_getElem?.mp hp
    have hin := (within_iff hj).mp hwithin
    exact hi (((h j p hj hin).mp hP).trans_lt hin.2)

theorem isLast_settle {i : ℤ} (hhi : i < it.bounds.2)
    (h : ∀ (j : ℕ) (p : Bytes × Bytes), it.v.entries[j]? = some p →
      it.bounds.1 ≤ j ∧ j < it.bounds.2 → (P p.1 ↔ j ≤ i)) :
    IsLast Prod.fst (it.Shows P) (it.settle i).position := by
  by_cases hlo : it.bounds.1 ≤ i
  · obtain ⟨i, rfl⟩ := Int.eq_ofNat_of_zero_le ((Int.natCast_nonneg _).trans hlo)
    have hi : i < it.bounds.2 := by exact_mod_cast hhi
    have hlo : it.bounds.1 ≤ i := by exact_mod_cast hlo
    have he := getElem?_eq_getElem (hi.trans_le bounds_le)
    have hpos : (it.settle i).position = some (it.v.entries.get ⟨i, hi.trans_le bounds_le⟩) := by
      simp [position, settle, hlo, hi]
    rw [hpos, isLast_some]
    refine ⟨⟨get_mem _ _, (within_iff he).mpr ⟨hlo, hi⟩, (h i _ he ⟨hlo, hi⟩).mpr le_rfl⟩, ?_⟩
    rintro p ⟨hp, hwithin, hP⟩
    obtain ⟨j, hj⟩ := mem_iff_getElem?.mp hp
    have hin := (within_iff hj).mp hwithin
    exact key_le_of_getElem? it.v.sorted (by exact_mod_cast (h j p hj hin).mp hP) hj he
  · have hpos : (it.settle i).position = none := by
      simp [position, settle, hlo]
    rw [hpos, isLast_none]
    rintro p ⟨hp, hwithin, hP⟩
    obtain ⟨j, hj⟩ := mem_iff_getElem?.mp hp
    have hin := (within_iff hj).mp hwithin
    have := (h j p hj hin).mp hP
    omega

/-! ### The calls -/

theorem isFirst_first : IsFirst Prod.fst (it.Shows fun _ => True) it.first.position :=
  isFirst_settle le_rfl fun _ _ _ hin => ⟨fun _ => hin.1, fun _ => trivial⟩

theorem isLast_last : IsLast Prod.fst (it.Shows fun _ => True) it.last.position :=
  isLast_settle (by omega) fun _ _ _ hin => ⟨fun _ => by omega, fun _ => trivial⟩

theorem isFirst_seekGE (key : Bytes) :
    IsFirst Prod.fst (it.Shows (key ≤ ·)) (it.seekGE key).position := by
  have htarget : ∀ k, (∀ l ∈ it.lo, l ≤ k) →
      ((match it.lo with
        | some l => if key < l then l else key
        | none => key) ≤ k ↔ key ≤ k) := by
    intro k hk
    cases hlo : it.lo with
    | none => rfl
    | some l =>
      dsimp only
      split_ifs with hlt
      · exact ⟨fun h => hlt.le.trans h, fun _ => hk l hlo⟩
      · rfl
  simp only [seekGE]
  generalize (match it.lo with
    | some l => if key < l then l else key
    | none => key) = target at htarget
  refine isFirst_settle (by split_ifs <;> omega) fun j p hp hin => ?_
  have hsearch := (it.v.search_spec target).2 j p hp
  rw [← htarget p.1 ((within_iff hp).mpr hin).1, ← not_lt, hsearch]
  split_ifs <;> omega

/-- A key above the upper bound may have its predecessor outside of the bounds; the iterator is then
invalid, with entries inside the bounds below it. -/
theorem isLast_seekLT {key : Bytes} (hkey : ∀ h ∈ it.hi, key ≤ h) :
    IsLast Prod.fst (it.Shows (· < key)) (it.seekLT key).position := by
  have hle : it.v.search key ≤ it.hi.elim it.v.entries.length it.v.search := by
    cases hhi : it.hi with
    | none => exact (it.v.search_spec key).1
    | some h => exact it.v.search_mono (hkey h hhi)
  have hlt : (it.v.search key : ℤ) - 1 < it.bounds.2 := by
    simp only [bounds]
    split_ifs <;> omega
  refine isLast_settle hlt fun j p hp hin => ?_
  rw [(it.v.search_spec key).2 j p hp]
  omega

section

variable (hok : it.Ok) (hvalid : it.valid)
include hok hvalid

theorem position_of_valid : ∃ (i : ℕ) (p : Bytes × Bytes), it.pos = i ∧ it.v.entries[i]? = some p ∧
    it.position = some p ∧ it.bounds.1 ≤ i ∧ i < it.bounds.2 := by
  obtain ⟨hlo, hhi⟩ := hok hvalid
  obtain ⟨i, hi⟩ := Int.eq_ofNat_of_zero_le ((Int.natCast_nonneg _).trans hlo)
  have hlt : i < it.bounds.2 := by omega
  have hp := getElem?_eq_getElem (hlt.trans_le bounds_le)
  refine ⟨i, _, hi, hp, ?_, by omega, hlt⟩
  rw [position, if_pos hvalid, hi]
  exact hp

theorem isFirst_next : ∃ p, it.position = some p ∧
    IsFirst Prod.fst (it.Shows (p.1 < ·)) it.next.position := by
  obtain ⟨i, p, hi, hp, hpos, hlo, hhi⟩ := position_of_valid hok hvalid
  have hnext : it.next = it.settle (i + 1 : ℕ) := by
    rw [next, if_neg (by simpa using hvalid), hi]
    rfl
  refine ⟨p, hpos, ?_⟩
  rw [hnext]
  exact isFirst_settle (by omega) fun j q hq _ => lt_iff_of_getElem? it.v.sorted hp hq

theorem isLast_prev : ∃ p, it.position = some p ∧
    IsLast Prod.fst (it.Shows (· < p.1)) it.prev.position := by
  obtain ⟨i, p, hi, hp, hpos, hlo, hhi⟩ := position_of_valid hok hvalid
  have hprev : it.prev = it.settle (i - 1) := by
    rw [prev, if_neg (by simpa using hvalid), hi]
  refine ⟨p, hpos, ?_⟩
  rw [hprev]
  refine isLast_settle (by omega) fun j q hq _ => ?_
  rw [show q.1 < p.1 ↔ j < i from lt_iff_of_getElem? it.v.sorted hq hp]
  omega

end

end Iter

end Rift.Model
