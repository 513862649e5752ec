import Rift.Driver.Extents
import Rift.Driver.Split

/-!
# Where a range is cut

A leader whose range holds enough keys proposes to cut it at the middle one of its keys. The keys are
listed in the order of the engine, which puts shorter keys first, and the halves are compared
bytewise. The right half always holds the cut itself. The left half holds a key unless the cut is the
bytewise least key: with the keys `b` and `aa`, the cut is `aa`, and both keys lie to its right.

## Main definitions

* `LeastInMiddle` — half of the keys are shorter than the bytewise least of them

## Main results

* `split_leaves_both_sides` — when the halves of a proposed split hold keys
* `left_of_split_empty` — a split that leaves everything on the right
-/

namespace Rift.Driver

open Kv Model List

variable {m : Machine} {key : Key}

theorem Machine.maybeSplit_eq_some {threshold : ℕ} {splitPending isLeader : Bool} {id : RangeID}
    {spec : SplitSpec} (h : m.maybeSplit threshold splitPending isLeader id = some spec) :
    ∃ key, splitKeyFor m.store.keys = some key ∧ SplitSpec.cut m.desc key id = spec := by
  unfold Machine.maybeSplit at h
  split_ifs at h
  exact Option.map_eq_some_iff.mp h

theorem exists_splitKeyFor {k₁ k₂ : Key} (h₁ : m.store.Holds k₁) (h₂ : m.store.Holds k₂)
    (hne : k₁ ≠ k₂) : ∃ key, splitKeyFor m.store.keys = some key := by
  have hlen : 1 < m.store.keys.length := by
    by_contra hle
    obtain ⟨k, hk⟩ : ∃ k, m.store.keys ⊆ [k] := by
      match hkeys : m.store.keys with
      | [] => exact ⟨k₁, nil_subset _⟩
      | [k] => exact ⟨k, List.Subset.refl _⟩
      | _ :: _ :: _ => simp [hkeys] at hle
    have hk₁ := mem_singleton.mp (hk (Store.mem_keys.mpr h₁))
    have hk₂ := mem_singleton.mp (hk (Store.mem_keys.mpr h₂))
    exact hne (hk₁.trans hk₂.symm)
  refine ⟨m.store.keys[m.store.keys.length / 2], ?_⟩
  rw [splitKeyFor, if_neg (by omega)]
  exact getElem?_eq_getElem _

/-- The bytewise least of the keys is the one in the middle of their listing: half of the keys are
shorter than it. -/
def LeastInMiddle (keys : List Key) : Prop :=
  ∃ least ∈ keys, (∀ k ∈ keys, least.1 ≤ k.1) ∧
    keys.countP (fun k => k.1.length < least.1.length) = keys.length / 2

/-- Before the bytewise least key, exactly the shorter ones are listed. -/
theorem countP_shorter {keys : List Key} {least : Key} {j : ℕ}
    (hsorted : keys.Pairwise fun a b => listed a < listed b) (hj : keys[j]? = some least)
    (hleast : ∀ k ∈ keys, least.1 ≤ k.1) :
    keys.countP (fun k => k.1.length < least.1.length) = j := by
  induction keys generalizing j with
  | nil => simp at hj
  | cons k ks ih =>
    obtain ⟨hk, hks⟩ := pairwise_cons.mp hsorted
    cases j with
    | zero =>
      obtain rfl : k = least := by simpa using hj
      refine countP_eq_zero.mpr fun x hx => ?_
      rcases mem_cons.mp hx with rfl | hx
      · simp
      · rcases Prod.Lex.toLex_lt_toLex.mp (hk x hx) with hlt | ⟨heq, -⟩
        · simpa using hlt.le
        · simpa using heq.le
    | succ j =>
      have hmem : least ∈ ks := mem_of_getElem? hj
      have hshort : k.1.length < least.1.length := by
        rcases Prod.Lex.toLex_lt_toLex.mp (hk least hmem) with hlt | ⟨-, hlt⟩
        · exact hlt
        · exact absurd hlt (hleast k mem_cons_self).not_gt
      rw [countP_cons_of_pos (by simpa using hshort),
        ih hks hj fun x hx => hleast x (mem_cons_of_mem _ hx)]

/-- The cut is bytewise the least of the keys when the least is in the middle. -/
theorem forall_splitKeyFor_le (h : splitKeyFor m.store.keys = some key) :
    (∀ k, m.store.Holds k → key.1 ≤ k.1) ↔ LeastInMiddle m.store.keys := by
  obtain ⟨hmid, hheld, -⟩ := splitKeyFor_eq_some h
  constructor
  · intro hle
    have hleast : ∀ k ∈ m.store.keys, key.1 ≤ k.1 := fun k hk => hle k (Store.mem_keys.mp hk)
    exact ⟨key, Store.mem_keys.mpr hheld, hleast, countP_shorter m.store.keys_listed hmid hleast⟩
  · rintro ⟨least, hmem, hleast, hcount⟩ k hk
    obtain ⟨j, hj⟩ := mem_iff_getElem?.mp hmem
    rw [← hcount, countP_shorter m.store.keys_listed hj hleast, hj] at hmid
    exact Option.some.inj hmid ▸ hleast k (Store.mem_keys.mpr hk)

theorem RangeDescriptor.clone_of_contains {d : RangeDescriptor} (h : d.contains key) :
    d.clone = d := by
  have hfin : d.fin.bind copyBound = d.fin := by
    cases hd : d.fin with
    | none => rfl
    | some e =>
      have hlt := (RangeDescriptor.contains_iff.mp h).2 e hd
      have hne : e.1 ≠ [] := fun hnil => not_lt_nil _ (hnil ▸ hlt)
      exact copyBound_of_ne_nil hne
  rw [RangeDescriptor.clone, hfin]

/-- A replica that holds versions of two keys, all inside its extent, has a key to cut at. What it
then proposes leaves a key it holds in the right half, and leaves one in the left half exactly when
the bytewise least key is not the one in the middle. -/
theorem split_leaves_both_sides {k₁ k₂ : Key} (h₁ : m.store.Holds k₁) (h₂ : m.store.Holds k₂)
    (hne : k₁ ≠ k₂) (hin : ∀ k, m.store.Holds k → m.desc.contains k) :
    ∃ key, splitKeyFor m.store.keys = some key ∧
      ∀ threshold splitPending isLeader id spec,
        m.maybeSplit threshold splitPending isLeader id = some spec →
          spec = SplitSpec.cut m.desc key id ∧
          (∃ k, m.store.Holds k ∧ spec.right.contains k) ∧
          ((∃ k, m.store.Holds k ∧ spec.left.contains k) ↔ ¬ LeastInMiddle m.store.keys) := by
  obtain ⟨key, hkey⟩ := exists_splitKeyFor h₁ h₂ hne
  obtain ⟨-, hheld, hnil⟩ := splitKeyFor_eq_some hkey
  have hextent := RangeDescriptor.contains_iff_upper.mp (hin key hheld)
  refine ⟨key, hkey, fun threshold splitPending isLeader id spec hspec => ?_⟩
  obtain ⟨key', hkey', rfl⟩ := Machine.maybeSplit_eq_some hspec
  obtain rfl : key = key' := Option.some.inj (hkey.symm.trans hkey')
  refine ⟨rfl, ⟨key, hheld, ?_⟩, ?_⟩
  · rw [contains_right_cut (RangeDescriptor.clone_of_contains (hin key hheld))]
    exact ⟨le_rfl, hextent.2⟩
  · -- all keys lie inside the extent, so one is on the left when it is below the cut
    rw [← forall_splitKeyFor_le hkey, not_forall]
    refine exists_congr fun k => ?_
    rw [Classical.not_imp, not_le, contains_left_cut hnil]
    exact and_congr_right fun hk =>
      and_iff_right (RangeDescriptor.contains_iff_upper.mp (hin k hk)).1

/-- The two keys of `twoKeys` have one length: the cut leaves one on each side. -/
theorem split_leaves_both_sides_twoKeys : ∃ spec,
    twoKeys.machine.maybeSplit 2 false true 2 = some spec ∧
      (∃ k, twoKeys.machine.store.Holds k ∧ spec.right.contains k) ∧
      ∃ k, twoKeys.machine.store.Holds k ∧ spec.left.contains k := by
  have hkeys : twoKeys.machine.store.keys = [Fleet.keyNamed 97, Fleet.keyNamed 99] := by
    decide +kernel
  have hheld : ∀ k, twoKeys.machine.store.Holds k → k = Fleet.keyNamed 97 ∨ k = Fleet.keyNamed 99 :=
    fun k hk => by simpa [hkeys] using Store.mem_keys.mpr hk
  have ha : twoKeys.machine.store.Holds (Fleet.keyNamed 97) := Store.mem_keys.mp (by simp [hkeys])
  have hc : twoKeys.machine.store.Holds (Fleet.keyNamed 99) := Store.mem_keys.mp (by simp [hkeys])
  obtain ⟨key, hkey, hspec⟩ := split_leaves_both_sides ha hc (by decide)
    (fun k hk => by rcases hheld k hk with rfl | rfl <;> decide +kernel)
  have hsplit : twoKeys.machine.maybeSplit 2 false true 2 =
      some (SplitSpec.cut twoKeys.machine.desc key 2) := by
    rw [Machine.maybeSplit, hkeys, if_neg (by decide), if_neg (by decide), Machine.splitSpec, hkey]
    rfl
  obtain ⟨-, hright, hleft⟩ := hspec 2 false true 2 _ hsplit
  refine ⟨_, hsplit, hright, hleft.mpr ?_⟩
  -- neither key is shorter than the other
  rintro ⟨least, hmem, -, hcount⟩
  rw [hkeys] at hcount
  rcases hheld least (Store.mem_keys.mp hmem) with rfl | rfl <;> exact absurd hcount (by decide)

/-- The first range with the keys `b` and `aa`. -/
def shortAndLong : Range :=
  ((Machine.born .empty firstRangeDescriptor [] {}).range.apply
    (.put (Fleet.keyNamed 98) { wall := 1 } [1])).apply
    (.put ⟨[97, 97], by decide⟩ { wall := 2 } [2])

/-- The keys `b` and `aa` are listed in this order. The cut is `aa`, and no key is below it. -/
theorem left_of_split_empty :
    let m := shortAndLong.machine
    (∃ k₁ k₂, k₁ ≠ k₂ ∧ m.store.Holds k₁ ∧ m.store.Holds k₂) ∧
      (∀ k, m.store.Holds k → m.desc.contains k) ∧
      ∃ spec, m.maybeSplit 2 false true 2 = some spec ∧
        ∀ k, m.store.Holds k → spec.left.contains k = false := by
  intro m
  have hkeys : m.store.keys = [Fleet.keyNamed 98, ⟨[97, 97], by decide⟩] := by decide +kernel
  have hmem : ∀ k, m.store.Holds k → k = Fleet.keyNamed 98 ∨ k = ⟨[97, 97], by decide⟩ :=
    fun k hk => by simpa [hkeys] using Store.mem_keys.mpr hk
  refine ⟨⟨Fleet.keyNamed 98, ⟨[97, 97], by decide⟩, by decide, ?_, ?_⟩, fun k hk => ?_, ?_⟩
  · exact Store.mem_keys.mp (by simp [hkeys])
  · exact Store.mem_keys.mp (by simp [hkeys])
  · rcases hmem k hk with rfl | rfl <;> decide +kernel
  · refine ⟨SplitSpec.cut m.desc ⟨[97, 97], by decide⟩ 2, ?_, fun k hk => ?_⟩
    · simp [Machine.maybeSplit, Machine.splitSpec, splitKeyFor, hkeys]
    · rcases hmem k hk with rfl | rfl <;> decide +kernel

end Rift.Driver
