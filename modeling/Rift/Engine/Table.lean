import Mathlib.Data.Prod.Lex
import Rift.Engine.Batch
import Rift.Lib.Sorted

/-!
# Sorted tables

A table file as `engine-cpp/src/sst/table.cc` serves it: the versions in the internal key order, the
range tombstones, the filter, and the bounds that `ValidateTable` derives from them. A table is only
used after the classifier has accepted it, so what the classifier refuses is excluded by the type:
a table holds a version, its versions ascend, and a bounded tombstone ends above its start. The block
layout is left out; a table is the list of its versions.
-/

namespace Rift.Engine

/-! ### Internal keys -/

/-- A user key and a tag. -/
structure InternalKey where
  userKey : Slice
  tag : ℕ
  deriving Repr

namespace InternalKey

/-- User keys ascend, and within one user key tags descend. -/
def rank (p : InternalKey) : Slice ×ₗ ℕᵒᵈ := toLex (p.userKey, OrderDual.toDual p.tag)

theorem rank_injective : Function.Injective rank := by
  rintro ⟨k, t⟩ ⟨k', t'⟩ h
  have h := toLex_inj.mp h
  simp only [Prod.mk.injEq, OrderDual.toDual_inj] at h
  simp [h.1, h.2]

/-- The order of `CompareInternalKey`. -/
instance : LinearOrder InternalKey := LinearOrder.lift' rank rank_injective

theorem lt_iff {p q : InternalKey} :
    p < q ↔ p.userKey < q.userKey ∨ p.userKey = q.userKey ∧ q.tag < p.tag :=
  Prod.Lex.lt_iff

theorem le_iff {p q : InternalKey} :
    p ≤ q ↔ p.userKey < q.userKey ∨ p.userKey = q.userKey ∧ q.tag ≤ p.tag :=
  Prod.Lex.le_iff

theorem userKey_le {p q : InternalKey} (h : p ≤ q) : p.userKey ≤ q.userKey :=
  (le_iff.mp h).elim le_of_lt fun h => h.1.le

end InternalKey

/-- The internal key of a version. -/
def Entry.ikey (e : Entry) : InternalKey := ⟨e.key, e.tag⟩

@[simp] theorem Entry.ikey_userKey (e : Entry) : e.ikey.userKey = e.key := rfl

@[simp] theorem Entry.ikey_tag (e : Entry) : e.ikey.tag = e.tag := rfl

theorem Entry.lt_iff_ikey {a b : Entry} : Entry.Lt a b ↔ a.ikey < b.ikey := by
  rw [Entry.lt_iff, InternalKey.lt_iff]
  rfl

variable {e : Entry} {r : MemRange} {k : Slice}

theorem Entry.before_iff_ikey {t : ℕ} : e.before k t ↔ e.ikey < ⟨k, t⟩ := by
  rw [Entry.before_iff, InternalKey.lt_iff]
  rfl

/-- A tag at or below that of a value at a sequence belongs to a version at or below it. -/
theorem Entry.tag_le_makeTag {s : ℕ} : e.tag ≤ makeTag s .value ↔ e.seq ≤ s := by
  unfold Entry.tag makeTag
  cases e.type <;> simp only [ValueType.toNat] <;> omega

theorem Entry.seq_lt_of_tag_lt {a b : Entry} (h : a.tag < b.tag) : a.seq ≤ b.seq := by
  unfold Entry.tag makeTag at h
  cases ha : a.type <;> cases hb : b.type <;> simp only [ha, hb, ValueType.toNat] at h <;> omega

/-! ### Bounds -/

/-- What the classifier derives from a table it accepts. -/
structure TableCheck where
  smallestKey : InternalKey
  largestKey : InternalKey
  /-- The largest key is the end of a tombstone: the table reaches it without containing it. -/
  largestIsExclusive : Bool := false
  /-- A tombstone has no upper bound. -/
  unboundedEnd : Bool := false
  largestSeq : ℕ := 0

namespace TableCheck

/-- A tombstone that starts below the smallest key becomes the lower bound. Ties do not widen. -/
def widenLower (c : TableCheck) (r : MemRange) : TableCheck :=
  if r.start < c.smallestKey.userKey then
    { c with smallestKey := ⟨r.start, makeTag r.seq .deletion⟩ }
  else c

/-- A tombstone that ends above the largest key becomes the upper bound, exclusively; one without an
end only sets a flag. -/
def widenUpper (c : TableCheck) (r : MemRange) : TableCheck :=
  if r.endUnbounded then { c with unboundedEnd := true }
  else if c.largestKey.userKey < r.fin then
    { c with largestKey := ⟨r.fin, makeTag r.seq .deletion⟩, largestIsExclusive := true }
  else c

/-- Account for one tombstone. -/
def widen (c : TableCheck) (r : MemRange) : TableCheck :=
  { (c.widenLower r).widenUpper r with largestSeq := max c.largestSeq r.seq }

/-- The bounds enclose versions and tombstones. -/
structure Encloses (c : TableCheck) (es : List Entry) (rs : List MemRange) : Prop where
  lower : ∀ e ∈ es, c.smallestKey ≤ e.ikey
  upper : ∀ e ∈ es, e.ikey ≤ c.largestKey
  exclusive : c.largestIsExclusive → ∀ e ∈ es, e.key < c.largestKey.userKey
  start : ∀ r ∈ rs, c.smallestKey.userKey ≤ r.start
  fin : ∀ r ∈ rs, ¬ r.endUnbounded → r.fin ≤ c.largestKey.userKey
  unbounded : ∀ r ∈ rs, r.endUnbounded → c.unboundedEnd

variable {c : TableCheck} {es : List Entry} {rs : List MemRange}

theorem Encloses.widenLower (h : c.Encloses es rs) (r : MemRange) :
    (c.widenLower r).Encloses es rs ∧ (c.widenLower r).smallestKey.userKey ≤ r.start := by
  unfold TableCheck.widenLower
  split_ifs with hlt
  · refine ⟨{ h with lower := fun e he => ?_, start := fun x hx => ?_ }, le_rfl⟩
    · exact InternalKey.le_iff.mpr (.inl (hlt.trans_le (InternalKey.userKey_le (h.lower e he))))
    · exact hlt.le.trans (h.start x hx)
  · exact ⟨h, not_lt.mp hlt⟩

theorem Encloses.widenUpper (h : c.Encloses es rs) (hs : c.smallestKey.userKey ≤ r.start) :
    (c.widenUpper r).Encloses es (rs ++ [r]) := by
  have hmem : ∀ x, x ∈ rs ++ [r] → x ∈ rs ∨ x = r := fun x hx => by
    simpa using List.mem_append.mp hx
  have hstart : ∀ x ∈ rs ++ [r], c.smallestKey.userKey ≤ x.start := by
    intro x hx
    rcases hmem x hx with hx | rfl
    · exact h.start x hx
    · exact hs
  unfold TableCheck.widenUpper
  split_ifs with hu hlt
  · refine { h with start := hstart, fin := fun x hx hb => ?_, unbounded := fun x hx hb => rfl }
    rcases hmem x hx with hx | rfl
    · exact h.fin x hx hb
    · exact absurd hu hb
  · have hkey : ∀ e ∈ es, e.key < r.fin := fun e he =>
      (InternalKey.userKey_le (h.upper e he)).trans_lt hlt
    refine
      { lower := h.lower
        upper := fun e he => InternalKey.le_iff.mpr (.inl (hkey e he))
        exclusive := fun _ => hkey
        start := hstart
        fin := fun x hx hb => ?_
        unbounded := fun x hx hb => ?_ }
    · rcases hmem x hx with hx | rfl
      · exact (h.fin x hx hb).trans hlt.le
      · exact le_rfl
    · rcases hmem x hx with hx | rfl
      · exact h.unbounded x hx hb
      · exact absurd hb hu
  · refine { h with start := hstart, fin := fun x hx hb => ?_, unbounded := fun x hx hb => ?_ }
    · rcases hmem x hx with hx | rfl
      · exact h.fin x hx hb
      · exact not_lt.mp hlt
    · rcases hmem x hx with hx | rfl
      · exact h.unbounded x hx hb
      · exact absurd hb hu

theorem Encloses.widen (h : c.Encloses es rs) (r : MemRange) :
    (c.widen r).Encloses es (rs ++ [r]) := by
  have hl := h.widenLower r
  have hu := hl.1.widenUpper hl.2
  exact ⟨hu.lower, hu.upper, hu.exclusive, hu.start, hu.fin, hu.unbounded⟩

theorem Encloses.foldl (h : c.Encloses es rs) (rs' : List MemRange) :
    (rs'.foldl TableCheck.widen c).Encloses es (rs ++ rs') := by
  induction rs' generalizing c rs with
  | nil => simpa using h
  | cons r rs' ih => simpa using ih (h.widen r)

end TableCheck

/-! ### Tables -/

theorem MemRange.proper_nil : ∀ r ∈ ([] : List MemRange), r.Proper := by simp

/-- A table that the classifier accepts. The filter may admit any key and admits every key there
is. -/
structure Table where
  number : ℕ := 0
  entries : List Entry
  tombstones : List MemRange := []
  mayContain : Slice → Bool := fun _ => true
  nonempty : entries ≠ []
  sorted : entries.Pairwise Entry.Lt
  legal : ∀ e ∈ entries, e.seq ≤ kMaxSeqNum
  proper : ∀ r ∈ tombstones, r.Proper
  admits : ∀ e ∈ entries, mayContain e.key

/-- The bounds of versions and tombstones, as `ValidateTable` computes them. -/
def tableCheck (first last : Entry) (es : List Entry) (rs : List MemRange) : TableCheck :=
  rs.foldl TableCheck.widen
    { smallestKey := first.ikey
      largestKey := last.ikey
      largestSeq := (es.map (·.seq)).foldl max 0 }

/-- What a lookup in one table finds: the source reports it through a status and three flags. -/
inductive TableGet
  | absent (filtered : Bool)
  | deleted
  | found (seq : ℕ) (value : Slice)
  deriving DecidableEq, Repr

namespace Table

variable (t : Table)

def check : TableCheck :=
  tableCheck (t.entries.head t.nonempty) (t.entries.getLast t.nonempty) t.entries t.tombstones

/-- The newest version at or below `snapshot`; a deletion is told apart from an absent key. -/
def get (k : Slice) (snapshot : ℕ) : TableGet :=
  if !t.mayContain k then .absent true
  else
    match (seek t.entries k (makeTag snapshot .value)).head? with
    | none => .absent false
    | some e =>
      if e.key ≠ k then .absent false
      else if e.type = .deletion then .deleted
      else .found e.seq e.value

def newestCovering (k : Slice) (snapshot : ℕ) : ℕ := Engine.newestCovering t.tombstones k snapshot

theorem sorted_ikey : t.entries.Pairwise (Entry.ikey · < Entry.ikey ·) :=
  t.sorted.imp Entry.lt_iff_ikey.mp

theorem bounds : t.check.Encloses t.entries t.tombstones := by
  refine TableCheck.Encloses.foldl (?_ : TableCheck.Encloses _ _ []) t.tombstones
  have hs := t.sorted_ikey
  constructor
  · intro e he
    obtain ⟨i, hi⟩ := List.mem_iff_getElem?.mp he
    exact key_le_of_getElem? hs (Nat.zero_le i) (List.head?_eq_getElem? ▸ List.head?_eq_some_head _) hi
  · intro e he
    obtain ⟨i, hi⟩ := List.mem_iff_getElem?.mp he
    have hlen := (List.getElem?_eq_some_iff.mp hi).1
    refine key_le_of_getElem? hs (Nat.le_sub_one_of_lt hlen) hi ?_
    exact List.getLast?_eq_getElem? ▸ List.getLast?_eq_some_getLast _
  all_goals simp

/-- The user keys between the bounds. -/
def Contains (k : Slice) : Prop :=
  t.check.smallestKey.userKey ≤ k ∧
    (k < t.check.largestKey.userKey ∨
      k = t.check.largestKey.userKey ∧ ¬ t.check.largestIsExclusive)

variable {t}

theorem contains_of_mem (h : e ∈ t.entries) : t.Contains e.key := by
  refine ⟨InternalKey.userKey_le (t.bounds.lower e h), ?_⟩
  rcases (InternalKey.userKey_le (t.bounds.upper e h)).lt_or_eq with hlt | heq
  · exact .inl hlt
  · exact .inr ⟨heq, fun hx => (t.bounds.exclusive hx e h).ne heq⟩

theorem contains_of_covers (h : r ∈ t.tombstones) (hb : ¬ r.endUnbounded) (hk : r.covers k) :
    t.Contains k := by
  obtain ⟨hle, hend⟩ := MemRange.covers_iff.mp hk
  exact ⟨(t.bounds.start r h).trans hle,
    .inl ((hend.resolve_left hb).trans_le (t.bounds.fin r h hb))⟩

theorem smallest_le_largest (t : Table) : t.check.smallestKey ≤ t.check.largestKey :=
  (t.bounds.lower _ (List.head_mem t.nonempty)).trans (t.bounds.upper _ (List.head_mem t.nonempty))

end Table

end Rift.Engine
