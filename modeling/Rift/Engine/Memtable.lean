import Mathlib.Data.List.TakeWhile
import Rift.Lib.Bytes

/-!
# The memtable

Keys, versions and range tombstones of the storage engine, and the memtable that holds them, as
`engine-cpp/src/memtable/memtable.cc` and `internal_key.h` have them. The skiplist is the sorted list
of its nodes. An assertion that fails aborts the process; here it is `none`.
-/

namespace Rift.Engine

open List

/-- Byte strings. `Slice::compare` is `memcmp` on the common length and then the length, which is the
lexicographic order of lists. -/
abbrev Slice := List UInt8

theorem Slice.nil_le (a : Slice) : [] ≤ a := not_lt.mp (not_lt_nil a)

inductive ValueType | deletion | value
  deriving DecidableEq, Repr

def ValueType.toNat : ValueType → ℕ
  | .deletion => 0
  | .value => 1

def kMaxSeqNum : ℕ := 2 ^ 56 - 1

/-- The sequence and the type in one number, so that newer versions have larger tags. -/
def makeTag (seq : ℕ) (type : ValueType) : ℕ := seq * 256 + type.toNat

/-- One version of a user key. -/
structure Entry where
  key : Slice
  seq : ℕ
  type : ValueType
  value : Slice := []
  deriving DecidableEq, Repr

variable {e : Entry} {r : MemRange}

namespace Entry

def tag (e : Entry) : ℕ := makeTag e.seq e.type

/-- The internal key order: user key ascending, then tag descending. -/
def before (e : Entry) (k : Slice) (t : ℕ) : Bool := e.key < k || e.key = k && t < e.tag

/-- Two versions in the internal key order. -/
def Lt (a b : Entry) : Prop := a.before b.key b.tag

instance : DecidableRel Lt := fun a b => inferInstanceAs (Decidable (a.before b.key b.tag = true))

theorem before_iff {k : Slice} {t : ℕ} : e.before k t ↔ e.key < k ∨ e.key = k ∧ t < e.tag := by
  simp [before]

theorem lt_iff {a b : Entry} : Lt a b ↔ a.key < b.key ∨ a.key = b.key ∧ b.tag < a.tag := before_iff

theorem Lt.irrefl (a : Entry) : ¬ Lt a a := by
  simp [lt_iff]

theorem Lt.trans {a b c : Entry} (h₁ : Lt a b) (h₂ : Lt b c) : Lt a c := by
  rw [lt_iff] at *
  rcases h₁ with h₁ | ⟨h₁, h₁'⟩ <;> rcases h₂ with h₂ | ⟨h₂, h₂'⟩
  · exact .inl (h₁.trans h₂)
  · exact .inl (h₂ ▸ h₁)
  · exact .inl (h₁ ▸ h₂)
  · exact .inr ⟨h₁.trans h₂, h₂'.trans h₁'⟩

theorem Lt.asymm {a b : Entry} (h₁ : Lt a b) (h₂ : Lt b a) : False :=
  Lt.irrefl a (h₁.trans h₂)

theorem trichotomy (a b : Entry) : Lt a b ∨ (a.key = b.key ∧ a.tag = b.tag) ∨ Lt b a := by
  simp only [lt_iff]
  rcases lt_trichotomy a.key b.key with h | h | h
  · exact .inl (.inl h)
  · rcases Nat.lt_trichotomy a.tag b.tag with ht | ht | ht
    · exact .inr (.inr (.inr ⟨h.symm, ht⟩))
    · exact .inr (.inl ⟨h, ht⟩)
    · exact .inl (.inr ⟨h, ht⟩)
  · exact .inr (.inr (.inl h))

end Entry

/-! ### Range tombstones -/

/-- One range deletion `[start, end)`, as a memtable holds it. -/
structure MemRange where
  start : Slice
  fin : Slice := []
  endUnbounded : Bool := false
  seq : ℕ := 0
  deriving DecidableEq, Repr

namespace MemRange

/-- Half-open, and the one place this question is answered. -/
def covers (r : MemRange) (k : Slice) : Bool :=
  if k < r.start then false else r.endUnbounded || k < r.fin

theorem covers_iff {k : Slice} :
    r.covers k ↔ r.start ≤ k ∧ (r.endUnbounded = true ∨ k < r.fin) := by
  unfold covers
  split_ifs with h
  · simp [not_le.mpr h]
  · simp [not_lt.mp h]

end MemRange

/-- One step of the scan for the newest covering tombstone. -/
def coverStep (k : Slice) (snapshot best : ℕ) (r : MemRange) : ℕ :=
  if snapshot < r.seq then best else if r.seq ≤ best then best
  else if r.covers k then r.seq else best

/-- The sequence of the newest tombstone at or below `snapshot` that covers `k`; zero if none does. -/
def newestCovering (ranges : List MemRange) (k : Slice) (snapshot : ℕ) : ℕ :=
  ranges.foldl (coverStep k snapshot) 0

theorem lt_coverStep {k : Slice} {snapshot best q : ℕ} :
    q < coverStep k snapshot best r ↔ q < best ∨ r.covers k ∧ q < r.seq ∧ r.seq ≤ snapshot := by
  unfold coverStep
  split_ifs with h₁ h₂ h₃
  · exact ⟨.inl, fun h => h.elim id fun h => by omega⟩
  · exact ⟨.inl, fun h => h.elim id fun h => by omega⟩
  · simp only [h₃, true_and]
    omega
  · simp [h₃]

/-- A sequence is below the newest covering tombstone exactly when some visible tombstone above it
covers the key. -/
theorem lt_newestCovering {ranges : List MemRange} {k : Slice} {snapshot q : ℕ} :
    q < newestCovering ranges k snapshot ↔
      ∃ r ∈ ranges, r.covers k ∧ q < r.seq ∧ r.seq ≤ snapshot := by
  suffices h : ∀ best, q < ranges.foldl (coverStep k snapshot) best ↔
      q < best ∨ ∃ r ∈ ranges, r.covers k ∧ q < r.seq ∧ r.seq ≤ snapshot by
    simpa [newestCovering] using h 0
  induction ranges with
  | nil => simp
  | cons r rs ih =>
    intro best
    simp only [foldl_cons, ih, lt_coverStep, mem_cons, exists_eq_or_imp, or_assoc]

/-! ### The table -/

/-- The versions in the internal key order, and the range tombstones in submission order. -/
structure MemTable where
  entries : List Entry := []
  ranges : List MemRange := []
  deriving DecidableEq, Repr

/-- The versions from the first one at or after `(k, t)` on. -/
def seek (entries : List Entry) (k : Slice) (t : ℕ) : List Entry :=
  entries.dropWhile (·.before k t)

/-- Insert a version at its place. -/
def insertEntry (e : Entry) (entries : List Entry) : List Entry :=
  entries.takeWhile (·.before e.key e.tag) ++ e :: seek entries e.key e.tag

namespace MemTable

/-- No version has this user key and tag. -/
def vacant (m : MemTable) (k : Slice) (t : ℕ) : Bool :=
  (seek m.entries k t).head?.all fun x => x.key ≠ k || x.tag ≠ t

/-- Insert one version: no two versions share a user key and a tag. -/
def add (m : MemTable) (e : Entry) : Option MemTable :=
  if e.seq ≤ kMaxSeqNum ∧ m.vacant e.key e.tag then
    some { m with entries := insertEntry e m.entries }
  else none

def addRangeTombstone (m : MemTable) (seq : ℕ) (start fin : Slice) (endUnbounded : Bool) :
    MemTable :=
  { m with
    ranges := m.ranges ++
      [{ start := start, fin := if endUnbounded then [] else fin, endUnbounded := endUnbounded,
         seq := seq }] }

/-- The newest version at or below `snapshot`, unless it is a deletion or a newer tombstone hides
it. -/
def get (m : MemTable) (k : Slice) (snapshot : ℕ) : Option Slice :=
  match (seek m.entries k (makeTag snapshot .value)).head? with
  | none => none
  | some e =>
    if e.key ≠ k then none
    else if e.seq < newestCovering m.ranges k snapshot then none
    else if e.type = .deletion then none
    else some e.value

end MemTable

/-! ### Insertion -/

theorem insertEntry_perm (e : Entry) (es : List Entry) : (insertEntry e es).Perm (e :: es) := by
  unfold insertEntry seek
  refine perm_middle.trans ?_
  rw [takeWhile_append_dropWhile]

variable {es : List Entry}

theorem pairwise_seek (h : es.Pairwise Entry.Lt) (k : Slice) (t : ℕ) :
    (seek es k t).Pairwise Entry.Lt :=
  h.sublist (dropWhile_sublist _)

theorem not_before_of_mem_seek (h : es.Pairwise Entry.Lt) {k : Slice} {t : ℕ} {x : Entry}
    (hx : x ∈ seek es k t) : ¬ x.before k t := by
  induction es with
  | nil => exact absurd hx (by simp [seek])
  | cons a es ih =>
    rw [pairwise_cons] at h
    unfold seek at hx ih
    by_cases ha : a.before k t
    · rw [dropWhile_cons, if_pos ha] at hx
      exact ih h.2 hx
    · rw [dropWhile_cons, if_neg ha] at hx
      rcases mem_cons.mp hx with rfl | hx
      · exact ha
      · intro hb
        refine ha ?_
        -- What stands before a version that is before the position is before it, too.
        have hax := h.1 x hx
        rw [Entry.lt_iff] at hax
        rw [Entry.before_iff] at hb ⊢
        rcases hax with hax | ⟨hk, ht⟩ <;> rcases hb with hb | ⟨hk', ht'⟩
        · exact .inl (hax.trans hb)
        · exact .inl (hk' ▸ hax)
        · exact .inl (hk ▸ hb)
        · exact .inr ⟨hk.trans hk', ht'.trans ht⟩

theorem pairwise_insertEntry (h : es.Pairwise Entry.Lt)
    (hne : ∀ x ∈ es, x.key = e.key → x.tag ≠ e.tag) : (insertEntry e es).Pairwise Entry.Lt := by
  have hlt : ∀ x ∈ es.takeWhile (·.before e.key e.tag), Entry.Lt x e := fun x hx =>
    mem_takeWhile_imp (p := fun y : Entry => y.before e.key e.tag) hx
  have hgt : ∀ x ∈ seek es e.key e.tag, Entry.Lt e x := by
    intro x hx
    rcases Entry.trichotomy x e with h' | ⟨hk, ht⟩ | h'
    · exact absurd h' (not_before_of_mem_seek h hx)
    · exact absurd ht (hne x ((dropWhile_sublist _).subset hx) hk)
    · exact h'
  unfold insertEntry
  rw [pairwise_append, pairwise_cons]
  refine ⟨h.sublist (takeWhile_sublist _), ⟨hgt, pairwise_seek h _ _⟩, ?_⟩
  intro x hx y hy
  rcases mem_cons.mp hy with rfl | hy
  · exact hlt x hx
  · exact (hlt x hx).trans (hgt y hy)

theorem MemTable.add_eq {m : MemTable} (hs : e.seq ≤ kMaxSeqNum)
    (hne : ∀ x ∈ m.entries, x.key = e.key → x.tag ≠ e.tag) :
    m.add e = some { m with entries := insertEntry e m.entries } := by
  refine if_pos ⟨hs, Option.all_eq_true _ _ |>.mpr fun x hx => ?_⟩
  have hmem := (dropWhile_sublist _).subset (mem_of_mem_head? hx)
  by_cases hk : x.key = e.key
  · simp [hne x hmem hk]
  · simp [hk]

theorem MemTable.add_eq_some {m m' : MemTable} (hs : m.entries.Pairwise Entry.Lt)
    (h : m.add e = some m') :
    m'.entries.Pairwise Entry.Lt ∧ m'.entries.Perm (e :: m.entries) ∧ m'.ranges = m.ranges ∧
      e.seq ≤ kMaxSeqNum := by
  unfold add at h
  split_ifs at h with hok
  cases h
  refine ⟨pairwise_insertEntry hs fun x hx hk ht => ?_, insertEntry_perm e m.entries, rfl, hok.1⟩
  -- A version with this internal key would be the first one from there on.
  have hseek : x ∈ seek m.entries e.key e.tag := by
    have hsplit := (takeWhile_append_dropWhile (p := fun y : Entry => y.before e.key e.tag)
      (l := m.entries)).symm
    rw [hsplit, mem_append] at hx
    refine hx.resolve_left fun hx => ?_
    have := Entry.before_iff.mp (mem_takeWhile_imp (p := fun y : Entry => y.before e.key e.tag) hx)
    simp [hk, ht] at this
  have hvacant := hok.2
  unfold vacant at hvacant
  have hpair := pairwise_seek hs e.key e.tag
  have hnot := @not_before_of_mem_seek _ hs e.key e.tag
  cases hq : seek m.entries e.key e.tag with
  | nil => rw [hq] at hseek; cases hseek
  | cons y rest =>
    rw [hq] at hseek hvacant hpair hnot
    rcases mem_cons.mp hseek with rfl | hmem
    · simp [hk, ht] at hvacant
    · have hlt : y.before x.key x.tag := (pairwise_cons.mp hpair).1 x hmem
      exact hnot mem_cons_self (hk ▸ ht ▸ hlt)

end Rift.Engine
