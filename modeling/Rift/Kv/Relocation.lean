import Rift.Kv.Agree

/-!
# Records of a key under another namespace

A store reads a user key through the keys that begin with the key's layout under the store's
namespace. What follows that beginning, and the values, decide the answers: two stores that hold the
same records of a key, each under its own namespace, answer alike about it.
-/

namespace Rift.Kv

open Model List

/-- The timestamp a record's key ends in, from what follows the user key. -/
def stampOf (r : Bytes) : Option Timestamp := do
  let (ts, rest) ← takeInvertedTS r
  if rest = [] then some ts else none

theorem decodeStamped_append (ns : Bytes) (kind : UInt8) (key : Key) (r : Bytes) :
    decodeStamped kind ns (metaKey ns kind key ++ r) = (stampOf r).map (key, ·) := by
  simp only [decodeStamped, takeMetaKey_metaKey, stampOf, Option.bind_eq_bind, Option.bind_some]
  cases takeInvertedTS r with
  | none => rfl
  | some p =>
    simp only [Option.bind_some]
    split <;> rfl

namespace Store

variable {s t : Store} {key : Key}

/-- The same records of a key, each store under its own namespace, and the same mark. -/
structure SameAt (s t : Store) (key : Key) : Prop where
  gcMark : s.gcMark = t.gcMark
  get : ∀ kind ∈ kinds, ∀ r,
    s.db.get (metaKey s.ns kind key ++ r) = t.db.get (metaKey t.ns kind key ++ r)

/-- A key's record of one kind, from what follows the user key. -/
def under (ns : Bytes) (kind : UInt8) (key : Key) (e : Bytes × Bytes) : Bytes × Bytes :=
  (metaKey ns kind key ++ e.1, e.2)

theorem mem_map_under {ns : Bytes} {kind : UInt8} {l : List (Bytes × Bytes)} {k x : Bytes} :
    (k, x) ∈ l.map (under ns kind key) ↔ ∃ r, (r, x) ∈ l ∧ k = metaKey ns kind key ++ r := by
  constructor
  · intro hmem
    obtain ⟨⟨r, y⟩, hr, heq⟩ := mem_map.mp hmem
    cases heq
    exact ⟨r, hr, rfl⟩
  · rintro ⟨r, hr, rfl⟩
    exact mem_map.mpr ⟨(r, x), hr, rfl⟩

section

variable (h : s.SameAt t key)
include h

theorem SameAt.exists_scan (kind : UInt8) (hkind : kind ∈ kinds) :
    ∃ l : List (Bytes × Bytes),
      scan s.db (metaKey s.ns kind key) (prefixEnd (metaKey s.ns kind key)) =
        l.map (under s.ns kind key) ∧
      scan t.db (metaKey t.ns kind key) (prefixEnd (metaKey t.ns kind key)) =
        l.map (under t.ns kind key) := by
  -- Every key a scan visits begins with the user key, so the scan is an image.
  have hrange : scan s.db (metaKey s.ns kind key) (prefixEnd (metaKey s.ns kind key)) ∈
      Set.range (map (under s.ns kind key)) := by
    rw [Set.range_list_map]
    rintro ⟨k, x⟩ hmem
    obtain ⟨-, r, rfl⟩ := mem_scan.mp hmem
    exact ⟨(r, x), rfl⟩
  obtain ⟨l, hl⟩ := hrange
  refine ⟨l, hl.symm, ?_⟩
  have hsorted : (l.map (under s.ns kind key)).Pairwise fun a b => a.1 < b.1 :=
    hl ▸ s.db.sorted.filter _
  have hmem : ∀ r x, (r, x) ∈ l ↔ t.db.get (metaKey t.ns kind key ++ r) = some x := by
    intro r x
    have hscan : (metaKey s.ns kind key ++ r, x) ∈ l.map (under s.ns kind key) ↔ (r, x) ∈ l := by
      simp [mem_map_under]
    rw [← hscan, hl, mem_scan, h.get kind hkind]
    exact and_iff_left ⟨r, rfl⟩
  rw [scan_eq_filter]
  refine OrderedMap.filter_eq_of_mem ?_ fun k x => ?_
  · rw [pairwise_map] at hsorted ⊢
    simpa only [under, append_lt_append_iff] using hsorted
  · rw [mem_map_under, isPrefixOf_iff_prefix]
    constructor
    · rintro ⟨r, hr, rfl⟩
      exact ⟨(hmem r x).mp hr, r, rfl⟩
    · rintro ⟨hget, r, rfl⟩
      exact ⟨r, (hmem r x).mpr hget, rfl⟩

theorem SameAt.lock : s.lock key = t.lock key := by
  have hget := h.get lockPrefix (by simp [kinds]) []
  simp only [append_nil] at hget
  rw [Store.lock, Store.lock, hget]

theorem SameAt.txn (startTS : Timestamp) : s.txn key startTS = t.txn key startTS := by
  rw [Store.txn, Store.txn, h.get txnPrefix (by simp [kinds])]

theorem SameAt.versionAt (ts : Timestamp) : s.versionAt key ts = t.versionAt key ts :=
  h.get dataPrefix (by simp [kinds]) _

theorem SameAt.readMark : s.readMark key = t.readMark key := by
  obtain ⟨l, hs, ht⟩ := h.exists_scan readPrefix (by simp [kinds])
  rw [Store.readMark, Store.readMark, hs, ht]
  cases l with
  | nil => rfl
  | cons e l => simp only [map_cons, under, decodeReadMarkKey, decodeStamped_append]

theorem SameAt.readLatest : s.readLatest key = t.readLatest key := by
  obtain ⟨l, hs, ht⟩ := h.exists_scan dataPrefix (by simp [kinds])
  rw [Store.readLatest, Store.readLatest, hs, ht]
  cases l with
  | nil => rfl
  | cons e l => simp only [map_cons, under, decodeKey, decodeStamped_append]

theorem SameAt.refuseBelowMark (ts : Timestamp) : s.refuseBelowMark ts = t.refuseBelowMark ts := by
  rw [Store.refuseBelowMark, Store.refuseBelowMark, h.gcMark]

theorem SameAt.readAt (ts : Timestamp) : s.readAt key ts = t.readAt key ts := by
  obtain ⟨l, hs, ht⟩ := h.exists_scan dataPrefix (by simp [kinds])
  -- Where a scan starts depends on the timestamps alone.
  have hfilter : ∀ ns : Bytes, (l.map (under ns dataPrefix key)).filter
      (fun e => encodeKey ns key ts ≤ e.1) =
        (l.filter fun e => invertedTS ts ≤ e.1).map (under ns dataPrefix key) := by
    intro ns
    rw [filter_map]
    congr 1
    refine filter_congr fun e _ => ?_
    simp only [Function.comp_apply, under, ← not_lt, append_lt_append_iff]
  simp only [Store.readAt, h.refuseBelowMark, hs, ht, hfilter]
  cases l.filter fun e => invertedTS ts ≤ e.1 with
  | nil => rfl
  | cons e l => simp only [map_cons, under, decodeKey, decodeStamped_append]

theorem SameAt.scanWrites (readTS ceiling : Timestamp) (l : List (Bytes × Bytes)) :
    s.scanWrites key readTS ceiling (l.map (under s.ns writePrefix key)) =
      t.scanWrites key readTS ceiling (l.map (under t.ns writePrefix key)) := by
  induction l with
  | nil => rfl
  | cons e l ih =>
    simp only [map_cons, under, Store.scanWrites, decodeWriteKey, decodeStamped_append,
      h.versionAt] at ih ⊢
    simp only [ih]

theorem SameAt.getTxn (readTS ceiling : Timestamp) :
    s.getTxn key readTS ceiling = t.getTxn key readTS ceiling := by
  obtain ⟨l, hs, ht⟩ := h.exists_scan writePrefix (by simp [kinds])
  simp only [Store.getTxn, h.refuseBelowMark, refuseIfBlocked, h.lock, hs, ht, h.scanWrites]

end

end Store

end Rift.Kv
