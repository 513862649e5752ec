import Rift.Kv.View

/-!
# Stores that hold the same records

A store lives in an engine it shares with other stores and with raft. Everything it does depends on
the records it owns, so two stores that own the same records stage the same writes and stay alike.
-/

namespace Rift.Kv.Store

open Model List

variable {s t : Store} {b : Batch} {key : Key} {ts startTS commitTS readTS : Timestamp}
  {kind : UInt8}

/-- The same namespace, the same mark, and the same records. -/
structure Agree (s t : Store) : Prop where
  ns : s.ns = t.ns
  gcMark : s.gcMark = t.gcMark
  get : ∀ k, s.owns k → s.db.get k = t.db.get k

theorem Agree.refl (s : Store) : s.Agree s := ⟨rfl, rfl, fun _ _ => rfl⟩

theorem owns_congr (h : s.ns = t.ns) (k : Bytes) : s.owns k = t.owns k := by
  rw [owns, owns, h]

theorem Agree.symm (h : s.Agree t) : t.Agree s :=
  ⟨h.ns.symm, h.gcMark.symm, fun k hk => (h.get k (by rwa [owns_congr h.ns])).symm⟩

theorem Agree.trans {u : Store} (h : s.Agree t) (h' : t.Agree u) : s.Agree u :=
  ⟨h.ns.trans h'.ns, h.gcMark.trans h'.gcMark,
    fun k hk => (h.get k hk).trans (h'.get k (by rwa [← owns_congr h.ns]))⟩

/-! ### What a store owns -/

theorem owns_iff {k : Bytes} : s.owns k ↔ ∃ kind ∈ kinds, s.ns ++ [kind] <+: k := by
  rw [owns, Bool.and_eq_true, isPrefixOf_iff_prefix]
  constructor
  · rintro ⟨⟨r, rfl⟩, h⟩
    rw [drop_left] at h
    cases r with
    | nil => simp at h
    | cons kind r => exact ⟨kind, by simpa using h, ⟨r, by simp⟩⟩
  · rintro ⟨kind, hkind, r, rfl⟩
    refine ⟨⟨kind :: r, by simp⟩, ?_⟩
    rw [append_assoc, drop_left]
    simpa using hkind

theorem isPrefix_of_owns {k : Bytes} (h : s.owns k) : s.ns <+: k := by
  obtain ⟨kind, -, hk⟩ := owns_iff.mp h
  exact (prefix_append _ _).trans hk

theorem owns_metaKey (h : kind ∈ kinds) (key : Key) (r : Bytes) :
    s.owns (metaKey s.ns kind key ++ r) :=
  owns_iff.mpr (exists_kind_isPrefix h _ _ _)

theorem owns_metaKey_nil (h : kind ∈ kinds) (key : Key) : s.owns (metaKey s.ns kind key) := by
  have := owns_metaKey (s := s) h key []
  rwa [append_nil] at this

/-! ### Reads -/

section

variable (h : s.Agree t)
include h

theorem Agree.get_stamped (hkind : kind ∈ kinds) (key : Key) (r : Bytes) :
    s.db.get (metaKey s.ns kind key ++ r) = t.db.get (metaKey t.ns kind key ++ r) := by
  rw [h.get _ (owns_metaKey hkind key r), h.ns]

theorem Agree.lock (key : Key) : s.lock key = t.lock key := by
  rw [Store.lock, Store.lock, h.get _ (owns_metaKey_nil (by simp [kinds]) key), h.ns]

theorem Agree.txn (key : Key) (ts : Timestamp) : s.txn key ts = t.txn key ts := by
  rw [Store.txn, Store.txn, h.get_stamped (by simp [kinds])]

theorem Agree.scan (hkind : kind ∈ kinds) {p : Bytes} (hp : s.ns ++ [kind] <+: p) :
    scan s.db p (prefixEnd p) = scan t.db p (prefixEnd p) := by
  rw [scan_eq_filter, scan_eq_filter]
  refine OrderedMap.filter_congr fun k x => and_congr_left fun hpre => ?_
  rw [h.get k (owns_iff.mpr ⟨kind, hkind, hp.trans (List.isPrefixOf_iff_prefix.mp hpre)⟩)]

theorem Agree.scan_metaKey (hkind : kind ∈ kinds) (key : Key) :
    Model.scan s.db (metaKey s.ns kind key) (prefixEnd (metaKey s.ns kind key)) =
      Model.scan t.db (metaKey t.ns kind key) (prefixEnd (metaKey t.ns kind key)) := by
  have hp : s.ns ++ [kind] <+: metaKey s.ns kind key := ⟨putBytes key.1, by simp [metaKey]⟩
  rw [h.scan hkind hp, h.ns]

theorem Agree.newestCommit (key : Key) : s.newestCommit key = t.newestCommit key := by
  rw [Store.newestCommit, Store.newestCommit, h.scan_metaKey (by simp [kinds]), h.ns]

theorem Agree.readMark (key : Key) : s.readMark key = t.readMark key := by
  rw [Store.readMark, Store.readMark, h.scan_metaKey (by simp [kinds]), h.ns]

theorem Agree.collected (upTo : Timestamp) : s.collected upTo = t.collected upTo := by
  rw [Store.collected, Store.collected, dataSpan,
    h.scan (show dataPrefix ∈ kinds by simp [kinds]) (prefix_refl _), dataSpan, h.ns]

end

theorem records_eq (s : Store) : s.records = s.db.entries.filter fun e => s.owns e.1 := by
  rw [records, scan_eq_filter, filter_filter]
  apply filter_congr
  intro e _
  cases ho : s.owns e.1 with
  | false => rfl
  | true =>
    have hp : s.ns.isPrefixOf e.1 := (Bool.and_eq_true_iff.mp ho).1
    simpa using hp

theorem mem_records {k x : Bytes} : (k, x) ∈ s.records ↔ s.owns k ∧ s.db.get k = some x := by
  rw [records_eq, mem_filter, OrderedMap.mem_entries, and_comm]

theorem Agree.records (h : s.Agree t) : s.records = t.records := by
  rw [records_eq, records_eq]
  refine OrderedMap.filter_congr fun k x => ?_
  rw [owns_congr h.ns k]
  refine and_congr_left fun hk => ?_
  rw [h.get k (by rwa [owns_congr h.ns k])]

theorem userKeyOf_congr (h : s.ns = t.ns) (k : Bytes) : s.userKeyOf k = t.userKeyOf k := by
  rw [userKeyOf, userKeyOf, owns_congr h, h]

section

variable (h : s.Agree t)
include h

theorem Agree.userKeyOf (k : Bytes) : s.userKeyOf k = t.userKeyOf k :=
  userKeyOf_congr h.ns k

/-! ### Writes -/

theorem Agree.refuseBelowMark (ts : Timestamp) : s.refuseBelowMark ts = t.refuseBelowMark ts := by
  rw [Store.refuseBelowMark, Store.refuseBelowMark, h.gcMark]

theorem Agree.prewriteInto (b : Batch) (key : Key) (l : Lock) (x : Bytes) :
    s.prewriteInto b key l x = t.prewriteInto b key l x := by
  simp only [Store.prewriteInto, h.refuseBelowMark, refuseIfLocked, h.lock, refuseIfCommittedAfter,
    h.newestCommit, refuseIfReadAbove, h.readMark, h.ns]

theorem Agree.releaseLockOf (b : Batch) (key : Key) (startTS : Timestamp) :
    s.releaseLockOf b key startTS = t.releaseLockOf b key startTS := by
  rw [Store.releaseLockOf, Store.releaseLockOf, h.lock, h.ns]

theorem Agree.commitInto (b : Batch) (key : Key) (startTS c : Timestamp) :
    s.commitInto b key startTS c = t.commitInto b key startTS c := by
  simp only [Store.commitInto, h.releaseLockOf, h.ns]

theorem Agree.rollbackInto (b : Batch) (key : Key) (startTS : Timestamp) :
    s.rollbackInto b key startTS = t.rollbackInto b key startTS := by
  simp only [Store.rollbackInto, h.releaseLockOf, h.ns]

theorem Agree.putTxnInto (b : Batch) (key : Key) (r : TxnRecord) :
    s.putTxnInto b key r = t.putTxnInto b key r := by
  simp only [Store.putTxnInto, h.txn, h.ns]

theorem Agree.noteReadInto (b : Batch) (key : Key) (readTS : Timestamp) :
    s.noteReadInto b key readTS = t.noteReadInto b key readTS := by
  simp only [Store.noteReadInto, h.readMark, h.ns]

theorem Agree.resolveLock (l : Lock) (readTS : Timestamp) (here : Bool) :
    s.resolveLock l readTS here = t.resolveLock l readTS here := by
  simp only [Store.resolveLock, h.txn]

theorem Agree.applyResolutionInto (b : Batch) (key : Key) (l : Lock) (r : Resolution)
    (c : Timestamp) : s.applyResolutionInto b key l r c = t.applyResolutionInto b key l r c := by
  cases r with
  | forward => exact h.commitInto b key l.startTS c
  | back => exact h.rollbackInto b key l.startTS
  | wait => rfl

theorem Agree.putInto (b : Batch) (key : Key) (ts : Timestamp) (x : Bytes) :
    s.putInto b key ts x = t.putInto b key ts x := by
  simp only [Store.putInto, h.refuseBelowMark, h.ns]

theorem Agree.flush (b : Batch) : (s.flush b).Agree (t.flush b) := by
  refine ⟨h.ns, h.gcMark, ?_⟩
  suffices hdb : ∀ v w : Version, (∀ k, s.owns k → v.get k = w.get k) →
      ∀ k, s.owns k → (applyTo v b).get k = (applyTo w b).get k from hdb _ _ h.get
  intro v w hvw
  induction b generalizing v w with
  | nil => exact hvw
  | cons op b ih =>
    apply ih
    intro k hk
    cases op with
    | set k' x => simp [hvw k hk]
    | delete k' => simp [hvw k hk]
    | deleteRange lo hi => simp [hvw k hk]

end

theorem agree_with_db {db : Version} (h : ∀ k, s.owns k → db.get k = s.db.get k) :
    Agree { s with db := db } s := by
  refine ⟨rfl, rfl, fun k hk => h k ?_⟩
  rwa [owns_congr (s := { s with db := db }) (t := s) rfl] at hk

end Rift.Kv.Store
