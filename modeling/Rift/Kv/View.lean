import Rift.Kv.Store
import Rift.Lib.Runs

/-!
# What a store holds, record by record

The abstract side of the versioned store: five maps from user keys and timestamps, and what each
operation does to them. The store's engine state determines the maps, every successful operation acts
on them as its abstract counterpart does, and the scans of the store are maxima over them.
-/

namespace Rift.Kv

open Model List

/-- The records of a store, by user key and timestamp. -/
@[ext] structure View where
  lock : Key → Option Lock
  version : Key → Timestamp → Option Bytes
  write : Key → Timestamp → Option (Timestamp × Bool)
  txn : Key → Timestamp → Option TxnRecord
  marked : Key → Timestamp → Bool

namespace View

variable (v : View) (key : Key)

/-- Drop a key's lock if a transaction owns it. -/
def release (startTS : Timestamp) : View :=
  { v with lock := fun k =>
      if key = k ∧ (v.lock key).any (·.startTS = startTS) then none else v.lock k }

def prewrite (l : Lock) (value : Bytes) : View :=
  { v with
    lock := fun k => if key = k then some l else v.lock k
    version := fun k t => if key = k ∧ l.startTS = t then some value else v.version k t }

def commit (startTS commitTS : Timestamp) : View :=
  { v.release key startTS with
    write := fun k t => if key = k ∧ commitTS = t then some (startTS, false) else v.write k t }

def rollback (startTS : Timestamp) : View :=
  { v.release key startTS with
    write := fun k t => if key = k ∧ startTS = t then some (startTS, true) else v.write k t
    version := fun k t => if key = k ∧ startTS = t then none else v.version k t }

def decide (r : TxnRecord) : View :=
  { v with txn := fun k t => if key = k ∧ r.startTS = t then some r else v.txn k t }

def put (ts : Timestamp) (value : Bytes) : View :=
  { v with version := fun k t => if key = k ∧ ts = t then some value else v.version k t }

/-- Mark a key as read at a timestamp, in place of its other marks. -/
def note (readTS : Timestamp) : View :=
  { v with marked := fun k t => if key = k then readTS = t else v.marked k t }

end View

namespace Store

variable {s : Store} {b b' : Batch} {key : Key} {ts startTS commitTS readTS ceiling : Timestamp} {x ns k : Bytes}
  {r : Option (Timestamp × Timestamp)} {u : Unit} {l : Lock} {p : Prop} {kind : UInt8}

/-- The records of a store. -/
def view (s : Store) : View where
  lock := s.lock
  version := s.versionAt
  write key ts := (s.db.get (writeKey s.ns key ts)).bind decodeWrite
  txn := s.txn
  marked key ts := (s.db.get (readMarkKey s.ns key ts)).isSome

@[simp] theorem view_lock : s.view.lock key = s.lock key := rfl

@[simp] theorem view_version : s.view.version key ts = s.versionAt key ts := rfl

/-! ### Refusals -/

@[simp] theorem refuseUnset_eq_ok : refuseUnset ts = .ok u ↔ ts.isSet := by
  simp [refuseUnset]

@[simp] theorem refuseBelowMark_eq_ok : s.refuseBelowMark ts = .ok u ↔ s.gcMark < ts := by
  simp [refuseBelowMark]

@[simp] theorem refuseIfLocked_eq_ok : s.refuseIfLocked key = .ok u ↔ s.lock key = none := by
  rw [refuseIfLocked]
  split <;> simp_all

@[simp] theorem refuseIfCommittedAfter_eq_ok :
    s.refuseIfCommittedAfter key ts = .ok u ↔ ∀ c ∈ s.newestCommit key, c.1 ≤ ts := by
  rw [refuseIfCommittedAfter]
  split <;> simp_all

@[simp] theorem refuseIfReadAbove_eq_ok :
    s.refuseIfReadAbove key ts = .ok u ↔ ∀ m ∈ s.readMark key, m ≤ ts := by
  rw [refuseIfReadAbove]
  split <;> simp_all

@[simp] theorem refuseIfBlocked_eq_ok :
    s.refuseIfBlocked key ts = .ok u ↔ ∀ l ∈ s.lock key, ts < l.startTS := by
  rw [refuseIfBlocked]
  split <;> simp_all

/-! ### What the operations stage -/

theorem prewriteInto_eq_ok :
    s.prewriteInto b key l x = .ok b' ↔
      (l.startTS.isSet ∧ s.gcMark < l.startTS ∧ s.lock key = none ∧
        (∀ c ∈ s.newestCommit key, c.1 ≤ l.startTS) ∧ ∀ m ∈ s.readMark key, m ≤ l.startTS) ∧
      b ++ [.set (lockKey s.ns key) (encodeLock l), .set (encodeKey s.ns key l.startTS) x] = b' := by
  simp [prewriteInto, bind_eq_ok, and_assoc, pure, Except.pure]

theorem commitInto_eq_ok :
    s.commitInto b key startTS commitTS = .ok b' ↔
      (startTS.isSet ∧ commitTS.isSet ∧ startTS ≤ commitTS) ∧
      s.releaseLockOf (b ++ [.set (writeKey s.ns key commitTS) (encodeWrite startTS false)])
        key startTS = b' := by
  by_cases h : commitTS < startTS
  · simp [commitInto, bind_eq_ok, h, h.not_ge, throw, throwThe, MonadExceptOf.throw]
  · simp [commitInto, bind_eq_ok, h, not_lt.mp h, pure, Except.pure, and_assoc]

theorem rollbackInto_eq_ok :
    s.rollbackInto b key startTS = .ok b' ↔ startTS.isSet ∧
      s.releaseLockOf (b ++ [.set (writeKey s.ns key startTS) (encodeWrite startTS true)])
        key startTS ++ [.delete (encodeKey s.ns key startTS)] = b' := by
  simp [rollbackInto, bind_eq_ok, pure, Except.pure]

theorem putTxnInto_eq_ok {r : TxnRecord} :
    s.putTxnInto b key r = .ok b' ↔
      (r.startTS.isSet ∧ (r.status = .committed → r.commitTS.isSet) ∧ s.txn key r.startTS = none) ∧
      b ++ [.set (txnKey s.ns key r.startTS) (encodeTxn r)] = b' := by
  by_cases h : r.status = .committed ∧ !r.commitTS.isSet
  · have hunset : r.commitTS.isSet = false := by simpa using h.2
    simp [putTxnInto, bind_eq_ok, h.1, hunset, throw, throwThe, MonadExceptOf.throw]
  · have hset : (r.status = .committed → r.commitTS.isSet) ↔ True := by simpa using h
    rw [putTxnInto, if_neg h, hset]
    cases s.txn key r.startTS <;>
      simp [bind_eq_ok, throw, throwThe, MonadExceptOf.throw, pure, Except.pure]

theorem putInto_eq_ok :
    s.putInto b key ts x = .ok b' ↔
      (ts.isSet ∧ s.gcMark < ts) ∧ b ++ [.set (encodeKey s.ns key ts) x] = b' := by
  simp [putInto, bind_eq_ok, and_assoc, pure, Except.pure]

/-! ### What the staged writes do to the view -/

@[simp] theorem flush_ns (s : Store) (b : Batch) : (s.flush b).ns = s.ns := rfl

@[simp] theorem flush_nil (s : Store) : s.flush [] = s := rfl

theorem flush_append (s : Store) (b c : Batch) : s.flush (b ++ c) = (s.flush b).flush c := by
  simp [flush, applyTo_append]

@[simp] theorem ite_some_bind {α β : Type*} [Decidable p] (x : α) (o : Option α)
    (f : α → Option β) : (if p then some x else o).bind f = if p then f x else o.bind f := by
  split <;> rfl

@[simp] theorem ite_none_bind {α β : Type*} [Decidable p] (o : Option α) (f : α → Option β) :
    (if p then none else o).bind f = if p then none else o.bind f := by
  split <;> rfl

theorem view_flush_write (s : Store) (key : Key) (c startTS : Timestamp) (rollback : Bool) :
    (s.flush [.set (writeKey s.ns key c) (encodeWrite startTS rollback)]).view =
      { s.view with write := fun k t =>
          if key = k ∧ c = t then some (startTS, rollback) else s.view.write k t } := by
  ext k t <;> simp [view, flush, lock, versionAt, txn]

theorem view_flush_lock (s : Store) (key : Key) (l : Lock) :
    (s.flush [.set (lockKey s.ns key) (encodeLock l)]).view =
      { s.view with lock := fun k => if key = k then some l else s.view.lock k } := by
  ext k t <;> simp [view, flush, lock, versionAt, txn]

theorem view_flush_delete_lock (s : Store) (key : Key) :
    (s.flush [.delete (lockKey s.ns key)]).view =
      { s.view with lock := fun k => if key = k then none else s.view.lock k } := by
  ext k t <;> simp [view, flush, lock, versionAt, txn]

theorem view_flush_version (s : Store) (key : Key) (ts : Timestamp) (x : Bytes) :
    (s.flush [.set (encodeKey s.ns key ts) x]).view = s.view.put key ts x := by
  ext k t <;> simp [view, View.put, flush, lock, versionAt, txn]

theorem view_flush_delete_version (s : Store) (key : Key) (ts : Timestamp) :
    (s.flush [.delete (encodeKey s.ns key ts)]).view =
      { s.view with version := fun k t =>
          if key = k ∧ ts = t then none else s.view.version k t } := by
  ext k t <;> simp [view, flush, lock, versionAt, txn]

theorem view_flush_txn (s : Store) (key : Key) (r : TxnRecord) :
    (s.flush [.set (txnKey s.ns key r.startTS) (encodeTxn r)]).view = s.view.decide key r := by
  ext k t <;> simp [view, View.decide, flush, lock, versionAt, txn]

theorem view_flush_mark (s : Store) (key : Key) (ts : Timestamp) :
    (s.flush [.set (readMarkKey s.ns key ts) []]).view =
      { s.view with marked := fun k t => (key = k ∧ ts = t) ∨ s.view.marked k t } := by
  ext k t <;> simp [view, flush, lock, versionAt, txn]
  by_cases h : key = k ∧ ts = t <;> simp [h]

theorem view_flush_delete_mark (s : Store) (key : Key) (ts : Timestamp) :
    (s.flush [.delete (readMarkKey s.ns key ts)]).view =
      { s.view with marked := fun k t => ¬ (key = k ∧ ts = t) ∧ s.view.marked k t } := by
  ext k t <;> simp [view, flush, lock, versionAt, txn]
  by_cases h : key = k ∧ ts = t
  · simp [h]
  · simpa [h] using fun _ => not_and_or.mp h

theorem view_releaseLockOf (h : (s.flush b).lock key = s.lock key) :
    (s.flush (s.releaseLockOf b key startTS)).view = (s.flush b).view.release key startTS := by
  rw [releaseLockOf]
  cases hl : s.lock key with
  | none => ext k t <;> simp [View.release, h, hl]
  | some l =>
    by_cases howner : l.startTS = startTS
    · simp only [howner, ne_eq, not_true_eq_false, if_false]
      rw [flush_append, ← flush_ns s b, view_flush_delete_lock]
      ext k t <;> simp [View.release, h, hl, howner]
    · ext k t <;> simp [View.release, h, hl, howner]

theorem view_prewriteInto (h : s.prewriteInto [] key l x = .ok b) :
    (s.flush b).view = s.view.prewrite key l x := by
  obtain ⟨_, rfl⟩ := prewriteInto_eq_ok.mp h
  rw [nil_append, ← singleton_append, flush_append]
  refine (view_flush_version (s.flush _) key l.startTS x).trans ?_
  rw [view_flush_lock]
  rfl

theorem view_commitInto (h : s.commitInto [] key startTS commitTS = .ok b) :
    (s.flush b).view = s.view.commit key startTS commitTS := by
  obtain ⟨_, rfl⟩ := commitInto_eq_ok.mp h
  have hview := view_flush_write s key commitTS startTS false
  rw [nil_append, view_releaseLockOf (congrArg (View.lock · key) hview), hview]
  rfl

theorem view_rollbackInto (h : s.rollbackInto [] key startTS = .ok b) :
    (s.flush b).view = s.view.rollback key startTS := by
  obtain ⟨_, rfl⟩ := rollbackInto_eq_ok.mp h
  have hview := view_flush_write s key startTS startTS true
  rw [nil_append, flush_append]
  refine (view_flush_delete_version (s.flush _) key startTS).trans ?_
  rw [view_releaseLockOf (congrArg (View.lock · key) hview), hview]
  rfl

theorem view_putTxnInto {r : TxnRecord} (h : s.putTxnInto [] key r = .ok b) :
    (s.flush b).view = s.view.decide key r := by
  obtain ⟨_, rfl⟩ := putTxnInto_eq_ok.mp h
  exact view_flush_txn s key r

theorem view_putInto (h : s.putInto [] key ts x = .ok b) :
    (s.flush b).view = s.view.put key ts x := by
  obtain ⟨_, rfl⟩ := putInto_eq_ok.mp h
  exact view_flush_version s key ts x

/-! ### Well-formed stores -/

/-- A version, commit record or read mark has a user key and a timestamp in its key, and a commit
record has a value that decodes. -/
def WfRecord (ns k x : Bytes) : Prop :=
  ∀ kind ∈ [dataPrefix, writePrefix, readPrefix], ns ++ [kind] <+: k →
    (∃ key ts, k = metaKey ns kind key ++ invertedTS ts) ∧
      (kind = writePrefix → (decodeWrite x).isSome)

/-- Every record of the store is well formed. -/
def Wf (s : Store) : Prop := ∀ k x, s.db.get k = some x → WfRecord s.ns k x

/-- The writes that keep a store well formed. -/
def Clean (ns : Bytes) : Op → Prop
  | .set k x => WfRecord ns k x
  | _ => True

theorem kind_isPrefix_metaKey {k : UInt8} {t : Bytes} :
    ns ++ [kind] <+: metaKey ns k key ++ t ↔ kind = k := by
  simp [metaKey, append_assoc, prefix_append_right_inj]

theorem wfRecord_stamped {k : UInt8} (hx : k = writePrefix → (decodeWrite x).isSome) :
    WfRecord ns (metaKey ns k key ++ invertedTS ts) x := by
  intro kind _ hpre
  obtain rfl := kind_isPrefix_metaKey.mp hpre
  exact ⟨⟨key, ts, rfl⟩, hx⟩

theorem wfRecord_lock : WfRecord ns (lockKey ns key) x := by
  intro kind hkind hpre
  rw [← append_nil (lockKey ns key), kind_isPrefix_metaKey] at hpre
  simp [hpre] at hkind

theorem Wf.flush (hs : s.Wf) (hb : ∀ op ∈ b, Clean s.ns op) : (s.flush b).Wf := by
  intro k x hget
  rcases get_applyTo_cases hget with hget | hset
  · exact hs k x hget
  · exact hb _ hset

/-- What an operation on a key may stage: records of the key, of values up to a length and under one of
the timestamps if their kind has one, and deletions of the store's own keys. -/
inductive Staged (ns : Bytes) (key : Key) (ts : List Timestamp) (n : ℕ) : Op → Prop
  | stamped {kind : UInt8} {t : Timestamp} {x : Bytes}
      (hkind : kind ∈ [dataPrefix, writePrefix, readPrefix]) (ht : t ∈ ts) (hx : x.length ≤ n)
      (hw : kind = writePrefix → (decodeWrite x).isSome) :
      Staged ns key ts n (.set (metaKey ns kind key ++ invertedTS t) x)
  | lock {x : Bytes} (hx : x.length ≤ n) : Staged ns key ts n (.set (lockKey ns key) x)
  | txn {t : Timestamp} {x : Bytes} (hx : x.length ≤ n) : Staged ns key ts n (.set (txnKey ns key t) x)
  | delete {k : Bytes} (hk : ∃ kind ∈ kinds, ns ++ [kind] <+: k) : Staged ns key ts n (.delete k)

/-- A batch of such writes. -/
def Stages (ns : Bytes) (key : Key) (ts : List Timestamp) (n : ℕ) (b : Batch) : Prop :=
  ∀ op ∈ b, Staged ns key ts n op

theorem Wf.stages (hs : s.Wf) {t : List Timestamp} {n : ℕ} (hb : Stages s.ns key t n b) :
    (s.flush b).Wf := by
  refine hs.flush fun op hop => ?_
  cases hb op hop with
  | stamped _ _ _ hw => exact wfRecord_stamped hw
  | lock => exact wfRecord_lock
  | txn => exact wfRecord_stamped (by simp)
  | delete => trivial

section Stages

variable {t : List Timestamp} {n : ℕ} {c : Batch}

theorem Stages.mono {m : ℕ} (hb : Stages s.ns key t n b) (hle : n ≤ m) : Stages s.ns key t m b := by
  intro op hop
  cases hb op hop with
  | stamped hkind ht hx hw => exact .stamped hkind ht (hx.trans hle) hw
  | lock hx => exact .lock (hx.trans hle)
  | txn hx => exact .txn (hx.trans hle)
  | delete hk => exact .delete hk

theorem Stages.append (hb : Stages s.ns key t n b) (hc : Stages s.ns key t n c) :
    Stages s.ns key t n (b ++ c) := by
  intro op hop
  exact (mem_append.mp hop).elim (hb op) (hc op)

theorem stages_nil : Stages s.ns key t n [] := by simp [Stages]

theorem Staged.single {op : Op} (h : Staged s.ns key t n op) : Stages s.ns key t n [op] := by
  intro op' hop
  exact mem_singleton.mp hop ▸ h

theorem exists_kind_isPrefix {kind : UInt8} (h : kind ∈ kinds) (ns : Bytes) (key : Key) (r : Bytes) :
    ∃ kind' ∈ kinds, ns ++ [kind'] <+: metaKey ns kind key ++ r :=
  ⟨kind, h, kind_isPrefix_metaKey.mpr rfl⟩

theorem stages_releaseLockOf (hb : Stages s.ns key t n b) :
    Stages s.ns key t n (s.releaseLockOf b key startTS) := by
  rw [releaseLockOf]
  split
  · split
    · exact hb
    · refine hb.append (Staged.delete ?_).single
      simpa using exists_kind_isPrefix (by simp [kinds]) s.ns key []
  · exact hb

theorem stages_prewriteInto (h : s.prewriteInto [] key l x = .ok b) :
    Stages s.ns key [l.startTS] (28 + l.primary.1.length + x.length) b := by
  obtain ⟨-, rfl⟩ := prewriteInto_eq_ok.mp h
  refine (Staged.lock ?_).single.append (Staged.stamped (by simp) (by simp) ?_ (by simp)).single
  · simp only [encodeLock, length_append, length_putTS, length_putBytes]
    omega
  · omega

theorem stages_write (rollback : Bool) : Stages s.ns key [commitTS] 13
    [.set (writeKey s.ns key commitTS) (encodeWrite startTS rollback)] :=
  (Staged.stamped (by simp) (by simp) (by simp [encodeWrite]) (by simp)).single

theorem stages_commitInto (h : s.commitInto [] key startTS commitTS = .ok b) :
    Stages s.ns key [commitTS] 13 b := by
  obtain ⟨-, rfl⟩ := commitInto_eq_ok.mp h
  exact stages_releaseLockOf (stages_write false)

theorem stages_rollbackInto (h : s.rollbackInto [] key startTS = .ok b) :
    Stages s.ns key [startTS] 13 b := by
  obtain ⟨-, rfl⟩ := rollbackInto_eq_ok.mp h
  exact (stages_releaseLockOf (stages_write true)).append
    (Staged.delete (exists_kind_isPrefix (by simp [kinds]) _ _ _)).single

theorem stages_putTxnInto {r : TxnRecord} (h : s.putTxnInto [] key r = .ok b) :
    Stages s.ns key t 25 b := by
  obtain ⟨-, rfl⟩ := putTxnInto_eq_ok.mp h
  exact (Staged.txn (by simp [encodeTxn])).single

theorem stages_noteReadInto (h : s.noteReadInto [] key readTS = .ok b) :
    Stages s.ns key [readTS] 0 b := by
  obtain ⟨-, -, h⟩ := bind_eq_ok.mp h
  have hset : Stages s.ns key [readTS] 0 [.set (readMarkKey s.ns key readTS) []] :=
    (Staged.stamped (by simp) (by simp) le_rfl (by simp)).single
  split at h
  · split at h <;> cases h
    · exact stages_nil
    · exact (Staged.delete (exists_kind_isPrefix (by simp [kinds]) _ _ _)).single.append hset
  · cases h
    exact hset

theorem stages_putInto (h : s.putInto [] key ts x = .ok b) : Stages s.ns key [ts] x.length b := by
  obtain ⟨-, rfl⟩ := putInto_eq_ok.mp h
  exact (Staged.stamped (by simp) (by simp) le_rfl (by simp)).single

end Stages

/-! ### Scans -/

/-- The records of one kind and one user key are the keys with the user key's prefix. -/
theorem Wf.stamped_of_isPrefix (hs : s.Wf) (hkind : kind ∈ [dataPrefix, writePrefix, readPrefix])
    (hget : s.db.get k = some x) (hpre : metaKey s.ns kind key <+: k) :
    ∃ ts, k = metaKey s.ns kind key ++ invertedTS ts := by
  obtain ⟨r, rfl⟩ := hpre
  obtain ⟨⟨key', ts, heq⟩, _⟩ := hs _ x hget kind hkind (kind_isPrefix_metaKey.mpr rfl)
  rw [metaKey_append_inj] at heq
  exact ⟨ts, by rw [heq.2.2]⟩

theorem mem_scan {v : Version} {p : Bytes} :
    (k, x) ∈ scan v p (prefixEnd p) ↔ v.get k = some x ∧ p <+: k := by
  rw [scan_eq_filter, mem_filter, OrderedMap.mem_entries, isPrefixOf_iff_prefix]

/-- A scan of one user key's records of one kind is a list of timestamps and values with the highest
rank first. -/
theorem Wf.exists_stamped (hs : s.Wf) (kind : UInt8)
    (hkind : kind ∈ [dataPrefix, writePrefix, readPrefix]) (key : Key) :
    ∃ l : List (Timestamp × Bytes),
      scan s.db (metaKey s.ns kind key) (prefixEnd (metaKey s.ns kind key)) =
        l.map (fun e => (metaKey s.ns kind key ++ invertedTS e.1, e.2)) ∧
      l.Pairwise (fun e f => f.1.rank < e.1.rank) ∧
      ∀ t x, (t, x) ∈ l ↔ s.db.get (metaKey s.ns kind key ++ invertedTS t) = some x := by
  set p := metaKey s.ns kind key with hp
  set enc : Timestamp × Bytes → Bytes × Bytes := fun e => (p ++ invertedTS e.1, e.2) with henc
  have hinj : Function.Injective enc := by
    rintro ⟨t, x⟩ ⟨u, y⟩ h
    simpa [enc, invertedTS_inj] using h
  -- Every key of the scan has the shape, so the scan is an image.
  have hmem : scan s.db p (prefixEnd p) ∈ Set.range (map enc) := by
    rw [Set.range_list_map]
    rintro ⟨k, x⟩ hmem
    obtain ⟨hget, hpre⟩ := mem_scan.mp hmem
    obtain ⟨ts, rfl⟩ := hs.stamped_of_isPrefix hkind hget hpre
    exact ⟨(ts, x), rfl⟩
  obtain ⟨l, hl⟩ := hmem
  refine ⟨l, hl.symm, ?_, ?_⟩
  · have hsorted : (scan s.db p (prefixEnd p)).Pairwise (fun a b => a.1 < b.1) := s.db.sorted.filter _
    rw [← hl, pairwise_map] at hsorted
    exact hsorted.imp metaKey_invertedTS_lt.mp
  · intro t x
    have hmem : (t, x) ∈ l ↔ enc (t, x) ∈ scan s.db p (prefixEnd p) := by
      rw [← hl, mem_map_of_injective hinj]
    rw [hmem, mem_scan]
    exact and_iff_left ⟨_, rfl⟩

/-- A key's newest commit record is one of its commit records, and the one of highest rank. -/
theorem Wf.newestCommit_of_write (hs : s.Wf) {c : Timestamp} {w : Timestamp × Bool}
    (h : s.view.write key c = some w) :
    ∃ c' w', s.newestCommit key = some (c', w'.1) ∧ s.view.write key c' = some w' ∧
      c.rank ≤ c'.rank := by
  obtain ⟨l, hscan, hsorted, hmem⟩ := hs.exists_stamped writePrefix (by simp) key
  obtain ⟨x, hget, hx⟩ := Option.bind_eq_some_iff.mp h
  have hin : (c, x) ∈ l := (hmem c x).mpr hget
  match l with
  | [] => simp at hin
  | (c', x') :: l =>
    have hget' : s.db.get (writeKey s.ns key c') = some x' := (hmem c' x').mp (by simp)
    obtain ⟨w', hx'⟩ := Option.isSome_iff_exists.mp
      ((hs _ x' hget' writePrefix (by simp) (kind_isPrefix_metaKey.mpr rfl)).2 rfl)
    refine ⟨c', w', ?_, by simp [view, hget', hx'], ?_⟩
    · simp [newestCommit, hscan, decodeWriteKey, hx']
    · rcases mem_cons.mp hin with heq | hin
      · rw [(Prod.mk.inj heq).1]
      · exact ((pairwise_cons.mp hsorted).1 _ hin).le

/-- Each key has at most one read mark. -/
def OneMark (s : Store) : Prop := ∀ key t u, s.view.marked key t → s.view.marked key u → t = u

theorem Wf.readMark_eq_some (hs : s.Wf) (hone : s.OneMark) {m : Timestamp} :
    s.readMark key = some m ↔ s.view.marked key m := by
  obtain ⟨l, hscan, -, hmem⟩ := hs.exists_stamped readPrefix (by simp) key
  have hmarked : ∀ t, s.view.marked key t ↔ ∃ x, (t, x) ∈ l := by
    intro t
    simp [view, hmem, Option.isSome_iff_exists]
  match l with
  | [] => simp [readMark, hscan, hmarked]
  | (t, x) :: l =>
    have ht : s.view.marked key t := (hmarked t).mpr ⟨x, by simp⟩
    have hread : s.readMark key = some t := by
      simp [readMark, hscan, decodeReadMarkKey]
    rw [hread, Option.some.injEq]
    constructor
    · rintro rfl
      exact ht
    · exact hone key t m ht

theorem view_noteReadInto (hs : s.Wf) (hone : s.OneMark)
    (h : s.noteReadInto [] key readTS = .ok b) :
    ∃ m, readTS ≤ m ∧ (∀ t, s.view.marked key t → t ≤ m) ∧ (s.flush b).view = s.view.note key m := by
  obtain ⟨_, _, h⟩ := bind_eq_ok.mp h
  cases hcur : s.readMark key with
  | none =>
    have hnone : ∀ t, s.view.marked key t = false := fun t =>
      Bool.eq_false_iff.mpr fun ht => by simp [(hs.readMark_eq_some hone).mpr ht] at hcur
    simp only [hcur, pure, Except.pure, Except.ok.injEq] at h
    subst h
    refine ⟨readTS, le_rfl, by simp [hnone], ?_⟩
    rw [nil_append, view_flush_mark]
    ext k t <;> simp only [View.note]
    by_cases hk : key = k
    · subst hk
      simp [hnone]
    · simp [hk]
  | some cur =>
    have hmark : s.view.marked key cur := (hs.readMark_eq_some hone).mp hcur
    have honly : ∀ t, s.view.marked key t = decide (cur = t) := by
      intro t
      rw [Bool.eq_iff_iff, decide_eq_true_iff]
      exact ⟨hone key cur t hmark, fun h => h ▸ hmark⟩
    by_cases hle : readTS ≤ cur
    · simp only [hcur, Timestamp.lessEq_iff.mpr hle, if_true, pure, Except.pure,
        Except.ok.injEq] at h
      subst h
      refine ⟨cur, hle, by simp [honly], ?_⟩
      ext k t <;> simp only [View.note, flush_nil]
      by_cases hk : key = k
      · subst hk
        simp [honly]
      · simp [hk]
    · have hlt : readTS.lessEq cur = false := by simpa using hle
      simp only [hcur, hlt, Bool.false_eq_true, if_false, pure, Except.pure, Except.ok.injEq,
        nil_append] at h
      subst h
      refine ⟨readTS, le_rfl, by simpa [honly] using (not_le.mp hle).le, ?_⟩
      rw [← singleton_append, flush_append]
      refine (view_flush_mark (s.flush _) key readTS).trans ?_
      rw [view_flush_delete_mark]
      ext k t <;> simp only [View.note]
      by_cases hk : key = k
      · subst hk
        simp [honly]
      · simp [hk]

/-! ### Snapshot reads -/

/-- A real commit of a key at or below a read. -/
def Visible (v : View) (key : Key) (readTS c startTS : Timestamp) : Prop :=
  v.write key c = some (startTS, false) ∧ c ≤ readTS

/-- The first part of a snapshot read: the commit timestamp and the start timestamp of the record that
answers it. -/
def latestVisible (ns : Bytes) (key : Key) (readTS ceiling : Timestamp) :
    List (Bytes × Bytes) → Except KvError (Option (Timestamp × Timestamp))
  | [] => .ok none
  | (k, v) :: rest =>
    match decodeWriteKey ns k with
    | none => .ok none
    | some (gotKey, commitTS) =>
      if gotKey ≠ key then .ok none
      else match decodeWrite v with
        | none => latestVisible ns key readTS ceiling rest
        | some (startTS, rollback) =>
          if readTS.less commitTS then
            if !rollback && commitTS.lessEq ceiling then .error (.uncertain key readTS commitTS)
            else latestVisible ns key readTS ceiling rest
          else if rollback then latestVisible ns key readTS ceiling rest
          else .ok (some (commitTS, startTS))

/-- The second part: the version a commit record names. -/
def fetch (s : Store) (key : Key) : Option (Timestamp × Timestamp) → Except KvError (Option Bytes)
  | none => .ok none
  | some (commitTS, startTS) =>
    match s.versionAt key startTS with
    | none => .error (.missingVersion key commitTS startTS)
    | some x => .ok (some x)

theorem scanWrites_eq (s : Store) (key : Key) (readTS ceiling : Timestamp)
    (es : List (Bytes × Bytes)) :
    s.scanWrites key readTS ceiling es =
      latestVisible s.ns key readTS ceiling es >>= s.fetch key := by
  induction es with
  | nil => rfl
  | cons e es ih =>
    obtain ⟨k, v⟩ := e
    rw [scanWrites, latestVisible]
    cases decodeWriteKey s.ns k with
    | none => rfl
    | some p =>
      obtain ⟨gotKey, commitTS⟩ := p
      by_cases hkey : gotKey ≠ key
      · simp only [if_pos hkey]
        rfl
      · simp only [if_neg hkey]
        cases decodeWrite v with
        | none => exact ih
        | some w =>
          obtain ⟨startTS, rollback⟩ := w
          cases readTS.less commitTS <;> cases rollback <;> simp only [ih] <;>
            cases commitTS.lessEq ceiling <;> rfl

theorem latestVisible_eq_ok {l : List (Timestamp × Bytes)}
    (hsorted : l.Pairwise (fun e f => f.1.rank < e.1.rank)) (h : latestVisible ns key readTS ceiling
      (l.map fun e => (writeKey ns key e.1, e.2)) = .ok r) :
    (∀ c ∈ r, ∃ x, (c.1, x) ∈ l ∧ decodeWrite x = some (c.2, false) ∧ c.1 ≤ readTS) ∧
      ∀ c x startTS, (c, x) ∈ l → decodeWrite x = some (startTS, false) → c ≤ readTS →
        ∃ c' ∈ r, c.rank ≤ c'.1.rank := by
  induction l with
  | nil =>
    cases h
    simp
  | cons e l ih =>
    obtain ⟨c₀, x₀⟩ := e
    obtain ⟨hfirst, hrest⟩ := pairwise_cons.mp hsorted
    simp only [map_cons, latestVisible, decodeWriteKey, decodeStamped_metaKey, ne_eq,
      not_true_eq_false, if_false] at h
    -- A record the walk passes over is above the read, a rollback, or does not decode.
    have hskip : (∀ startTS, decodeWrite x₀ = some (startTS, false) → ¬ c₀ ≤ readTS) →
        latestVisible ns key readTS ceiling (l.map fun e => (writeKey ns key e.1, e.2)) = .ok r →
        (∀ c ∈ r, ∃ x, (c.1, x) ∈ (c₀, x₀) :: l ∧ decodeWrite x = some (c.2, false) ∧
          c.1 ≤ readTS) ∧
        ∀ c x startTS, (c, x) ∈ (c₀, x₀) :: l → decodeWrite x = some (startTS, false) →
          c ≤ readTS → ∃ c' ∈ r, c.rank ≤ c'.1.rank := by
      intro hno hl
      obtain ⟨hsome, hmax⟩ := ih hrest hl
      constructor
      · intro c hc
        obtain ⟨x, hx, hdec⟩ := hsome c hc
        exact ⟨x, mem_cons_of_mem _ hx, hdec⟩
      · intro c x startTS hx hdec hle
        rcases mem_cons.mp hx with heq | hx
        · cases heq
          exact absurd hle (hno startTS hdec)
        · exact hmax c x startTS hx hdec hle
    cases hdec : decodeWrite x₀ with
    | none =>
      rw [hdec] at h
      exact hskip (by simp [hdec]) h
    | some w =>
      obtain ⟨startTS, rollback⟩ := w
      rw [hdec] at h
      by_cases hlt : readTS < c₀
      · simp only [Timestamp.less_iff.mpr hlt, if_true] at h
        split at h
        · simp at h
        · exact hskip (fun _ _ => hlt.not_ge) h
      · have hle : readTS.less c₀ = false := by simpa using hlt
        cases rollback with
        | true =>
          simp only [hle, Bool.false_eq_true, if_false, if_true] at h
          exact hskip (by simp [hdec]) h
        | false =>
          simp only [hle, Bool.false_eq_true, if_false] at h
          cases h
          refine ⟨?_, ?_⟩
          · intro c hc
            cases hc
            exact ⟨x₀, by simp, hdec, not_lt.mp hlt⟩
          · intro c x startTS' hx _ _
            refine ⟨_, rfl, ?_⟩
            rcases mem_cons.mp hx with heq | hx
            · rw [(Prod.mk.inj heq).1]
            · exact (hfirst _ hx).le

/-- The commit record that answers a snapshot read is the visible one of highest rank. -/
theorem Wf.latestVisible_eq_ok (hs : s.Wf) (h : latestVisible s.ns key readTS ceiling
      (scan s.db (keyWrites s.ns key) (prefixEnd (keyWrites s.ns key))) = .ok r) :
    (∀ c ∈ r, Visible s.view key readTS c.1 c.2) ∧
      ∀ c startTS, Visible s.view key readTS c startTS → ∃ c' ∈ r, c.rank ≤ c'.1.rank := by
  obtain ⟨l, hscan, hsorted, hmem⟩ := hs.exists_stamped writePrefix (by simp) key
  rw [hscan] at h
  obtain ⟨hsome, hmax⟩ := Store.latestVisible_eq_ok hsorted h
  constructor
  · intro c hc
    obtain ⟨x, hx, hdec, hle⟩ := hsome c hc
    exact ⟨by simp [view, (hmem c.1 x).mp hx, hdec], hle⟩
  · rintro c startTS ⟨hw, hle⟩
    obtain ⟨x, hget, hdec⟩ := Option.bind_eq_some_iff.mp hw
    exact hmax c x startTS ((hmem c x).mpr hget) hdec hle

theorem getTxn_eq_ok {a : Option Bytes} :
    s.getTxn key readTS ceiling = .ok a ↔
      readTS.isSet ∧ s.gcMark < readTS ∧ (∀ l ∈ s.lock key, readTS < l.startTS) ∧
      ∃ r, latestVisible s.ns key readTS ceiling
        (scan s.db (keyWrites s.ns key) (prefixEnd (keyWrites s.ns key))) = .ok r ∧
        s.fetch key r = .ok a := by
  simp [getTxn, bind_eq_ok, scanWrites_eq]

end Store

end Rift.Kv
