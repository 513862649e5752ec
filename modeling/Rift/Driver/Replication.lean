import Rift.Driver.Apply
import Rift.Kv.Agree
import Rift.Kv.Steps

/-!
# The state of a range is a function of its log

The driver stages writes and flushes them at different points than the replay does, shares its engine
with other ranges, and recovers from snapshots. Both still do to a range what `Range.apply` says a
command does, so the state after a committed sequence depends on the sequence alone.
-/

namespace Rift.Driver

open Kv Model List

/-! ### What a command does -/

/-- What a committed entry asks for. -/
inductive Command
  | txn (c : TxnCommand)
  | split (spec : SplitSpec)
  | collect (upTo : Timestamp)
  | put (key : Key) (ts : Timestamp) (value : Bytes)
  | none

/-- Read a committed entry. -/
def commandOf (data : Bytes) : Command :=
  if isTxnCommand data then
    match decodeTxnCommand data with
    | some c => .txn c
    | Option.none => .none
  else if isSplitCommand data then
    match decodeSplitCommand data with
    | some spec => .split spec
    | Option.none => .none
  else if data = [] then .none
  else if (decodeCmd data).op = opGC then .collect (decodeCmd data).ts
  else if (decodeCmd data).op = opPut then
    .put (decodeCmd data).key (decodeCmd data).ts (decodeCmd data).value.1
  else .none

variable {spec : SplitSpec} {r r' : Range} {data : Bytes}

/-- What decodes as a split is marked as one, and not as a transaction step. -/
theorem isSplitCommand_of_decode (h : decodeSplitCommand data = some spec) :
    isSplitCommand data ∧ isTxnCommand data = false := by
  have hsplit : isSplitCommand data := by
    rw [decodeSplitCommand] at h
    split at h
    · assumption
    · simp at h
  refine ⟨hsplit, ?_⟩
  simp only [isSplitCommand, decide_eq_true_eq] at hsplit
  rw [isTxnCommand, hsplit]
  rfl

theorem commandOf_eq_split :
    commandOf data = .split spec ↔ decodeSplitCommand data = some spec := by
  constructor
  · fun_cases commandOf data <;> simp_all
  · intro h
    obtain ⟨hsplit, htxn⟩ := isSplitCommand_of_decode h
    simp [commandOf, htxn, hsplit, h]

/-- A range: its descriptor and its store. -/
structure Range where
  desc : RangeDescriptor
  store : Store

/-- Replace a store's records. -/
def replaceRecords (s : Store) (rs : List (Bytes × Bytes)) (mark : Timestamp) : Store :=
  (s.ingestRecordsInto [] rs mark).2.flush (s.ingestRecordsInto [] rs mark).1

/-- The records of a store that belong to a range. -/
def recordsIn (s : Store) (d : RangeDescriptor) : List (Bytes × Bytes) :=
  s.records.filter fun r => (s.userKeyOf r.1).any d.contains

/-- What a command does to a range. -/
def Range.apply (r : Range) : Command → Range
  | .txn c =>
    if r.desc.contains c.key then { r with store := r.store.flush (applyTxnTo r.store [] c) } else r
  | .split spec =>
    if spec.current r.desc then
      { desc := spec.left
        store := replaceRecords r.store (recordsIn r.store spec.left) r.store.gcMark }
    else r
  | .collect upTo => { r with store := r.store.step (.gc upTo) }
  | .put key ts x =>
    if r.desc.contains key then { r with store := r.store.step (.put key ts x) } else r
  | .none => r

namespace Machine

variable {m : Machine} {e : Entry}

/-- A machine with its staged writes applied. -/
def range (m : Machine) : Range := ⟨m.desc, m.store.flush m.staged⟩

theorem flush_putInto (s : Store) (b : Batch) (key : Key) (ts : Timestamp) (x : Bytes) :
    s.flush (orKeep b (s.putInto b key ts x)) = (s.flush b).step (.put key ts x) := by
  have hmark : (s.flush b).refuseBelowMark ts = s.refuseBelowMark ts := rfl
  cases hset : Store.refuseUnset ts with
  | error e => simp [Store.step, Store.perform, Store.putInto, hset, bind, Except.bind, orKeep]
  | ok u =>
    cases hbelow : s.refuseBelowMark ts with
    | error e =>
      simp [Store.step, Store.perform, Store.putInto, hset, hmark, hbelow, bind, Except.bind, orKeep]
    | ok u' =>
      simp [Store.step, Store.perform, Store.putInto, hset, hmark, hbelow, bind, Except.bind, orKeep,
        pure, Except.pure, Store.flush_append]

theorem range_replayOne (m : Machine) (e : Entry) :
    (m.replayOne e).range = m.range.apply (commandOf e.data) := by
  by_cases hn : e.data = []
  · simp [replayOne, commandOf, hn, isTxnCommand, isSplitCommand, Range.apply]
  fun_cases commandOf e.data with
  | case1 ht c hd =>
    cases hin : m.desc.contains c.key <;> simp [replayOne, ht, hd, hn, hin, Range.apply, range, flush]
  | case2 ht hd => simp [replayOne, ht, hd, Range.apply]
  | case3 ht hs spec hd =>
    cases hcur : spec.current m.desc with
    | false => simp [replayOne, ht, hs, hd, hcur, Range.apply, range]
    | true =>
      simp only [replayOne, ht, hs, hd, hn, hcur, Range.apply, range, if_false, if_true,
        Bool.false_eq_true, Bool.not_true]
      rfl
  | case4 ht hs hd => simp [replayOne, ht, hs, hd, Range.apply]
  | case5 _ _ h => exact absurd h hn
  | case6 ht hs _ ho =>
    simp only [replayOne, ht, hs, hn, ho, if_false, if_true, Bool.false_eq_true, Range.apply,
      Store.step]
    cases h : (m.store.flush m.staged).advanceGCInto [] (decodeCmd e.data).ts <;>
      simp only [flush, range, h, Store.flush_nil]
  | case7 ht hs _ hgc ho =>
    cases hin : m.desc.contains (decodeCmd e.data).key <;>
      simp [replayOne, ht, hs, hn, ho ▸ hgc, ho, hin, Range.apply, range, flush_putInto]
  | case8 ht hs _ hgc ho => simp [replayOne, ht, hs, hgc, ho, Range.apply]

end Machine

/-! ### Ranges on different engines -/

/-- Two ranges with the same descriptor, mark and records. -/
structure Range.Agree (r r' : Range) : Prop where
  desc : r.desc = r'.desc
  store : r.store.Agree r'.store

theorem Range.Agree.refl (r : Range) : r.Agree r := ⟨rfl, .refl _⟩

theorem Range.Agree.trans {r'' : Range} (h : r.Agree r') (h' : r'.Agree r'') : r.Agree r'' :=
  ⟨h.desc.trans h'.desc, h.store.trans h'.store⟩

variable {s t : Store} {rs : List (Bytes × Bytes)} {k x : Bytes} {c : Command}
  {desc : RangeDescriptor} {b : Batch} {key : Key}

theorem agree_applyTxnTo (h : s.Agree t) (b : Batch) (c : TxnCommand) :
    applyTxnTo s b c = applyTxnTo t b c := by
  simp only [applyTxnTo, h.prewriteInto, h.commitInto, h.rollbackInto, h.putTxnInto, h.noteReadInto,
    h.resolveLock, h.txn, h.lock, h.applyResolutionInto]

theorem agree_step_gc (h : s.Agree t) (upTo : Timestamp) :
    (s.step (.gc upTo)).Agree (t.step (.gc upTo)) := by
  rw [Store.step_gc, Store.step_gc, h.gcMark]
  split
  · have hflush := h.flush ((s.collected upTo).map .delete)
    refine ⟨h.ns, rfl, fun k hk => ?_⟩
    rw [← h.collected]
    exact hflush.get k hk
  · exact h

theorem agree_step_put (h : s.Agree t) (key : Key) (ts : Timestamp) (x : Bytes) :
    (s.step (.put key ts x)).Agree (t.step (.put key ts x)) := by
  simp only [Store.step, h.putInto]
  cases t.putInto [] key ts x with
  | ok b => exact h.flush b
  | error e => exact h

theorem agree_replaceRecords (h : s.Agree t) (rs : List (Bytes × Bytes)) (mark : Timestamp) :
    (replaceRecords s rs mark).Agree (replaceRecords t rs mark) := by
  have hflush := h.flush (s.ingestRecordsInto [] rs mark).1
  refine ⟨h.ns, rfl, fun k hk => ?_⟩
  have heq : (t.ingestRecordsInto [] rs mark).1 = (s.ingestRecordsInto [] rs mark).1 := by
    simp only [Store.ingestRecordsInto, h.ns]
  simp only [replaceRecords, heq]
  exact hflush.get k hk

theorem agree_recordsIn (h : s.Agree t) (d : RangeDescriptor) : recordsIn s d = recordsIn t d := by
  simp only [recordsIn, h.records, h.userKeyOf]

theorem Range.Agree.apply (h : r.Agree r') (c : Command) : (r.apply c).Agree (r'.apply c) := by
  cases c with
  | txn c =>
    simp only [Range.apply, h.desc]
    split
    · refine ⟨rfl, ?_⟩
      rw [agree_applyTxnTo h.store]
      exact h.store.flush _
    · exact h
  | split spec =>
    simp only [Range.apply, h.desc]
    split
    · refine ⟨rfl, ?_⟩
      rw [agree_recordsIn h.store, h.store.gcMark]
      exact agree_replaceRecords h.store _ _
    · exact h
  | collect upTo => exact ⟨h.desc, agree_step_gc h.store upTo⟩
  | put key ts x =>
    simp only [Range.apply, h.desc]
    split
    · exact ⟨rfl, agree_step_put h.store key ts x⟩
    · exact h
  | none => exact h

theorem Range.Agree.foldl (h : r.Agree r') (cs : List Command) :
    (cs.foldl Range.apply r).Agree (cs.foldl Range.apply r') := by
  induction cs generalizing r r' with
  | nil => exact h
  | cons c cs ih => exact ih (h.apply c)

/-! ### Where records belong -/

theorem userKeyOf_metaKey (s : Store) {kind : UInt8} (h : kind ∈ Store.kinds) (key : Key)
    (r : Bytes) : s.userKeyOf (metaKey s.ns kind key ++ r) = some key := by
  have hdrop : (metaKey s.ns kind key ++ r).drop s.ns.length = kind :: (putBytes key.1 ++ r) := by
    rw [metaKey, append_assoc, drop_left, cons_append]
  rw [Store.userKeyOf, if_pos (Store.owns_metaKey h key r), hdrop]
  simp

/-- Every record belongs to a key of the range's extent. -/
def Range.Contained (r : Range) : Prop :=
  ∀ k x, (k, x) ∈ r.store.records → ∃ key, r.store.userKeyOf k = some key ∧ r.desc.contains key

/-! ### What commands write -/

/-- The timestamps a transaction step puts into keys. -/
def TxnCommand.stamps (c : TxnCommand) : List Timestamp :=
  match c.op with
  | .prewrite | .rollbackKey => [c.startTS]
  | .commitKey => [c.commitTS]
  | .txnGet => [c.readTS]
  | .applyResolution => [if c.status = .rolledBack then c.startTS else c.commitTS]
  | .putTxnRecord | .resolveStatus | .other _ _ => []

/-- The timestamps a command puts into keys. -/
def Command.stamps : Command → List Timestamp
  | .txn c => c.stamps
  | .put _ ts _ => [ts]
  | .split _ | .collect _ | .none => []

/-- The user key a command writes to, and a bound on the values it writes there. -/
def Command.Writes : Command → Key → ℕ → Prop
  | .txn c, key, n => c.key = key ∧ n = 28 + c.primary.1.length + c.value.1.length
  | .put key' _ x, key, n => key' = key ∧ n = x.length
  | .split _, _, _ | .collect _, _, _ | .none, _, _ => False

section Stages

variable {key : Key} {ts : List Timestamp} {n : ℕ}

theorem stages_orKeep {m : ℕ} {r : Except KvError Batch} (hm : m ≤ n)
    (h : ∀ b, r = .ok b → Store.Stages s.ns key ts m b) :
    Store.Stages s.ns key ts n (orKeep [] r) := by
  cases r with
  | ok b => exact (h b rfl).mono hm
  | error e => exact Store.stages_nil

theorem stages_applyTxnTo (s : Store) (c : TxnCommand) :
    Store.Stages s.ns c.key c.stamps (28 + c.primary.1.length + c.value.1.length)
      (applyTxnTo s [] c) := by
  unfold applyTxnTo TxnCommand.stamps
  cases c.op with
  | prewrite => exact stages_orKeep le_rfl fun _ => Store.stages_prewriteInto
  | commitKey => exact stages_orKeep (by omega) fun _ => Store.stages_commitInto
  | rollbackKey => exact stages_orKeep (by omega) fun _ => Store.stages_rollbackInto
  | putTxnRecord => exact stages_orKeep (by omega) fun _ => Store.stages_putTxnInto
  | txnGet => exact stages_orKeep (by omega) fun _ => Store.stages_noteReadInto
  | resolveStatus =>
    dsimp only
    split
    · exact Store.stages_nil
    · split
      · exact stages_orKeep (by omega) fun _ => Store.stages_putTxnInto
      · exact Store.stages_nil
  | applyResolution =>
    cases s.lock c.key with
    | none => exact Store.stages_nil
    | some l =>
      by_cases hstart : l.startTS = c.startTS
      · simp only [hstart, ne_eq, not_true_eq_false, if_false]
        refine stages_orKeep (m := 13) (by omega) fun b h => ?_
        by_cases hback : c.status = .rolledBack
        · rw [if_pos hback] at h ⊢
          exact hstart ▸ Store.stages_rollbackInto h
        · rw [if_neg hback] at h ⊢
          exact Store.stages_commitInto h
      · simp only [ne_eq, hstart, not_false_eq_true, if_true]
        exact Store.stages_nil
  | other raw unnamed => exact Store.stages_nil

theorem userKeyOf_staged (h : Store.Staged s.ns key ts n (.set k x)) :
    s.userKeyOf k = some key := by
  cases h with
  | stamped hkind => exact userKeyOf_metaKey s (by simp [Store.kinds] at hkind ⊢; tauto) key _
  | lock =>
    rw [← append_nil (lockKey s.ns key)]
    exact userKeyOf_metaKey s (by simp [Store.kinds]) key _
  | txn => exact userKeyOf_metaKey s (by simp [Store.kinds]) key _

theorem length_staged (h : Store.Staged s.ns key ts n (.set k x)) :
    k.length ≤ s.ns.length + 17 + key.1.length ∧ x.length ≤ n := by
  cases h with
  | stamped _ _ hx => exact ⟨by simp [metaKey]; omega, hx⟩
  | lock hx => exact ⟨by simp [metaKey]; omega, hx⟩
  | txn hx => exact ⟨by simp [metaKey]; omega, hx⟩

end Stages

theorem mem_records_flush (h : (k, x) ∈ (s.flush b).records) :
    (k, x) ∈ s.records ∨ .set k x ∈ b := by
  obtain ⟨howns, hget⟩ := Store.mem_records.mp h
  exact (get_applyTo_cases hget).imp_left fun hg => Store.mem_records.mpr ⟨howns, hg⟩

/-! ### Replacing records -/

theorem get_applyTo_clear (v : Version) (ns : Bytes) (ks : List UInt8) (k : Bytes) :
    (applyTo v (ks.map fun kind => .deleteRange (ns ++ [kind]) (prefixEnd (ns ++ [kind])))).get k =
      if ∃ kind ∈ ks, ns ++ [kind] <+: k then none else v.get k := by
  induction ks generalizing v with
  | nil => simp
  | cons kind ks ih =>
    rw [map_cons, applyTo_cons, ih, apply_deleteRange, OrderedMap.get_eraseIf]
    by_cases h : ns ++ [kind] <+: k
    · simp [inRange_prefixEnd.mpr h, h]
    · have hr : inRange (ns ++ [kind]) (prefixEnd (ns ++ [kind])) k = false :=
        Bool.eq_false_iff.mpr (mt inRange_prefixEnd.mp h)
      simp [hr, h]

theorem get_applyTo_sets (v : Version) (rs : List (Bytes × Bytes)) (k x : Bytes)
    (h : (applyTo v (rs.map fun r => .set r.1 r.2)).get k = some x) :
    (k, x) ∈ rs ∨ v.get k = some x := by
  rcases get_applyTo_cases h with hget | hset
  · exact .inr hget
  · obtain ⟨r, hr, heq⟩ := mem_map.mp hset
    obtain ⟨rfl, rfl⟩ := Op.set.inj heq
    exact .inl hr

theorem get_applyTo_sets_iff {v : Version} (hrs : (rs.map (·.1)).Nodup) :
    (applyTo v (rs.map fun r => .set r.1 r.2)).get k = some x ↔
      (k, x) ∈ rs ∨ k ∉ rs.map (·.1) ∧ v.get k = some x := by
  induction rs generalizing v with
  | nil => simp
  | cons r rs ih =>
    obtain ⟨a, b⟩ := r
    obtain ⟨hnot, hnodup⟩ := nodup_cons.mp hrs
    rw [map_cons, applyTo_cons, ih hnodup, apply_set, OrderedMap.get_set]
    by_cases hk : a = k
    · subst hk
      replace hnot : ∀ y, (a, y) ∉ rs := by simpa using hnot
      simp [hnot, eq_comm]
    · simp [hk, Ne.symm hk]

theorem get_replaceRecords_eq (s : Store) (rs : List (Bytes × Bytes)) (mark : Timestamp) :
    (replaceRecords s rs mark).db = applyTo (applyTo s.db
      (Store.kinds.map fun kind => .deleteRange (s.ns ++ [kind]) (prefixEnd (s.ns ++ [kind]))))
      (rs.map fun r => .set r.1 r.2) := by
  simp only [replaceRecords, Store.ingestRecordsInto, Store.flush, nil_append, applyTo_append]

theorem mem_records_replaceRecords {mark : Timestamp}
    (h : (k, x) ∈ (replaceRecords s rs mark).records) : (k, x) ∈ rs := by
  obtain ⟨howns, hget⟩ := Store.mem_records.mp h
  rw [get_replaceRecords_eq] at hget
  rcases get_applyTo_sets _ _ _ _ hget with hin | hget
  · exact hin
  · have howns' : s.owns k := howns
    rw [get_applyTo_clear, if_pos (Store.owns_iff.mp howns')] at hget
    simp at hget

theorem replaceRecords_agree (hns : s.ns = t.ns) :
    (replaceRecords s t.records t.gcMark).Agree t := by
  refine ⟨hns, rfl, fun k hk => ?_⟩
  have hkt : t.owns k := by rwa [← Store.owns_congr hns]
  have hnodup : (t.records.map (·.1)).Nodup := by
    rw [Store.records_eq]
    exact t.db.nodup_keys.sublist (filter_sublist.map _)
  cases hget : t.db.get k with
  | some x =>
    rw [get_replaceRecords_eq]
    exact (get_applyTo_sets_iff hnodup).mpr (.inl (Store.mem_records.mpr ⟨hkt, hget⟩))
  | none =>
    cases hget' : (replaceRecords s t.records t.gcMark).db.get k with
    | none => rfl
    | some x =>
      have hin := mem_records_replaceRecords (Store.mem_records.mpr ⟨hk, hget'⟩)
      rw [(Store.mem_records.mp hin).2] at hget
      simp at hget

/-! ### Splits -/

/-- A split as a leader builds it: one of the range's descriptors cut at a key of its extent. -/
def SplitSpec.Cuts (spec : SplitSpec) (id : RangeID) : Prop :=
  ∃ d key rid, d.id = id ∧ d.contains key ∧ key.1 ≠ [] ∧ spec = SplitSpec.cut d key rid

theorem SplitSpec.Cuts.id {id : RangeID} (h : spec.Cuts id) : spec.left.id = id := by
  obtain ⟨d, key, rid, hid, -, -, rfl⟩ := h
  exact hid

theorem copyBound_of_ne_nil {key : Str} (h : key.1 ≠ []) : copyBound key = some key := if_neg h

theorem bind_copyBound_copyBound (key : Str) : (copyBound key).bind copyBound = copyBound key := by
  by_cases h : key.1 = []
  · simp [copyBound, h]
  · rw [copyBound_of_ne_nil h, Option.bind_some, copyBound_of_ne_nil h]

/-- A cut is built from copies: to copy its parts once more changes nothing. -/
theorem SplitSpec.clone_left_cut (d : RangeDescriptor) (key : Key) (rid : RangeID) :
    (SplitSpec.cut d key rid).left.clone = (SplitSpec.cut d key rid).left := by
  simp only [RangeDescriptor.clone, SplitSpec.cut, bind_copyBound_copyBound]

theorem SplitSpec.clone_right_cut (d : RangeDescriptor) (key : Key) (rid : RangeID) :
    (SplitSpec.cut d key rid).right.clone = (SplitSpec.cut d key rid).right := by
  simp only [RangeDescriptor.clone, SplitSpec.cut, Option.bind_assoc, bind_copyBound_copyBound]

theorem SplitSpec.Cuts.clone_left {id : RangeID} (h : spec.Cuts id) :
    spec.left.clone = spec.left := by
  obtain ⟨d, key, rid, -, -, -, rfl⟩ := h
  exact clone_left_cut d key rid

theorem SplitSpec.Cuts.clone_right {id : RangeID} (h : spec.Cuts id) :
    spec.right.clone = spec.right := by
  obtain ⟨d, key, rid, -, -, -, rfl⟩ := h
  exact clone_right_cut d key rid

theorem SplitSpec.Cuts.not_right {id : RangeID} (h : spec.Cuts id)
    (hleft : spec.left.contains key) : spec.right.contains key = false := by
  obtain ⟨d, cut, rid, -, -, hcut, rfl⟩ := h
  have hlt : key.1 < cut.1 :=
    (RangeDescriptor.contains_iff.mp hleft).2 cut (copyBound_of_ne_nil hcut)
  refine Bool.eq_false_iff.mpr fun hright => ?_
  exact absurd (RangeDescriptor.contains_iff.mp hright).1 hlt.not_ge

theorem SplitSpec.Cuts.covers {id : RangeID} (h : spec.Cuts id) (hcur : spec.current desc)
    (hkey : desc.contains key) : spec.right.contains key ∨ spec.left.contains key := by
  obtain ⟨d, cut, rid, -, -, hcut, rfl⟩ := h
  simp only [SplitSpec.current, Bool.and_eq_true, decide_eq_true_eq] at hcur
  obtain ⟨⟨-, hstart⟩, hend⟩ := hcur
  obtain ⟨hge, hlt⟩ := RangeDescriptor.contains_iff.mp hkey
  rcases lt_or_ge key.1 cut.1 with hkc | hkc
  · refine .inr (RangeDescriptor.contains_iff.mpr ⟨hstart ▸ hge, fun e he => ?_⟩)
    rw [show (SplitSpec.cut d cut rid).left.fin = copyBound cut from rfl,
      copyBound_of_ne_nil hcut] at he
    exact Option.some.inj he ▸ hkc
  · refine .inl (RangeDescriptor.contains_iff.mpr ⟨hkc, fun e he => ?_⟩)
    -- The right part's end is the range's: an end that reads as empty bounds nothing.
    have hright : (SplitSpec.cut d cut rid).right.endBytes = e.1 := by
      rw [RangeDescriptor.endBytes, Option.mem_def.mp he]
      rfl
    rw [hend] at hright
    cases hfin : desc.fin with
    | some e' =>
      have : e'.1 = e.1 := by rw [← hright, RangeDescriptor.endBytes, hfin]; rfl
      exact this ▸ hlt e' hfin
    | none =>
      have hnil : e.1 = [] := by rw [← hright, RangeDescriptor.endBytes, hfin]; rfl
      obtain ⟨e₀, -, hcopy⟩ := Option.bind_eq_some_iff.mp he
      rw [copyBound] at hcopy
      split at hcopy
      · simp at hcopy
      · next hne => exact absurd (Option.some.inj hcopy ▸ hnil) hne

/-! ### Records stay in the extent -/

theorem Range.Contained.of_agree (hr : r.Contained) (h : r.Agree r') : r'.Contained := by
  intro k x hin
  rw [← h.store.records] at hin
  obtain ⟨key, hkey, hcontains⟩ := hr k x hin
  exact ⟨key, h.store.userKeyOf k ▸ hkey, h.desc ▸ hcontains⟩

theorem mem_records_step_gc {upTo : Timestamp} (h : (k, x) ∈ (s.step (.gc upTo)).records) :
    (k, x) ∈ s.records := by
  rw [Store.step_gc] at h
  split at h
  · obtain ⟨howns, hget⟩ := Store.mem_records.mp h
    simp only [Store.get_applyTo_delete] at hget
    split at hget
    · simp at hget
    · exact Store.mem_records.mpr ⟨howns, hget⟩
  · exact h

theorem mem_records_apply (h : (k, x) ∈ (r.apply c).store.records) :
    (k, x) ∈ r.store.records ∨ ∃ key n, c.Writes key n ∧ r.desc.contains key ∧
      Store.Staged r.store.ns key c.stamps n (.set k x) := by
  cases c with
  | txn c =>
    simp only [Range.apply] at h
    split at h
    · next hkey =>
      exact (mem_records_flush h).imp_right fun hset =>
        ⟨_, _, ⟨rfl, rfl⟩, hkey, stages_applyTxnTo r.store c _ hset⟩
    · exact .inl h
  | split spec =>
    simp only [Range.apply] at h
    split at h
    · exact .inl (mem_of_mem_filter (mem_records_replaceRecords h))
    · exact .inl h
  | collect upTo => exact .inl (mem_records_step_gc h)
  | put key ts y =>
    simp only [Range.apply] at h
    split at h
    · next hkey =>
      revert h
      refine Store.perform_cases (P := fun s => (k, x) ∈ s.records → _) .inl fun b hput h => ?_
      exact (mem_records_flush h).imp_right fun hset =>
        ⟨_, _, ⟨rfl, rfl⟩, hkey, Store.stages_putInto hput _ hset⟩
    · exact .inl h
  | none => exact .inl h

theorem ns_apply (r : Range) (c : Command) : (r.apply c).store.ns = r.store.ns := by
  cases c with
  | txn c => simp only [Range.apply]; split <;> rfl
  | split spec => simp only [Range.apply]; split <;> rfl
  | collect upTo =>
    simp only [Range.apply, Store.step_gc]
    split <;> rfl
  | put key ts x =>
    simp only [Range.apply, Store.step, Store.perform]
    split
    · cases r.store.putInto [] key ts x <;> rfl
    · rfl
  | none => rfl

theorem desc_apply (h : ∀ spec, c ≠ .split spec) : (r.apply c).desc = r.desc := by
  cases c with
  | split spec => exact absurd rfl (h spec)
  | txn c => simp only [Range.apply]; split <;> rfl
  | put key ts x => simp only [Range.apply]; split <;> rfl
  | collect upTo => rfl
  | none => rfl

theorem Range.Contained.apply (hr : r.Contained) : (r.apply c).Contained := by
  by_cases hc : ∃ spec, c = .split spec
  · obtain ⟨spec, rfl⟩ := hc
    simp only [Range.apply]
    split
    · intro k x hin
      have hin' := mem_records_replaceRecords hin
      rw [recordsIn, mem_filter] at hin'
      cases hkey : r.store.userKeyOf k with
      | none => simp [hkey] at hin'
      | some key => exact ⟨key, hkey, by simpa [hkey] using hin'.2⟩
    · exact hr
  · intro k x hin
    rw [Store.userKeyOf_congr (ns_apply r c), desc_apply (not_exists.mp hc)]
    rcases mem_records_apply hin with hin | ⟨key, n, -, hkey, hset⟩
    · exact hr k x hin
    · exact ⟨key, userKeyOf_staged hset, hkey⟩

/-! ### The driver -/

/-- The driver's wrapper of a transaction step stages what the shared path stages, at most twice. -/
theorem flush_applyTxn (s : Store) (c : TxnCommand) :
    s.flush (applyTxn s [] c).1 = s.flush (applyTxnTo s [] c) := by
  unfold applyTxn
  split
  · next hop =>
    rw [applyTxnTo, hop]
    cases s.prewriteInto [] c.key
      { primary := c.primary, startTS := c.startTS, deadline := c.deadline } c.value.1 <;> rfl
  · next hop =>
    rw [applyTxnTo, hop]
    cases s.putTxnInto [] c.key
      { status := c.status, startTS := c.startTS, commitTS := c.commitTS } <;> rfl
  · next hop =>
    cases htxn : s.txn c.key c.startTS with
    | some rec => rfl
    | none =>
      cases hle : c.expireAt.lessEq c.deadline with
      | true => simp
      | false =>
        -- The record is staged by the declaration and by the shared path.
        simp only [Bool.false_eq_true, if_false, applyTxnTo, hop, Store.resolveLock, htxn, hle,
          Bool.not_true, ne_eq, not_true_eq_false, declareDead]
        cases hput : s.putTxnInto [] c.key { status := .rolledBack, startTS := c.startTS } with
        | error e => simp [orKeep, hput]
        | ok b =>
          obtain ⟨hguard, rfl⟩ := Store.putTxnInto_eq_ok.mp hput
          have htwice : ∀ b, s.putTxnInto b c.key { status := .rolledBack, startTS := c.startTS } =
              .ok (b ++ [.set (txnKey s.ns c.key c.startTS)
                (encodeTxn { status := .rolledBack, startTS := c.startTS })]) :=
            fun b => Store.putTxnInto_eq_ok.mpr ⟨hguard, rfl⟩
          simp only [orKeep, htwice, nil_append, Store.flush]
          congr 1
          apply OrderedMap.ext_get
          intro k
          simp only [applyTo_append, applyTo_cons, applyTo_nil, apply_set, OrderedMap.get_set]
          split <;> rfl
  · rfl

theorem rangePrefix_inj {id id' : RangeID} {r r' : Bytes}
    (h : rangePrefix id ++ r = rangePrefix id' ++ r') : id = id' := by
  simp only [rangePrefix, cons_append, List.cons.injEq, true_and] at h
  have hid := takeU64_putU64 id r
  rw [h, takeU64_putU64] at hid
  exact (Prod.mk.inj (Option.some.inj hid)).1.symm

theorem not_isPrefix_of_ne {id id' : RangeID} (h : id ≠ id') (hk : rangePrefix id <+: k) :
    ¬ rangePrefix id' <+: k := by
  rintro ⟨r', hr'⟩
  obtain ⟨r, hr⟩ := hk
  exact h (rangePrefix_inj (hr.trans hr'.symm))

namespace Machine

variable {id : RangeID}

theorem get_born (h : id ≠ desc.id) (hrs : ∀ r ∈ rs, rangePrefix desc.id <+: r.1)
    (hk : rangePrefix id <+: k) (db : Version) (mark : Timestamp) :
    (born db desc rs mark).store.db.get k = db.get k := by
  have hnot := not_isPrefix_of_ne h hk
  refine get_applyTo_of_untouched (fun op hop => ?_) db
  rcases mem_append.mp hop with hop | hop
  · simp only [nil_append, mem_map] at hop
    obtain ⟨kind, -, rfl⟩ := hop
    exact fun hin => hnot ((prefix_append _ _).trans (inRange_prefixEnd.mp hin))
  · obtain ⟨r, hr, rfl⟩ := mem_map.mp hop
    exact fun heq => hnot (heq ▸ hrs r hr)

/-- The right range is born a second time on the engine that has its descriptor and snapshot. -/
theorem bearRight_eq (db : Version) (spec : SplitSpec) (rs : List (Bytes × Bytes)) (mark : Timestamp)
    (conf : Configuration) :
    ∃ v, v = applyTo (born db spec.right.clone rs mark).store.db
        [.set (keyDescOf spec.right.id) (encodeDesc spec.right),
         .set (keySnapshotOf spec.right.id)
           (encodeSnapshot { conf := conf } (encodeMachine spec.right mark rs))] ∧
      bearRight db spec rs mark conf = born v spec.right.clone rs mark :=
  ⟨_, rfl, rfl⟩

theorem get_bearRight (h : id ≠ spec.right.id) (hrs : ∀ r ∈ rs, rangePrefix spec.right.id <+: r.1)
    (hk : rangePrefix id <+: k) (db : Version) (mark : Timestamp) (conf : Configuration) :
    (bearRight db spec rs mark conf).store.db.get k = db.get k := by
  have hnot := not_isPrefix_of_ne h hk
  have hborn : ∀ v, (born v spec.right.clone rs mark).store.db.get k = v.get k :=
    fun v => get_born h hrs hk v mark
  obtain ⟨v, hv, heq⟩ := bearRight_eq db spec rs mark conf
  rw [heq, hborn, hv, get_applyTo_of_untouched, hborn]
  intro op hop
  simp only [mem_cons, not_mem_nil, or_false] at hop
  rcases hop with rfl | rfl
  · exact fun heq => hnot ⟨_, heq⟩
  · exact fun heq => hnot ⟨_, heq⟩

variable {m : Machine}

theorem movedRecords_isPrefix {r : Bytes × Bytes} (h : r ∈ m.movedRecords spec) :
    rangePrefix spec.right.id <+: r.1 := by
  obtain ⟨kr, hkr, rfl⟩ := mem_map.mp h
  obtain ⟨r, hr, hkey⟩ := mem_filterMap.mp (mem_of_mem_filter hkr)
  obtain ⟨key, -, rfl⟩ := Option.map_eq_some_iff.mp hkey
  -- A record's key is at least as long as its keyspace.
  have howns : m.store.owns r.1 := ((Store.mem_records (x := r.2)).mp hr).1
  have hlen : ¬ r.1.length < m.store.ns.length := by
    have hpre : m.store.ns <+: r.1 :=
      Store.isPrefix_of_owns howns
    exact not_lt.mpr hpre.length_le
  rw [reNamespace, if_neg hlen]
  exact prefix_append _ _

theorem map_filter_keyed (m : Machine) (p : Key → Bool) :
    (m.keyed.filter fun kr => p kr.1).map (·.2) =
      m.store.records.filter fun r => (m.store.userKeyOf r.1).any p := by
  rw [keyed]
  induction m.store.records with
  | nil => rfl
  | cons r rs ih =>
    cases hkey : m.store.userKeyOf r.1 with
    | none => simpa [hkey] using ih
    | some key => cases hp : p key <;> simpa [hkey, hp] using ih

/-- What the driver relies on: its store is the range's, the range is one of the machine's, and every
record belongs to the extent. -/
structure Hosted (m : Machine) (id : RangeID) (ranges : List RangeID) : Prop where
  ns : m.store.ns = rangePrefix id
  desc : m.desc.id = id
  mem : id ∈ ranges
  contained : m.range.Contained

theorem contains_of_mem_keyed (hm : (⟨m.desc, m.store⟩ : Range).Contained)
    {kr : Key × (Bytes × Bytes)} (h : kr ∈ m.keyed) : m.desc.contains kr.1 := by
  obtain ⟨r, hr, hkey⟩ := mem_filterMap.mp h
  obtain ⟨key, huser, rfl⟩ := Option.map_eq_some_iff.mp hkey
  obtain ⟨key', huser', hin⟩ := hm r.1 r.2 hr
  cases huser.symm.trans huser'
  exact hin

variable {ranges : List RangeID} {e : Entry}

theorem Hosted.covered (hm : m.Hosted id ranges) (hstaged : m.staged = []) (hspec : spec.Cuts id)
    (hcur : spec.current m.desc) :
    (m.keyed.any fun kr => !spec.right.contains kr.1 && !spec.left.contains kr.1) = false := by
  refine Bool.eq_false_iff.mpr fun hany => ?_
  obtain ⟨kr, hkr, hneither⟩ := any_eq_true.mp hany
  have hcontained := hm.contained
  rw [range, hstaged, Store.flush_nil] at hcontained
  rcases hspec.covers hcur (contains_of_mem_keyed hcontained hkr) with h | h <;> simp [h] at hneither

/-- A split on the driver leaves of the left range what the split command does. -/
theorem applySplit_refines (hm : m.Hosted id ranges) (hstaged : m.staged = [])
    (hspec : spec.Cuts id) (conf : Configuration) :
    ∃ m' ranges', (m.applySplit conf ranges spec).map (·.1) = some (m', ranges') ∧ id ∈ ranges' ∧
      m'.store.ns = m.store.ns ∧ m'.range.Agree (m.range.apply (.split spec)) := by
  have hrange : m.range = ⟨m.desc, m.store⟩ := by rw [range, hstaged, Store.flush_nil]
  cases hcur : spec.current m.desc with
  | false =>
    refine ⟨m, ranges, by simp [applySplit, hcur], hm.mem, rfl, ?_⟩
    simp only [Range.apply, range, hcur, Bool.false_eq_true, if_false]
    exact .refl _
  | true =>
    have hcovered := hm.covered hstaged hspec hcur
    have hkept : m.keptRecords spec = recordsIn m.store spec.left := by
      rw [keptRecords, recordsIn, ← map_filter_keyed]
      congr 1
      apply filter_congr
      intro kr _
      cases hleft : spec.left.contains kr.1 with
      | false => simp
      | true => simp [hspec.not_right hleft]
    have hleft : (m.ingest (m.keptRecords spec) m.store.gcMark).store =
        replaceRecords m.store (recordsIn m.store spec.left) m.store.gcMark := by
      rw [ingest, hstaged, hkept]
      rfl
    have happly : m.range.apply (.split spec) =
        ⟨spec.left, replaceRecords m.store (recordsIn m.store spec.left) m.store.gcMark⟩ := by
      rw [hrange, Range.apply, if_pos hcur]
    let left : Machine := { m.ingest (m.keptRecords spec) m.store.gcMark with desc := spec.left.clone }
    have hdesc : left.desc = spec.left := hspec.clone_left
    by_cases hmem : spec.right.id ∈ ranges
    · refine ⟨left, ranges, ?_, hm.mem, rfl, ?_⟩
      · simp only [applySplit, hcur, hcovered, Bool.not_true, Bool.false_eq_true, if_false,
          if_pos hmem]
        rfl
      · rw [happly]
        exact ⟨hdesc, hleft ▸ .refl _⟩
    · have hne : id ≠ spec.right.id := fun heq => hmem (heq ▸ hm.mem)
      let db := (bearRight left.store.db spec (m.movedRecords spec) m.store.gcMark conf).store.db
      have hsplit : (m.applySplit conf ranges spec).map (·.1) =
          some ({ left with store := { left.store with db := db } }, ranges ++ [spec.right.id]) := by
        simp only [applySplit, hcur, hcovered, Bool.not_true, Bool.false_eq_true, if_false,
          if_neg hmem]
        rfl
      have hdb : ∀ k, left.store.owns k → db.get k = left.store.db.get k := by
        intro k hk
        have hpre : rangePrefix id <+: k := by
          rw [← hm.ns]
          exact Store.isPrefix_of_owns hk
        exact get_bearRight hne (fun r hr => movedRecords_isPrefix hr) hpre _ _ _
      have hns : left.store.ns = m.store.ns := rfl
      have hflushed : left.staged = [] := rfl
      have hstore : left.store =
          replaceRecords m.store (recordsIn m.store spec.left) m.store.gcMark := hleft
      clear_value db left
      refine ⟨_, _, hsplit, mem_append_left _ hm.mem, hns, ?_⟩
      rw [happly, ← hstore, ← hdesc]
      refine ⟨rfl, ?_⟩
      simp only [range, hflushed, Store.flush_nil]
      exact Store.agree_with_db hdb

theorem desc_apply_id (hid : r.desc.id = id) (hc : ∀ spec, c = .split spec → spec.Cuts id) :
    (r.apply c).desc.id = id := by
  cases c with
  | split spec =>
    simp only [Range.apply]
    split
    · exact (hc spec rfl).id
    · exact hid
  | txn c => simp only [Range.apply]; split <;> exact hid
  | put key ts x => simp only [Range.apply]; split <;> exact hid
  | collect upTo => exact hid
  | none => exact hid

theorem applyEntry_of_split {conf : Configuration} (hdec : decodeSplitCommand e.data = some spec) :
    m.applyEntry conf ranges e = (m.flush.applySplit conf ranges spec).map (·.1) := by
  obtain ⟨hsplit, htxn⟩ := isSplitCommand_of_decode hdec
  simp [applyEntry, htxn, hsplit, hdec]

/-- An entry that is no split adds no range, and does to its own what the command does. -/
theorem applyEntry_of_not_split (hdec : decodeSplitCommand e.data = none) (m : Machine)
    (conf : Configuration) (ranges : List RangeID) :
    ∃ m', m.applyEntry conf ranges e = some (m', ranges) ∧ m'.store.ns = m.store.ns ∧
      m'.range = m.range.apply (commandOf e.data) := by
  fun_cases commandOf e.data with
  | case1 ht c hd =>
    cases hin : m.desc.contains c.key with
    | false => exact ⟨m, by simp [applyEntry, ht, hd, hin], rfl, by simp [Range.apply, range, hin]⟩
    | true =>
      refine ⟨{ m.flush with staged := (applyTxn m.flush.store [] c).1 }.flush,
        by simp [applyEntry, ht, hd, hin, flush], rfl, ?_⟩
      simp only [Range.apply, range, hin, if_true]
      rw [← flush_applyTxn]
      rfl
  | case2 ht hd => exact ⟨m, by simp [applyEntry, ht, hd], rfl, rfl⟩
  | case3 _ _ _ hd => exact absurd (hdec.symm.trans hd) (by simp)
  | case4 ht hs hd => exact ⟨m.flush, by simp [applyEntry, ht, hs, hd], rfl, rfl⟩
  | case5 ht hs h => exact ⟨m, by rw [applyEntry, if_neg ht, if_neg hs, if_pos h], rfl, rfl⟩
  | case6 ht hs hn ho =>
    simp only [applyEntry, ht, hs, hn, ho, if_false, if_true, Bool.false_eq_true, Range.apply,
      Store.step, flush]
    cases h : (m.store.flush m.staged).advanceGCInto [] (decodeCmd e.data).ts with
    | ok r =>
      refine ⟨_, rfl, ?_, by simp only [range, h, Store.flush_nil]⟩
      obtain ⟨-, -, h⟩ := bind_eq_ok.mp h
      split at h <;> obtain rfl := Except.ok.inj h <;> rfl
    | error err => exact ⟨_, rfl, rfl, by simp only [range, h, Store.flush_nil]⟩
  | case7 ht hs hn hgc ho =>
    cases hin : m.desc.contains (decodeCmd e.data).key with
    | false =>
      exact ⟨m, by simp [applyEntry, ht, hs, hn, hgc, hin], rfl, by simp [Range.apply, range, hin]⟩
    | true =>
      refine ⟨{ m with staged := orKeep m.staged (m.store.putInto m.staged (decodeCmd e.data).key
        (decodeCmd e.data).ts (decodeCmd e.data).value.1) }, ?_, rfl, ?_⟩
      · simp [applyEntry, ht, hs, hn, ho ▸ hgc, ho, hin]
      · simp [Range.apply, range, hin, flush_putInto]
  | case8 ht hs hn hgc hput =>
    simp only [applyEntry, ht, hs, hn, hgc, hput, if_false, Bool.false_eq_true]
    split_ifs <;> exact ⟨_, rfl, rfl, rfl⟩

theorem range_applyEntry (hm : m.Hosted id ranges)
    (hsplit : ∀ spec, decodeSplitCommand e.data = some spec → spec.Cuts id) (conf : Configuration) :
    ∃ m' ranges', m.applyEntry conf ranges e = some (m', ranges') ∧ id ∈ ranges' ∧
      m'.store.ns = m.store.ns ∧ m'.range.Agree (m.range.apply (commandOf e.data)) := by
  cases hdec : decodeSplitCommand e.data with
  | none =>
    obtain ⟨m', h, hns, hrange⟩ := applyEntry_of_not_split hdec m conf ranges
    exact ⟨m', ranges, h, hm.mem, hns, hrange ▸ .refl _⟩
  | some spec =>
    have hflush : m.flush.Hosted id ranges := ⟨hm.ns, hm.desc, hm.mem, hm.contained⟩
    rw [applyEntry_of_split hdec, commandOf_eq_split.mpr hdec]
    exact applySplit_refines hflush rfl (hsplit spec hdec) conf

theorem Hosted.of_agree {m' : Machine} {ranges' : List RangeID} (hm : m.Hosted id ranges)
    (hc : ∀ spec, c = .split spec → spec.Cuts id) (hmem : id ∈ ranges')
    (hns : m'.store.ns = m.store.ns) (h : m'.range.Agree (m.range.apply c)) : m'.Hosted id ranges' where
  ns := hns.trans hm.ns
  desc := (congrArg RangeDescriptor.id h.desc).trans (desc_apply_id hm.desc hc)
  mem := hmem
  contained := hm.contained.apply.of_agree ⟨h.desc.symm, h.store.symm⟩

/-- The commands of a log. -/
def commands (es : List Entry) : List Command := es.map fun e => commandOf e.data

theorem commands_append (es es' : List Entry) :
    commands (es ++ es') = commands es ++ commands es' :=
  map_append

theorem range_applyBatch (hm : m.Hosted id ranges) {es : List Entry}
    (hsplit : ∀ e ∈ es, ∀ spec, decodeSplitCommand e.data = some spec → spec.Cuts id)
    (conf : Entry → Configuration) :
    ∃ m' ranges', m.applyBatch conf ranges es = some (m', ranges') ∧ m'.Hosted id ranges' ∧
      m'.staged = [] ∧ m'.range.Agree ((commands es).foldl Range.apply m.range) := by
  induction es generalizing m ranges with
  | nil => exact ⟨m.flush, ranges, rfl, ⟨hm.ns, hm.desc, hm.mem, hm.contained⟩, rfl, .refl _⟩
  | cons e es ih =>
    obtain ⟨m₁, ranges₁, h₁, hmem, hns, hagree⟩ :=
      range_applyEntry hm (hsplit e (by simp)) (conf e)
    have hm₁ := hm.of_agree (fun spec h => hsplit e (by simp) spec (commandOf_eq_split.mp h)) hmem hns
      hagree
    obtain ⟨m₂, ranges₂, h₂, hm₂, hstaged, hagree₂⟩ :=
      ih hm₁ fun e' he' => hsplit e' (by simp [he'])
    refine ⟨m₂, ranges₂, ?_, hm₂, hstaged, hagree₂.trans (hagree.foldl _)⟩
    simp [applyBatch, h₁, h₂]

/-- Writes that leave a range's records alone. -/
def Foreign (id : RangeID) (b : Batch) : Prop :=
  ∀ (v : Version) (k : Bytes), ({ ns := rangePrefix id } : Store).owns k →
    (applyTo v b).get k = v.get k

theorem agree_flush_foreign (hns : s.ns = rangePrefix id) (hb : Foreign id b) :
    (s.flush b).Agree s :=
  Store.agree_with_db fun k hk => hb s.db k (by rwa [Store.owns_congr hns.symm])

/-- However a log is cut into Readies, and whatever else is written to the engine in between, the
driver does to a range what the log's commands do. -/
theorem range_applyBatches (hm : m.Hosted id ranges) (hstaged : m.staged = [])
    {cuts : List (Batch × List Entry)} (hforeign : ∀ p ∈ cuts, Foreign id p.1)
    (hsplit : ∀ p ∈ cuts, ∀ e ∈ p.2, ∀ spec, decodeSplitCommand e.data = some spec → spec.Cuts id)
    (conf : Entry → Configuration) :
    ∃ m' ranges', m.applyBatches conf ranges cuts = some (m', ranges') ∧ m'.Hosted id ranges' ∧
      m'.staged = [] ∧
      m'.range.Agree ((commands (cuts.flatMap (·.2))).foldl Range.apply m.range) := by
  induction cuts generalizing m ranges with
  | nil => exact ⟨m, ranges, rfl, hm, hstaged, .refl _⟩
  | cons p cuts ih =>
    obtain ⟨other, es⟩ := p
    have hother : ({ m with store := m.store.flush other } : Machine).range.Agree m.range := by
      refine ⟨rfl, ?_⟩
      simp only [range, hstaged, Store.flush_nil]
      exact agree_flush_foreign hm.ns (hforeign (other, es) (by simp))
    have hm₀ : ({ m with store := m.store.flush other } : Machine).Hosted id ranges :=
      ⟨hm.ns, hm.desc, hm.mem, hm.contained.of_agree ⟨hother.desc.symm, hother.store.symm⟩⟩
    obtain ⟨m₁, ranges₁, h₁, hm₁, hstaged₁, hagree₁⟩ :=
      range_applyBatch hm₀ (hsplit (other, es) mem_cons_self) conf
    obtain ⟨m₂, ranges₂, h₂, hm₂, hstaged₂, hagree₂⟩ := ih hm₁ hstaged₁
      (fun p hp => hforeign p (by simp [hp])) fun p hp => hsplit p (by simp [hp])
    refine ⟨m₂, ranges₂, ?_, hm₂, hstaged₂, ?_⟩
    · simp [applyBatches, h₁, h₂]
    · rw [flatMap_cons, commands_append, foldl_append]
      exact hagree₂.trans ((hagree₁.trans (hother.foldl _)).foldl _)

end Machine

end Rift.Driver
