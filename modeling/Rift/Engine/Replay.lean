import Rift.Engine.Meaning

/-!
# Replaying a written batch

The log collapses the operations of a batch again, to the last one for each key, and a range deletion
counts under the key it starts at. A point operation on that key is then missing from the record: a
`Set` that follows a range deletion from its own key is acknowledged, and is gone after recovery.

## Main definitions

* `WriteBatch.keepsSets` - no range deletion of the batch starts at a key the batch leaves set.

## Main results

* `MemTable.get_eq_some_iff` - lookups in a memtable that holds one batch.
* `replay_of_write` - an acknowledged write survives recovery exactly when its batch keeps its sets.
-/

namespace Rift.Engine

open List

variable {S s : ℕ} {b : WriteBatch} {m : MemTable} {k x : Slice}

/-- The key at which a range deletion starts, if it covers anything. -/
def WriteBatch.Call.rangeStart : WriteBatch.Call → Option Slice
  | .deleteRange start fin =>
    if inRange (start.getD []) start fin then some (start.getD []) else none
  | _ => none

/-- No range deletion of the batch starts at a key that the operations of the batch, one after the
other, leave with a value. -/
def WriteBatch.keepsSets (b : WriteBatch) : Bool :=
  b.all fun call => call.rangeStart.all fun k =>
    (Model.applyTo .empty (b.map (·.toModel))).get k = none

/-! ### Lookups in a memtable that holds one batch -/

/-- Where all versions and tombstones have one sequence, a lookup from there on finds the value
version of the key. -/
theorem MemTable.get_eq_some_iff (hsorted : m.entries.Pairwise Entry.Lt)
    (hkeys : (m.entries.map (·.key)).Nodup) (hseq : ∀ e ∈ m.entries, e.seq = S)
    (hranges : ∀ r ∈ m.ranges, r.seq = S) (hs : S ≤ s) :
    m.get k s = some x ↔ ∃ e ∈ m.entries, e.key = k ∧ e.type = .value ∧ e.value = x := by
  -- The versions of the key are not before the place the lookup starts at.
  have hseek : ∀ e ∈ m.entries, e.key = k → e ∈ seek m.entries k (makeTag s .value) := by
    intro e he hk
    have hnot : ¬ e.before k (makeTag s .value) := by
      rw [Entry.before_iff, Entry.tag, hseq e he, makeTag, makeTag]
      rintro (hlt | ⟨-, hlt⟩)
      · exact hlt.ne hk
      · have htype : e.type.toNat ≤ ValueType.value.toNat := by cases e.type <;> decide
        omega
    have hsplit := takeWhile_append_dropWhile (p := (·.before k (makeTag s .value))) (l := m.entries)
    rw [← hsplit, mem_append] at he
    exact he.resolve_left fun hin =>
      hnot (mem_takeWhile_imp (p := fun y : Entry => y.before k (makeTag s .value)) hin)
  have hcover : newestCovering m.ranges k s ≤ S := by
    rw [← not_lt, lt_newestCovering]
    rintro ⟨r, hr, -, hlt, -⟩
    exact hlt.ne (hranges r hr).symm
  unfold MemTable.get
  constructor
  · intro h
    split at h
    · cases h
    · next e he =>
      have hin : e ∈ m.entries := (dropWhile_sublist _).subset (mem_of_head? he)
      split_ifs at h with hk hc ht
      refine ⟨e, hin, not_not.mp hk, ?_, Option.some.inj h⟩
      cases htype : e.type with
      | deletion => exact absurd htype ht
      | value => rfl
  · rintro ⟨e, he, rfl, ht, rfl⟩
    have hhead : (seek m.entries e.key (makeTag s .value)).head? = some e := by
      have hin := hseek e he rfl
      cases hl : seek m.entries e.key (makeTag s .value) with
      | nil => simp [hl] at hin
      | cons y ys =>
        have hy : y ∈ seek m.entries e.key (makeTag s .value) := by simp [hl]
        rw [hl] at hin
        rcases mem_cons.mp hin with rfl | hin
        · rfl
        · -- A version in front of it has a smaller key, and lies before the place.
          have hlt : Entry.Lt y e := by
            have hpair := pairwise_seek hsorted e.key (makeTag s .value)
            rw [hl] at hpair
            exact (pairwise_cons.mp hpair).1 e hin
          have hne : y.key ≠ e.key := by
            intro hk
            have hyin := (dropWhile_sublist _).subset hy
            obtain rfl := inj_on_of_nodup_map hkeys hyin he hk
            exact (hlt.asymm hlt).elim
          have hbefore : y.before e.key (makeTag s .value) :=
            Entry.before_iff.mpr (.inl ((Entry.lt_iff.mp hlt).resolve_right fun h => hne h.1))
          exact absurd hbefore (not_before_of_mem_seek hsorted hy)
    rw [hhead]
    simp [ht, (hseq e he).symm ▸ hcover]

/-! ### What a collapse keeps of a batch -/

theorem Collapse.starts_merge (c : Collapse) (r : MemRange) :
    k ∈ (c.merge r).ranges.map (·.start) ↔
      k ∈ c.ranges.map (·.start) ∨ (r.endUnbounded ∨ r.start < r.fin) ∧ r.start = k := by
  unfold Collapse.merge
  split_ifs with h
  · simp only [Bool.and_eq_true, Bool.not_eq_true', decide_eq_true_eq] at h
    simp [h.1, h.2.not_gt]
  · have hproper : r.endUnbounded ∨ r.start < r.fin := by
      by_cases hu : r.endUnbounded
      · exact .inl hu
      · exact .inr (by simpa [hu] using h)
    rw [mergeRange_starts]
    split_ifs with hin
    · exact ⟨.inl, fun h => h.elim id fun h => h.2 ▸ hin⟩
    · rw [mem_append, mem_singleton, and_iff_right hproper, eq_comm (a := k)]

theorem WriteBatch.Call.mem_rangeStart (start fin : Bound) :
    k ∈ (WriteBatch.Call.deleteRange start fin).rangeStart ↔
      ((WriteBatch.Call.deleteRange start fin).entry.range.endUnbounded ∨
        (WriteBatch.Call.deleteRange start fin).entry.range.start <
          (WriteBatch.Call.deleteRange start fin).entry.range.fin) ∧
      (WriteBatch.Call.deleteRange start fin).entry.range.start = k := by
  cases start <;> cases fin <;>
    simp [rangeStart, inRange, WriteBatch.Entry.range, WriteBatch.Entry.start, entry]

theorem Collapse.starts_step (c : Collapse) (call : WriteBatch.Call) :
    k ∈ (c.step call.entry).ranges.map (·.start) ↔
      k ∈ c.ranges.map (·.start) ∨ k ∈ call.rangeStart := by
  cases call with
  | set key value => simp [WriteBatch.Call.entry, step, WriteBatch.Call.rangeStart]
  | delete key => simp [WriteBatch.Call.entry, step, WriteBatch.Call.rangeStart]
  | deleteRange start fin =>
    rw [WriteBatch.Call.mem_rangeStart]
    exact (c.clear _ _).starts_merge _

/-- The ranges of the collapse start where the range deletions of the batch do. -/
theorem Collapse.starts_of (b : WriteBatch) :
    k ∈ (Collapse.of b).ranges.map (·.start) ↔ ∃ call ∈ b, k ∈ call.rangeStart := by
  unfold Collapse.of
  suffices h : ∀ c : Collapse, k ∈ ((b.map (·.entry)).foldl Collapse.step c).ranges.map (·.start) ↔
      k ∈ c.ranges.map (·.start) ∨ ∃ call ∈ b, k ∈ call.rangeStart by simpa using h {}
  induction b with
  | nil => simp
  | cons call b ih =>
    intro c
    rw [map_cons, foldl_cons, ih, starts_step, or_assoc]
    simp

/-- The pending sets of the collapse are the values the batch leaves. -/
theorem mem_pending_set_iff (b : WriteBatch) : (k, .set, x) ∈ (Collapse.of b).pending ↔
    (Model.applyTo .empty (b.map (·.toModel))).get k = some x := by
  rw [Pending.mem_iff_find (Collapse.inv_of b).keys, ← Collapse.content_of, Collapse.content]
  cases (Collapse.of b).pending.find k with
  | none => simp
  | some p =>
    obtain ⟨kind, value⟩ := p
    cases kind <;> simp

theorem keepsSets_iff : b.keepsSets ↔
    ∀ k x, (k, .set, x) ∈ (Collapse.of b).pending → k ∉ (Collapse.of b).ranges.map (·.start) := by
  simp only [WriteBatch.keepsSets, all_eq_true, Option.all_eq_true, decide_eq_true_eq,
    mem_pending_set_iff, Collapse.starts_of]
  constructor
  · rintro h k x hx ⟨call, hcall, hk⟩
    rw [h call hcall k hk] at hx
    cases hx
  · intro h call hcall k hk
    by_contra hne
    obtain ⟨x, hx⟩ := Option.ne_none_iff_exists'.mp hne
    exact h k x hx ⟨call, hcall, hk⟩

/-! ### Recovery of a write -/

/-- The record of a batch holds its ranges, and the point operations at whose key none of them
starts. -/
theorem lastOps_collapse (b : WriteBatch) : (lastOps (collapseBatch b).ops).Perm
    (((Collapse.of b).pending.filter fun p => p.1 ∉ (Collapse.of b).ranges.map (·.start)).map
      Pending.op ++ (Collapse.of b).ranges.map MemRange.op) := by
  have hinv := Collapse.inv_of b
  have hpending : (((Collapse.of b).pending.map Pending.op).map (·.key)).Nodup := by
    rw [map_map]
    exact pairwise_map.mpr (hinv.keys.imp fun h => h.ne)
  have hranges : ((Collapse.of b).ranges.map MemRange.op).map (·.key) =
      (Collapse.of b).ranges.map (·.start) := by
    rw [map_map]
    rfl
  have h := lastOps_append hpending (hranges ▸ hinv.starts)
  rw [hranges, filter_map] at h
  exact h

theorem filterMap_point?_pending {ps : Pending} (h : ∀ p ∈ ps, p.2.1 ≠ .deleteRange) :
    (ps.map Pending.op).filterMap (Op.point? S) = ps.map fun p => Pending.version S p.1 p.2 := by
  rw [filterMap_map, ← filterMap_eq_map]
  exact filterMap_congr fun p hp => point?_pendingOp (h p hp) S

theorem filterMap_point?_ranges (rs : List MemRange) :
    (rs.map MemRange.op).filterMap (Op.point? S) = [] := by
  rw [filterMap_map]
  exact filterMap_eq_nil_iff.mpr fun _ _ => rfl

/-- Lookups in a memtable into which a set of pending operations went at one sequence. -/
theorem get_of_pending {ps : Pending} (hps : ps.Pairwise (·.1 < ·.1))
    (hsorted : m.entries.Pairwise Entry.Lt)
    (hperm : m.entries.Perm (ps.map fun p => Pending.version S p.1 p.2))
    (hranges : ∀ r ∈ m.ranges, r.seq = S) (hs : S ≤ s) :
    m.get k s = some x ↔ (k, .set, x) ∈ ps := by
  have hkeys : (m.entries.map (·.key)).Nodup := by
    rw [(hperm.map _).nodup_iff, map_map]
    have hfun : ((·.key) ∘ fun p : Slice × OpKind × Slice => Pending.version S p.1 p.2) = (·.1) :=
      funext fun p => (Pending.version_key S p.1 p.2).1
    rw [hfun]
    exact pairwise_map.mpr (hps.imp fun h => h.ne)
  have hseq : ∀ e ∈ m.entries, e.seq = S := by
    intro e he
    obtain ⟨p, -, rfl⟩ := mem_map.mp (hperm.mem_iff.mp he)
    exact (Pending.version_key S p.1 p.2).2
  rw [MemTable.get_eq_some_iff hsorted hkeys hseq hranges hs]
  constructor
  · rintro ⟨e, he, rfl, ht, rfl⟩
    obtain ⟨⟨k, kind, value⟩, hp, rfl⟩ := mem_map.mp (hperm.mem_iff.mp he)
    unfold Pending.version at ht ⊢
    by_cases hkind : kind = .set
    · simpa [hkind] using hp
    · simp [hkind] at ht
  · intro hp
    exact ⟨_, hperm.mem_iff.mpr (mem_map.mpr ⟨_, hp, rfl⟩), rfl, rfl, rfl⟩

/-- The insertions of a write into an empty memtable. -/
theorem insertBatch_empty (b : WriteBatch)
    (hmax : ∀ e ∈ (collapseBatch b).ops.filterMap (Op.point? S), e.seq ≤ kMaxSeqNum) :
    ∃ m, insertBatch {} S (collapseBatch b) = some m ∧ m.entries.Pairwise Entry.Lt ∧
      m.entries.Perm ((Collapse.of b).pending.map fun p => Pending.version S p.1 p.2) ∧
      m.ranges = (collapseBatch b).ranges.map fun r =>
        { r with seq := S, fin := if r.endUnbounded then [] else r.fin } := by
  have hpoints : ∀ op ∈ (Collapse.of b).pending.map Pending.op, op.kind ≠ .deleteRange := by
    intro op hop
    obtain ⟨p, hp, rfl⟩ := mem_map.mp hop
    exact pendingOp_kind b hp
  have hranges : ∀ op ∈ (Collapse.of b).ranges.map MemRange.op, op.kind = .deleteRange := by
    intro op hop
    obtain ⟨r, -, rfl⟩ := mem_map.mp hop
    rfl
  obtain ⟨m, hm, -⟩ := replay_eq S ((Collapse.of b).pending.map Pending.op) (m := {})
    (fun e he => hmax e (collapse_entries b S ▸ he)) .nil
    (collapse_entries b S ▸ collapse_entries_nodup b S)
  -- The write inserts the point operations in key order, and then the ranges.
  have hops : (collapseBatch b).ops.foldlM (insertOp S) {} = some m := by
    change ((Collapse.of b).pending.map Pending.op ++
      (Collapse.of b).ranges.map MemRange.op).foldlM (insertOp S) {} = some m
    rw [foldlM_append, foldlM_insertOp_point hpoints, hm]
    exact foldlM_insertOp_range hranges m
  have hbatch : insertBatch {} S (collapseBatch b) =
      some ((collapseBatch b).ranges.foldl (insertRange S) m) := by
    unfold insertBatch
    rw [hops]
    rfl
  obtain ⟨hs, hp, -, hr⟩ := insertBatch_eq_some .nil hbatch
  rw [collapse_entries_eq] at hp
  exact ⟨_, hbatch, hs, hp, hr⟩

/-- An acknowledged write survives recovery, in that replaying its record into an empty memtable gives
the lookups and the tombstones that the write's own insertions give, exactly when no range deletion of
the batch starts at a key that the batch leaves set. -/
theorem replay_of_write {d d' : Front} (hcap : d.wal.caps.maxRecordBytes < 2 ^ 32)
    (hseq : S < 2 ^ 64) (h : d.write b = some (d', .ok S)) :
    (∃ m m', insertBatch {} S (collapseBatch b) = some m ∧ d'.replayNewest = some m' ∧
      (∀ k s, S ≤ s → m'.get k s = m.get k s) ∧ m'.ranges.Perm m.ranges) ↔ b.keepsSets := by
  obtain ⟨hbytes, hlast, m₁, m₂, hins⟩ := Front.write_ok h
  have hinv := Collapse.inv_of b
  have hmax : ∀ e ∈ (collapseBatch b).ops.filterMap (Op.point? S), e.seq ≤ kMaxSeqNum := by
    intro e he
    obtain ⟨op, hop, he⟩ := mem_filterMap.mp he
    obtain ⟨-, hs, hk⟩ := Op.point?_key he
    exact hs ▸ le_kMaxSeqNum_of_insertOps hins hop hk
  obtain ⟨hlen, hfits⟩ := collapse_ops_fit b (hbytes.trans_lt hcap)
  have hperm := lastOps_collapse b
  have hsub : ∀ op ∈ lastOps (collapseBatch b).ops, op ∈ (collapseBatch b).ops := by
    intro op hop
    rcases mem_append.mp (hperm.mem_iff.mp hop) with hin | hin
    · obtain ⟨p, hp, rfl⟩ := mem_map.mp hin
      exact mem_append_left _ (mem_map_of_mem (mem_of_mem_filter hp))
    · exact mem_append_right _ hin
  have hle : (lastOps (collapseBatch b).ops).length ≤ (collapseBatch b).ops.length := by
    rw [hperm.length_eq, collapseBatch, length_append, length_append, length_map, length_map,
      length_map]
    exact Nat.add_le_add_right (length_filter_le _ _) _
  -- The record reads back as what the second collapse left.
  have hdec : decodeBatch (encodeBatch S (lastOps (collapseBatch b).ops)) =
      some { seq := S, ops := lastOps (collapseBatch b).ops } :=
    decodeBatch_encodeBatch hseq (hle.trans_lt hlen) fun op hop => hfits op (hsub op hop)
  have hents : ((lastOps (collapseBatch b).ops).filterMap (Op.point? S)).Perm
      (((Collapse.of b).pending.filter fun p => p.1 ∉ (Collapse.of b).ranges.map (·.start)).map
        fun p => Pending.version S p.1 p.2) := by
    refine (hperm.filterMap _).trans ?_
    rw [filterMap_append, filterMap_point?_ranges, append_nil,
      filterMap_point?_pending fun p hp => hinv.kinds p (mem_of_mem_filter hp)]
  have hstamps : ((lastOps (collapseBatch b).ops).filterMap (Op.range? S)).Perm
      ((collapseBatch b).ranges.map fun r =>
        { r with seq := S, fin := if r.endUnbounded then [] else r.fin }) := by
    refine (hperm.filterMap _).trans ?_
    have hnone : (((Collapse.of b).pending.filter fun p =>
        p.1 ∉ (Collapse.of b).ranges.map (·.start)).map Pending.op).filterMap (Op.range? S) = [] := by
      rw [filterMap_map]
      exact filterMap_eq_nil_iff.mpr fun p hp => if_neg (hinv.kinds p (mem_of_mem_filter hp))
    rw [filterMap_append, hnone, nil_append, filterMap_map, ← filterMap_eq_map]
    exact .of_eq (filterMap_congr fun r hr => rangeOp_range? b hr)
  have hkept : (((lastOps (collapseBatch b).ops).filterMap (Op.point? S)).map (·.key)).Nodup := by
    rw [(hents.map _).nodup_iff]
    refine (collapse_entries_nodup b S).sublist ?_
    rw [collapse_entries_eq]
    exact (filter_sublist.map _).map _
  obtain ⟨m', hm', hs', hp', hr'⟩ := replay_eq S (lastOps (collapseBatch b).ops) (m := {})
    (fun e he => by
      obtain ⟨op, hop, he⟩ := mem_filterMap.mp he
      exact hmax e (mem_filterMap.mpr ⟨op, hsub op hop, he⟩)) .nil hkept
  have hreplay : d'.replayNewest = some m' := by
    unfold Front.replayNewest
    rw [hlast]
    simp only [Option.bind_eq_bind, Option.bind_some, hdec]
    exact hm'
  obtain ⟨m, hm, hs, hp, hr⟩ := insertBatch_empty b hmax
  have hget : ∀ {k x s}, S ≤ s → (m.get k s = some x ↔ (k, .set, x) ∈ (Collapse.of b).pending) :=
    fun hle => get_of_pending hinv.keys hs hp (fun r hr' => by
      rw [hr] at hr'
      obtain ⟨r, -, rfl⟩ := mem_map.mp hr'
      rfl) hle
  have hget' : ∀ {k x s}, S ≤ s → (m'.get k s = some x ↔ (k, .set, x) ∈ (Collapse.of b).pending ∧
      k ∉ (Collapse.of b).ranges.map (·.start)) := by
    intro k x s hle
    rw [get_of_pending (hinv.keys.sublist filter_sublist) hs' (hp'.trans hents) (fun r hr => by
      rw [hr', nil_append, hstamps.mem_iff] at hr
      obtain ⟨r, -, rfl⟩ := mem_map.mp hr
      rfl) hle]
    simp [mem_filter]
  rw [keepsSets_iff]
  constructor
  · rintro ⟨n, n', hn, hn', heq, -⟩ k x hpending
    cases hm.symm.trans hn
    cases hreplay.symm.trans hn'
    exact (hget' le_rfl |>.mp ((heq k S le_rfl).trans ((hget le_rfl).mpr hpending))).2
  · intro hkeeps
    refine ⟨m, m', hm, hreplay, fun k s hle => ?_, ?_⟩
    · refine Option.ext fun x => (hget' hle).trans (Iff.trans ?_ (hget hle).symm)
      exact and_iff_left_of_imp fun hpending => hkeeps k x hpending
    · rw [hr', hr, nil_append]
      exact hstamps

/-- A set, a bounded range deletion, a deletion and an unbounded range deletion. -/
def mixedBatch : WriteBatch :=
  [.set [1] [7], .deleteRange (some [2]) (some [4]), .delete [3], .deleteRange (some [5]) none]

theorem replay_of_mixedBatch : ∃ d', Front.write {} mixedBatch = some (d', .ok 1) ∧
    ∃ m m', insertBatch {} 1 (collapseBatch mixedBatch) = some m ∧ d'.replayNewest = some m' ∧
      (∀ k s, 1 ≤ s → m'.get k s = m.get k s) ∧ m'.ranges.Perm m.ranges := by
  have hw : (Front.write {} mixedBatch).any (·.2 = .ok 1) = true := by decide +kernel
  obtain ⟨⟨d', st⟩, h, hst⟩ := Option.any_eq_true _ _ |>.mp hw
  obtain rfl : st = .ok 1 := of_decide_eq_true hst
  exact ⟨d', h, (replay_of_write (by decide) (by decide) h).mpr (by decide +kernel)⟩

/-- A set after a range deletion that starts at its key. -/
def setAfterRange : WriteBatch := [.deleteRange (some [1]) (some [3]), .set [1] [7]]

/-- The write holds the key, and the replay of its record does not. -/
theorem replay_loses_setAfterRange : ∃ d' m m',
    Front.write {} setAfterRange = some (d', .ok 1) ∧
      insertBatch {} 1 (collapseBatch setAfterRange) = some m ∧ d'.replayNewest = some m' ∧
      MemTable.get m [1] 1 = some [7] ∧ MemTable.get m' [1] 1 = none := by
  refine ⟨_, _, _, rfl, rfl, rfl, ?_, ?_⟩ <;> decide +kernel

end Rift.Engine
