import Rift.Engine.Meaning
import Rift.Engine.Reads

/-!
# The database and the reference engine

The storage engine and `engine/model` are run side by side: every batch that the storage engine accepts
is applied to the reference engine, and where a snapshot is taken the reference version is put aside.
Whatever is flushed and compacted in between, readers find in the one what the other holds.

## Main results

* `tandem_refines` — the two engines answer alike
-/

namespace Rift.Engine

open List

variable {es es' : List Entry} {rs rs' : List MemRange} {k : Slice} {s s' : ℕ}

/-- A read depends on the versions and the tombstones at or below its sequence. -/
theorem Entry.Read.transfer {e : Entry} (hes : ∀ x, x ∈ es ∧ x.seq ≤ s ↔ x ∈ es' ∧ x.seq ≤ s')
    (hrs : ∀ r, r ∈ rs ∧ r.seq ≤ s ↔ r ∈ rs' ∧ r.seq ≤ s') (h : e.Read es rs k s) :
    e.Read es' rs' k s' where
  mem := ((hes e).mp ⟨h.mem, h.seq_le⟩).1
  key := h.key
  seq_le := ((hes e).mp ⟨h.mem, h.seq_le⟩).2
  newest x hx hk hs := h.newest x ((hes x).mpr ⟨hx, hs⟩).1 hk ((hes x).mpr ⟨hx, hs⟩).2
  value := h.value
  clear r hr hc hs := h.clear r ((hrs r).mpr ⟨hr, hs⟩).1 hc ((hrs r).mpr ⟨hr, hs⟩).2

theorem visible_transfer (hdist : Distinct es) (hdist' : Distinct es')
    (hes : ∀ x, x ∈ es ∧ x.seq ≤ s ↔ x ∈ es' ∧ x.seq ≤ s')
    (hrs : ∀ r, r ∈ rs ∧ r.seq ≤ s ↔ r ∈ rs' ∧ r.seq ≤ s') :
    visible es rs k s = visible es' rs' k s' := by
  ext x
  rw [visible_eq_some_iff hdist, visible_eq_some_iff hdist']
  refine exists_congr fun e => and_congr_left fun _ => ⟨.transfer hes hrs, ?_⟩
  exact .transfer (fun x => (hes x).symm) fun r => (hrs r).symm

/-- The write was acknowledged. -/
def WriteStatus.accepted : WriteStatus → Bool
  | .ok _ => true
  | _ => false

namespace DBImpl

/-- The reference engine, and the version it held where each snapshot was taken. -/
structure Reference where
  db : Model.DB := {}
  snap : ℕ → Model.Version := fun _ => .empty

/-- What the reference engine does beside a call. -/
def Reference.follow (m : Reference) (d : DBImpl) : Call → Reference
  | .write b =>
    if (d.write b).any (·.2.accepted) then { m with db := m.db.apply (b.map (·.toModel)) } else m
  | .newSnapshot => { m with snap := Function.update m.snap d.seq m.db.visible.version }
  | _ => m

/-- The tombstones of a sync's compaction respect the files around them and are confined where they have
no end, and sequences have not run out. -/
def tame : Call → DBImpl → Bool
  | .sync, d => separates .sync d && d.syncFlush.all fun d₁ => d₁.Confines && d₁.seq ≤ kMaxSeqNum
  | _, _ => true

/-- A run of both engines; `none` when a call aborts or is not tame. -/
def tandem (p : DBImpl × Reference) (cs : List Call) : Option (DBImpl × Reference) :=
  cs.foldlM (fun p c => if tame c p.1 then (p.1.perform c).map (·, p.2.follow p.1 c) else none) p

/-- What a reader at a sequence sees. -/
def sees (d : DBImpl) (s : ℕ) (k : Slice) : Option Slice := visible d.version.entries d.version.ranges k s

/-- Readers of the database see what the reference engine holds, now and through every snapshot. -/
structure Mirrors (d : DBImpl) (m : Reference) : Prop where
  inv : d.Inv
  now : d.sees d.seq = m.db.visible.version.get
  snap : ∀ s ∈ d.snapshots, d.sees s = (m.snap s).get

variable {d d' : DBImpl} {m : Reference} {b : WriteBatch} {status : WriteStatus} {c : Call}

theorem Inv.range_le (h : d.Inv) {r : MemRange} (hr : r ∈ d.version.ranges) : r.seq ≤ d.seq := by
  rcases (mem_version_ranges h.idle).mp hr with hr | ⟨t, ht, hr⟩
  · exact h.rangeSeq r hr
  · exact (t.range_seq_le_largestSeq hr).trans (h.tableSeq t ht)

/-- Nothing lies above the current sequence. -/
theorem Inv.sees_of_le (h : d.Inv) (hs : d.seq ≤ s) : d.sees s = d.sees d.seq := by
  funext k
  refine visible_transfer h.distinct h.distinct (fun x => ?_) fun r => ?_
  · exact and_congr_right fun hx => iff_of_true ((h.entry_le hx).trans hs) (h.entry_le hx)
  · exact and_congr_right fun hr => iff_of_true ((h.range_le hr).trans hs) (h.range_le hr)

/-- An accepted write inserts its batch at the next sequence; any other leaves the memtable. -/
theorem write_accepted (hw : d.write b = some (d', status)) :
    ∃ f : Front, d' = { d with toFront := f } ∧ if status.accepted then
      f.seq = d.seq + 1 ∧ insertBatch d.mem (d.seq + 1) (collapseBatch b) = some f.mem
      else f.mem = d.mem ∧ d.seq ≤ f.seq := by
  obtain ⟨⟨f, _⟩, hf, hw⟩ := Option.bind_eq_some_iff.mp hw
  cases hw
  refine ⟨f, rfl, ?_⟩
  unfold Front.write at hf
  split_ifs at hf
  · cases hf
    exact ⟨rfl, le_rfl⟩
  dsimp only at hf
  split at hf
  · cases hf
    exact ⟨rfl, Nat.le_succ _⟩
  · obtain ⟨m, hm, hf⟩ := Option.bind_eq_some_iff.mp hf
    cases hf
    exact ⟨rfl, hm⟩

/-- Readers below the sequence of a batch do not see it. -/
theorem Inv.sees_insert (h : d.Inv) {f : Front} (h' : ({ d with toFront := f } : DBImpl).Inv)
    (hm : insertBatch d.mem (d.seq + 1) (collapseBatch b) = some f.mem) (hs : s ≤ d.seq) :
    ({ d with toFront := f } : DBImpl).sees s = d.sees s := by
  obtain ⟨-, hperm, hnew, hranges⟩ := insertBatch_eq_some h.mem.sorted hm
  funext k
  refine visible_transfer h'.distinct h.distinct (fun x => and_congr_left fun hx => ?_)
    fun r => and_congr_left fun hr => ?_
  · rw [mem_version_entries h'.idle, mem_version_entries h.idle, hperm.mem_iff, mem_append]
    refine or_congr_left (or_iff_left fun hmem => ?_)
    have := (hnew x hmem).1
    omega
  · rw [mem_version_ranges h'.idle, mem_version_ranges h.idle, hranges, mem_append]
    refine or_congr_left (or_iff_left fun hmem => ?_)
    obtain ⟨_, -, rfl⟩ := mem_map.mp hmem
    exact absurd hr (Nat.not_le_of_lt (Nat.lt_succ_of_le hs))

theorem Mirrors.write (h : Mirrors d m) (hw : d.write b = some (d', status)) :
    Mirrors d' (m.follow d (.write b)) := by
  have h' := h.inv.write hw
  obtain ⟨f, rfl, hf⟩ := write_accepted hw
  simp only [Reference.follow, hw, Option.any_some]
  split_ifs at hf ⊢
  · obtain ⟨hseq, hm⟩ := hf
    refine ⟨h', ?_, fun s hs => ?_⟩
    · -- At the new sequence the batch acts on what was visible before it.
      have hprior := (h.inv.sees_of_le (Nat.le_succ d.seq)).trans h.now
      funext k
      rw [hseq, Model.DB.visible_apply, ← Collapse.content_of, ← hprior]
      exact visible_eq_content h.inv.mem.sorted
        (fun e he => Nat.lt_succ_of_le (h.inv.entry_le he)) hm k
    · exact (h.inv.sees_insert h' hm (h.inv.snapshots_le s hs)).trans (h.snap s hs)
  · -- A write that was turned down has at most used up a sequence.
    have hsees : ({ d with toFront := f } : DBImpl).sees = d.sees := by
      funext s k
      simp only [sees, version, hf.1]
    refine ⟨h', ?_, fun s hs => ?_⟩
    · rw [hsees, h.inv.sees_of_le hf.2, h.now]
    · rw [hsees, h.snap s hs]

/-- A flush moves versions and tombstones from the memtable to a table. -/
theorem Inv.sees_syncFlush (h : d.Inv) (hf : d.syncFlush = some d') :
    d'.seq = d.seq ∧ d'.snapshots = d.snapshots ∧ d'.sees = d.sees := by
  have hwal : d.walSync.1.seq = d.seq ∧ d.walSync.1.snapshots = d.snapshots ∧
      d.walSync.1.sees = d.sees := by
    unfold DBImpl.walSync
    split_ifs <;> exact ⟨rfl, rfl, rfl⟩
  rw [← hwal.1, ← hwal.2.1, ← hwal.2.2]
  unfold DBImpl.syncFlush at hf
  split_ifs at hf
  · have h := h.walSync
    generalize d.walSync.1 = d at h hf
    have h' := h.flush hf
    rcases flush_eq_some hf with rfl | ⟨t, ht, rfl⟩
    · exact ⟨rfl, rfl, rfl⟩
    · -- The new table holds what the memtable held.
      obtain ⟨hentries, htombs, -⟩ := MemTable.build_eq_some ht
      refine ⟨rfl, rfl, funext₂ fun s k => visible_transfer h'.distinct h.distinct (fun x => ?_)
        fun r => ?_⟩
      · rw [mem_version_entries h'.idle, mem_version_entries h.idle]
        simp [install, roll, hentries, or_and_right, exists_or]
      · rw [mem_version_ranges h'.idle, mem_version_ranges h.idle]
        simp [install, roll, htombs, mem_sortRanges, or_and_right, exists_or]
  · cases hf
    exact ⟨rfl, rfl, rfl⟩

theorem Mirrors.sync (h : Mirrors d m) (hok : tame .sync d) (hc : d.perform .sync = some d') :
    Mirrors d' m := by
  rcases perform_sync hc with rfl | ⟨d₁, hf, hc⟩
  · exact h
  obtain ⟨hsep, hok⟩ := (Bool.and_eq_true _ _).mp hok
  have hsep := separates_sync hsep hf
  simp only [hf, Option.all_some, Bool.and_eq_true, decide_eq_true_eq] at hok
  have h₁ := h.inv.syncFlush hf
  have h₂ := h₁.maybeCompact hsep hc
  obtain ⟨hseq, hsnap, hsees⟩ := h.inv.sees_syncFlush hf
  -- The compaction keeps what readers see at the sequences someone may read at.
  have hkeep : d'.seq = d₁.seq ∧ d'.snapshots = d₁.snapshots ∧
      ∀ s ∈ d₁.observableNow, d'.sees s = d₁.sees s := by
    rcases maybeCompact_eq_some hc with rfl | ⟨p, hp, hc⟩
    · exact ⟨rfl, rfl, fun _ _ => rfl⟩
    · obtain ⟨r, -, heq⟩ := doCompact_eq_some hp hc
      refine ⟨by rw [heq], by rw [heq], fun s hs => funext fun k => ?_⟩
      exact h₁.visible_doCompact hok.2 hp hok.1 (hsep p hp) hc hs k
  obtain ⟨hseq', hsnap', hsees'⟩ := hkeep
  refine ⟨h₂, ?_, fun s hs => ?_⟩
  · rw [hseq', hsees' _ (mem_observableNow.mpr (.inl rfl)), hsees, hseq, h.now]
  · rw [hsnap'] at hs
    rw [hsees' s (mem_observableNow.mpr (.inr hs)), hsees, h.snap s (hsnap ▸ hs)]

/-- Every call keeps the two engines alike. -/
theorem Mirrors.perform (h : Mirrors d m) (hok : tame c d) (hc : d.perform c = some d') :
    Mirrors d' (m.follow d c) := by
  cases c with
  | write b =>
    obtain ⟨⟨d₁, status⟩, hw, rfl⟩ := Option.map_eq_some_iff.mp hc
    exact h.write hw
  | sync => exact h.sync hok hc
  | newSnapshot =>
    have hinv := h.inv.perform (c := .newSnapshot) rfl hc
    cases hc
    refine ⟨hinv, h.now, fun s hs => ?_⟩
    simp only [Reference.follow, Function.update_apply]
    split_ifs with heq
    · exact heq ▸ h.now
    · exact h.snap s ((mem_cons.mp hs).resolve_left heq)
  | releaseSnapshot s =>
    have hinv := h.inv.perform (c := .releaseSnapshot s) rfl hc
    simp only [DBImpl.perform] at hc
    split_ifs at hc
    cases hc
    exact ⟨hinv, h.now, fun s hs => h.snap s (mem_of_mem_erase hs)⟩

theorem Mirrors.tandem {cs : List Call} {p p' : DBImpl × Reference} (h : Mirrors p.1 p.2)
    (hrun : tandem p cs = some p') : Mirrors p'.1 p'.2 := by
  induction cs generalizing p with
  | nil =>
    cases hrun
    exact h
  | cons c cs ih =>
    unfold DBImpl.tandem at hrun ih
    rw [foldlM_cons] at hrun
    obtain ⟨p₁, h₁, hrun⟩ := Option.bind_eq_some_iff.mp hrun
    split_ifs at h₁ with hok
    obtain ⟨d₁, hd₁, rfl⟩ := Option.map_eq_some_iff.mp h₁
    exact ih (h.perform hok hd₁) hrun

/-- **The storage engine refines the reference engine.** At the current sequence and at every live
snapshot, lookups give what the reference engine holds, and an iterator stands after every call where
the reference iterator stands. -/
theorem tandem_refines {caps : Caps} {flushBytes : ℕ} {memoryUsage : MemTable → ℕ} {cs : List Call}
    (h : tandem (fresh caps flushBytes memoryUsage, {}) cs = some (d, m)) (hmax : d.seq ≤ kMaxSeqNum)
    {v : Model.Version}
    (hv : s = d.seq ∧ v = m.db.visible.version ∨ s ∈ d.snapshots ∧ v = m.snap s) :
    (∀ k, d.version.get k s = some (v.get k)) ∧
      ∀ (o : IterOptions) (cs : List IterCall), (∀ k, .seekLT k ∈ cs → ∀ u ∈ o.upper, k ≤ u) →
        (IterImpl.new d.version s o).bind (·.observe cs) =
          some (referenceObserve { v := v, lo := o.lower, hi := o.upper } cs) := by
  have hm : Mirrors d m := .tandem ⟨inv_fresh _ _ _, rfl, by simp [fresh]⟩ h
  have hle : s ≤ d.seq := hv.elim (·.1.le) fun hs => hm.inv.snapshots_le s hs.1
  have hsees : d.sees s = v.get := by
    rcases hv with ⟨rfl, rfl⟩ | ⟨hs, rfl⟩
    · exact hm.now
    · exact hm.snap s hs
  refine ⟨fun k => ?_, fun o cs hcs => ?_⟩
  · exact (Version.get_eq hm.inv.layered (hle.trans hmax)).trans (congrArg some (congrFun hsees k))
  · obtain ⟨it, hnew, hgood, hitv, rfl, rfl, hinvalid⟩ :=
      IterImpl.new_spec hm.inv.layered (accepted_iff.mpr hm.inv.clear).1 s o
    have hcontent : v = it.v.content it.snapshot := OrderedMap.ext_get fun k => by
      rw [Version.get_content, hitv]
      exact (congrFun hsees k).symm
    rw [hnew, Option.bind_some]
    refine Agree.observe ⟨hgood, by simp [Model.Iter.Ok], hcontent, rfl, rfl, ?_⟩ hcs
    simp [IterImpl.position, Model.Iter.position, hinvalid]

/-- Four flushes and their compaction, over a snapshot of the first write. -/
theorem tandem_refines_small : ∃ d m, tandem (small, {})
      [.write [.set [98] [0]], .newSnapshot, .write boundedBatch, .sync, .write boundedBatch, .sync,
        .write boundedBatch, .sync, .write boundedBatch, .sync] = some (d, m) ∧ d.l0 = [] ∧
    d.version.get [98] 1 = some (some [0]) ∧ d.version.get [98] d.seq = some (some [1]) := by
  have heval : (tandem (small, {})
      [.write [.set [98] [0]], .newSnapshot, .write boundedBatch, .sync, .write boundedBatch, .sync,
        .write boundedBatch, .sync, .write boundedBatch, .sync]).any (fun p => p.1.l0 = [] &&
      p.1.seq ≤ kMaxSeqNum && 1 ∈ p.1.snapshots && (p.2.snap 1).get [98] = some [0] &&
      p.2.db.visible.version.get [98] = some [1]) = true := by
    decide +kernel
  obtain ⟨⟨d, m⟩, hrun, heval⟩ := (Option.any_eq_true _ _).mp heval
  simp only [Bool.and_eq_true, decide_eq_true_eq] at heval
  obtain ⟨⟨⟨⟨hl0, hmax⟩, hsnap⟩, hold⟩, hnow⟩ := heval
  refine ⟨d, m, hrun, hl0, ?_, ?_⟩
  · rw [(tandem_refines hrun hmax (.inr ⟨hsnap, rfl⟩)).1, hold]
  · rw [(tandem_refines hrun hmax (.inl ⟨rfl, rfl⟩)).1, hnow]

end DBImpl

end Rift.Engine
