import Rift.Engine.DB

/-!
# Workloads

Runs of the database: writes, syncs with the flushes and the compactions they make, and snapshots. Two
questions are asked of every state a run reaches.

*Does building a table abort?* A flush of a memtable that holds range deletions and no version does,
because the builder refuses a table without a version. Otherwise a run without snapshots never aborts:
nothing observable lies below a tombstone, so no tombstone survives a compaction, and there is nothing
to clip.

*Is level 1 a run that every reader accepts?* Not always. A range deletion without an end is not part
of the bounds of its table, so a compaction does not see the tables of level 1 above it. With a snapshot
that keeps the deletion alive it is written to a table that is not the last one, and the installation
aborts. A deletion that spans two output files makes them touch, and the cursor over level 1 refuses
them if the version the second begins with is newer. `DBImpl.Separates` says on the inputs, the cap and
the tables that stay when none of this happens.
-/

namespace Rift.Engine

open Option List

namespace DBImpl

/-! ### Runs -/

/-- The calls that change a database. -/
inductive Call
  | write (b : WriteBatch)
  | sync
  | newSnapshot
  | releaseSnapshot (s : ℕ)

/-- Make a call; `none` when it aborts. A snapshot is released once. -/
def perform (d : DBImpl) : Call → Option DBImpl
  | .write b => (d.write b).map Prod.fst
  | .sync => d.sync.map Prod.fst
  | .newSnapshot => some d.newSnapshot
  | .releaseSnapshot s => if s ∈ d.snapshots then some (d.releaseSnapshot s) else none

/-- The states that runs reach whose calls all meet a condition. -/
inductive Reach (ok : Call → DBImpl → Prop) (d₀ : DBImpl) : DBImpl → Prop
  | refl : Reach ok d₀ d₀
  | call {d d' : DBImpl} {c : Call} (h : Reach ok d₀ d) (hok : ok c d) (hc : d.perform c = some d') :
      Reach ok d₀ d'

variable {ok : Call → DBImpl → Prop} {d₀ d d' : DBImpl} {caps : Caps} {c : Call} {flushBytes : ℕ}
  {memoryUsage : MemTable → ℕ}

theorem Reach.induct {P : DBImpl → Prop} (h : Reach ok d₀ d) (h₀ : P d₀)
    (hstep : ∀ c d d', P d → ok c d → d.perform c = some d' → P d') : P d := by
  induction h with
  | refl => exact h₀
  | call _ hok hc ih => exact hstep _ _ _ ih hok hc

/-- A list of calls, each checked before it is made. -/
def performAll (check : Call → DBImpl → Bool) (d : DBImpl) (cs : List Call) : Option DBImpl :=
  cs.foldlM (fun d c => if check c d then d.perform c else none) d

theorem reach_of_performAll {check : Call → DBImpl → Bool} (hcheck : ∀ c d, check c d → ok c d)
    {cs : List Call} (hd : Reach ok d₀ d) (h : d.performAll check cs = some d') :
    Reach ok d₀ d' := by
  induction cs generalizing d with
  | nil =>
    cases h
    exact hd
  | cons c cs ih =>
    unfold performAll at h ih
    rw [foldlM_cons] at h
    obtain ⟨d₁, h₁, h⟩ := bind_eq_some_iff.mp h
    split_ifs at h₁ with hc
    exact ih (hd.call (hcheck c d hc) h₁) h

theorem perform_sync (h : d.perform .sync = some d') :
    d' = d ∨ ∃ d₁, d.syncFlush = some d₁ ∧ d₁.maybeCompact = some d' := by
  obtain ⟨⟨d₂, w⟩, hs, rfl⟩ := map_eq_some_iff.mp h
  unfold sync at hs
  by_cases hcl : d.wal.closed
  · rw [if_pos hcl] at hs
    exact .inl (congrArg Prod.fst (Option.some.inj hs)).symm
  · rw [if_neg hcl] at hs
    obtain ⟨d₁, h₁, hs⟩ := bind_eq_some_iff.mp hs
    obtain ⟨d₃, h₃, hs⟩ := bind_eq_some_iff.mp hs
    obtain rfl : d₃ = d₂ := congrArg Prod.fst (Option.some.inj hs)
    exact .inr ⟨d₁, h₁, h₃⟩

/-! ### Building tables -/

/-- A flush finds a version in the memtable, and sequences have not run out. -/
def FlushesVersion (d : DBImpl) : Prop :=
  d.walSync.1.flushNeeded → d.mem.entries ≠ [] ∧ d.seq ≤ kMaxSeqNum

instance (d : DBImpl) : Decidable d.FlushesVersion :=
  inferInstanceAs (Decidable (d.walSync.1.flushNeeded → d.mem.entries ≠ [] ∧ d.seq ≤ kMaxSeqNum))

/-- Writes, and syncs that find a version wherever they flush. -/
def FlushesVersions : Call → DBImpl → Prop
  | .write _, _ => True
  | .sync, d => d.FlushesVersion
  | _, _ => False

/-- No snapshot is live, and level 1 has no tombstones. -/
def Plain (d : DBImpl) : Prop := d.snapshots = [] ∧ ∀ t ∈ d.l1, t.tombstones = []

/-- Without snapshots no tombstone survives: nothing lies below the outputs, and nobody reads below the
current sequence. -/
theorem Inv.survivors_eq_nil (h : d.Inv) {p : Picked} (hp : d.pick = some p) (hd : d.Plain) :
    (d.compaction p).survivors = [] := by
  obtain ⟨t₀, ts, hl0, h₀, h₁, hkeep⟩ := pick_eq_some hp
  have hrun : d.l1.Pairwise Table.endsBelow :=
    h.clear.imp_of_mem fun ht _ hc => hc.1.endsBelow (hd.2 _ ht)
  have hbottom : p.bottomMost = true := by
    unfold Picked.bottomMost
    rw [Picked.inputs, h₀, hl0, cons_append, h₁]
    refine all_eq_true.mpr fun u hu => ?_
    obtain ⟨hu, hmiss⟩ := mem_filter.mp (hkeep ▸ hu)
    simp [keep_clear hrun hu (Bool.not_eq_true' _ |>.mp hmiss)]
  have hobs : d.observableNow = [d.seq] := by simp [observableNow, hd.1]
  refine filter_eq_nil_iff.mpr fun x hx => ?_
  obtain ⟨u, hu, hxu⟩ := mem_flatMap.mp hx
  have hle := (u.range_seq_le_largestSeq hxu).trans (h.tableSeq u (mem_inputs hp hu))
  simp [compaction, hbottom, hobs, anyObservableBelow, hle]

theorem Inv.separates_of_plain (h : d.Inv) {p : Picked} (hp : d.pick = some p) (hd : d.Plain) :
    d.Separates p := by
  have hnone : d.tombstones p = [] := by
    rw [tombstones, h.survivors_eq_nil hp hd]
    rfl
  refine ⟨by simp [hnone, Yields], fun u hu => ?_⟩
  split_ifs
  · simp [hnone, Yields]
  · intro _
    rw [← Bool.not_eq_true, Table.unboundedEnd_iff]
    simp [hd.2 u (h.mem_l1 hp hu)]

theorem Inv.exists_maybeCompact (h : d.Inv) (hd : d.Plain) :
    ∃ d', d.maybeCompact = some d' ∧ d'.Inv ∧ d'.Plain := by
  unfold maybeCompact
  cases hp : d.pick with
  | none => exact ⟨d, rfl, h, hd⟩
  | some p =>
    have hnone := h.survivors_eq_nil hp hd
    obtain ⟨m, hm, hover⟩ := h.exists_merge hp
    obtain ⟨newest, hnewest, hle⟩ := @exists_newest d
    have hpin : ¬ newest < (d.compaction p).pinSeq := by
      refine not_lt.mpr (le_trans (Table.foldl_max_le (Nat.zero_le _) fun q hq => ?_) hle)
      obtain ⟨t, ht, rfl⟩ := mem_map.mp hq
      exact h.tableSeq t (mem_inputs hp ht)
    obtain ⟨r, hrun⟩ := @Compaction.exists_run (d.compaction p) _ m
      { maxBytes := d.flushBytes, nextFileNumber := d.nextFileNumber } (h.apart hp) hover
      (contents_legal p) rfl rfl pairwise_observableNow hnone
    have hr : d.outputs p = some r := by
      unfold outputs
      rw [hm, hnewest]
      exact (if_neg hpin).trans (p.length_contents ▸ hrun)
    have ho := (h.outputs_spec hp hr).2
    have hsep := h.separates_of_plain hp hd
    have hplain : ∀ t ∈ p.nextL1 r, t.tombstones = [] := fun t ht => by
      rcases mem_append.mp (mem_sortTables.mp ht) with ht | ht
      · exact hd.2 t (h.mem_l1 hp ht)
      · obtain ⟨_, hpiece⟩ := ho.links.piece ht
        rw [hpiece.clipped, tombstones, hnone]
        rfl
    obtain ⟨d', hd', hd''⟩ : ∃ d', d.doCompact p = some d' ∧ d'.Plain := by
      unfold DBImpl.doCompact
      rw [hr]
      exact ⟨_, if_pos ((ho.accepted_iff h hp).mpr hsep).2.2, hd.1, hplain⟩
    exact ⟨d', hd', h.doCompact hp hsep hd', hd''⟩

@[simp] theorem walSync_mem : d.walSync.1.mem = d.mem := by
  unfold walSync
  split_ifs <;> rfl

@[simp] theorem walSync_seq : d.walSync.1.seq = d.seq := by
  unfold walSync
  split_ifs <;> rfl

theorem Plain.walSync (h : d.Plain) : d.walSync.1.Plain := by
  unfold DBImpl.walSync
  split_ifs <;> exact h

theorem Inv.exists_syncFlush (h : d.Inv) (hd : d.Plain) (hok : d.FlushesVersion) :
    ∃ d', d.syncFlush = some d' ∧ d'.Inv ∧ d'.Plain := by
  obtain ⟨d', hd', hplain⟩ : ∃ d', d.syncFlush = some d' ∧ d'.Plain := by
    unfold DBImpl.syncFlush
    split_ifs with hneed
    · obtain ⟨hne, hseq⟩ := hok hneed
      unfold DBImpl.flush
      split_ifs
      · exact ⟨_, rfl, hd.walSync⟩
      · have hranges : ∀ r ∈ d.walSync.1.mem.ranges, r.seq ≤ kMaxSeqNum := fun r hr =>
          (h.walSync.rangeSeq r hr).trans (by simpa using hseq)
        obtain ⟨t, ht⟩ := h.walSync.mem.build (by simpa using hne) hranges
          d.walSync.1.nextFileNumber
        rw [ht]
        exact ⟨_, rfl, hd.walSync⟩
    · exact ⟨_, rfl, hd.walSync⟩
  exact ⟨d', hd', h.syncFlush hd', hplain⟩

theorem Inv.exists_sync (h : d.Inv) (hd : d.Plain) (hok : d.FlushesVersion) :
    ∃ d' w, d.sync = some (d', w) ∧ d'.Inv ∧ d'.Plain := by
  unfold sync
  by_cases hcl : d.wal.closed
  · exact ⟨d, none, if_pos hcl, h, hd⟩
  · rw [if_neg hcl]
    obtain ⟨d₁, h₁, hi₁, hd₁⟩ := h.exists_syncFlush hd hok
    obtain ⟨d₂, h₂, hi₂, hd₂⟩ := hi₁.exists_maybeCompact hd₁
    rw [h₁, bind_eq_bind, bind_some, h₂]
    exact ⟨d₂, _, rfl, hi₂, hd₂⟩

/-- No sync aborts in a run of writes and syncs, whatever the batches hold, as long as every memtable that
is flushed holds a version. -/
theorem Reach.sync_isSome (h : Reach FlushesVersions (fresh caps flushBytes memoryUsage) d)
    (hok : d.FlushesVersion) : d.sync.isSome := by
  have hinv : d.Inv ∧ d.Plain := by
    refine h.induct (P := fun d => d.Inv ∧ d.Plain) ⟨inv_fresh _ _ _, rfl, by simp [fresh]⟩ ?_
    rintro c d d' ⟨hi, hs⟩ hc hd'
    cases c with
    | write b =>
      obtain ⟨⟨d₁, status⟩, h₁, rfl⟩ := map_eq_some_iff.mp hd'
      obtain ⟨f, rfl, -⟩ := write_eq_some h₁
      exact ⟨hi.write h₁, hs⟩
    | sync =>
      obtain ⟨d₁, w, h₁, hi₁, hs₁⟩ := hi.exists_sync hs hc
      obtain rfl : d₁ = d' := by simpa [perform, h₁] using hd'
      exact ⟨hi₁, hs₁⟩
    | newSnapshot => exact hc.elim
    | releaseSnapshot s => exact hc.elim
  obtain ⟨d', w, hd', -⟩ := hinv.1.exists_sync hinv.2 hok
  exact isSome_iff_exists.mpr ⟨_, hd'⟩

/-- A database that flushes whatever it holds. -/
def small : DBImpl := fresh {} 1 fun m => m.entries.length + m.ranges.length

/-- A range deletion without an end, and a version above its start. -/
def mixedBatch : WriteBatch := [.deleteRange (some [97]) none, .set [98] [1]]

/-- The condition of `Reach.sync_isSome`, to be evaluated. -/
def flushesVersions : Call → DBImpl → Bool
  | .write _, _ => true
  | .sync, d => d.FlushesVersion
  | _, _ => false

theorem flushesVersions_iff : flushesVersions c d ↔ FlushesVersions c d := by
  cases c <;> simp [flushesVersions, FlushesVersions]

/-- Three flushes, and a fourth that compacts. -/
theorem small_mixed_sync :
    ∃ d, small.performAll flushesVersions
        [.write mixedBatch, .sync, .write mixedBatch, .sync, .write mixedBatch, .sync,
          .write mixedBatch] = some d ∧ d.FlushesVersion ∧ d.sync.isSome := by
  have heval : (small.performAll flushesVersions
      [.write mixedBatch, .sync, .write mixedBatch, .sync, .write mixedBatch, .sync,
        .write mixedBatch]).any (fun d => decide d.FlushesVersion) = true := by
    decide +kernel
  obtain ⟨d, hd, hok⟩ := (any_eq_true _ _).mp heval
  have hreach : Reach FlushesVersions small d :=
    reach_of_performAll (fun c d => flushesVersions_iff.mp) .refl hd
  exact ⟨d, hd, of_decide_eq_true hok, @Reach.sync_isSome d {} 1 _ hreach (of_decide_eq_true hok)⟩

/-- A memtable with a range deletion and nothing else: the sync that flushes it aborts. -/
theorem small_range_sync :
    ∃ d, small.perform (.write [.deleteRange (some [97]) (some [98])]) = some d ∧ d.sync = none := by
  have heval : (small.perform (.write [.deleteRange (some [97]) (some [98])])).any
      (fun d => d.sync.isNone) = true := by
    decide +kernel
  obtain ⟨d, hd, hnone⟩ := (any_eq_true _ _).mp heval
  exact ⟨d, hd, isNone_iff_eq_none.mp hnone⟩

/-! ### Level 1 -/

/-- The compaction of a sync, if it makes one, keeps its tombstones apart from the files around them. -/
def separates : Call → DBImpl → Bool
  | .sync, d => d.syncFlush.all fun d₁ => d₁.pick.all fun p => d₁.Separates p
  | _, _ => true

theorem separates_sync {d₁ : DBImpl} (h : separates .sync d) (hf : d.syncFlush = some d₁) :
    ∀ p, d₁.pick = some p → d₁.Separates p := fun p hp => by
  simpa [separates, hf, hp] using h

theorem Inv.maybeCompact (h : d.Inv) (hsep : ∀ p, d.pick = some p → d.Separates p)
    (hc : d.maybeCompact = some d') : d'.Inv := by
  rcases maybeCompact_eq_some hc with rfl | ⟨p, hp, hc⟩
  · exact h
  · exact h.doCompact hp (hsep p hp) hc

theorem Inv.perform (h : d.Inv) (hok : separates c d) (hc : d.perform c = some d') : d'.Inv := by
  cases c with
  | write b =>
    obtain ⟨⟨d₁, status⟩, h₁, rfl⟩ := map_eq_some_iff.mp hc
    exact h.write h₁
  | sync =>
    rcases perform_sync hc with rfl | ⟨d₁, h₁, h₂⟩
    · exact h
    · exact (h.syncFlush h₁).maybeCompact (separates_sync hok h₁) h₂
  | newSnapshot =>
    cases hc
    exact { h with snapshots_le := forall_mem_cons.mpr ⟨le_rfl, h.snapshots_le⟩ }
  | releaseSnapshot s =>
    simp only [DBImpl.perform] at hc
    split_ifs at hc
    cases hc
    exact { h with snapshots_le := fun q hq => h.snapshots_le q (mem_of_mem_erase hq) }

theorem Reach.inv (h : Reach (separates · ·) (fresh caps flushBytes memoryUsage) d) : d.Inv :=
  h.induct (inv_fresh _ _ _) fun _ _ _ hi hok hc => hi.perform hok hc

/-- What a compaction is about to install passes the check of the cursor over level 1, the check of the
next open and the check of the installation exactly where the tombstones respect the files around them,
in every run whose earlier compactions did. -/
theorem Reach.level_one {d₁ : DBImpl} {p : Picked} {r : TableRoller}
    (h : Reach (separates · ·) (fresh caps flushBytes memoryUsage) d) (hf : d.syncFlush = some d₁)
    (hp : d₁.pick = some p) (hr : d₁.outputs p = some r) :
    (ConcatIter.accepts (p.nextL1 r) ∧ isRun (p.nextL1 r) ∧
      onlyTheLastMayBeUnbounded (p.nextL1 r)) ↔ d₁.Separates p := by
  have h₁ := h.inv.syncFlush hf
  exact (h₁.outputs_spec hp hr).2.accepted_iff h₁ hp

/-- A bounded range deletion that a snapshot keeps alive. -/
def boundedBatch : WriteBatch := [.deleteRange (some [97]) (some [99]), .set [98] [1]]

/-- Four tables with bounded tombstones that survive their compaction. -/
theorem small_bounded_level_one :
    ∃ d d₁ p r, small.performAll separates
        [.write [.set [98] [0]], .newSnapshot, .write boundedBatch, .sync, .write boundedBatch, .sync,
          .write boundedBatch, .sync, .write boundedBatch] = some d ∧
      d.syncFlush = some d₁ ∧ d₁.pick = some p ∧ d₁.outputs p = some r ∧
      (d₁.compaction p).survivors ≠ [] ∧
      ConcatIter.accepts (p.nextL1 r) ∧ isRun (p.nextL1 r) ∧
      onlyTheLastMayBeUnbounded (p.nextL1 r) := by
  have heval : (small.performAll separates
      [.write [.set [98] [0]], .newSnapshot, .write boundedBatch, .sync, .write boundedBatch, .sync,
        .write boundedBatch, .sync, .write boundedBatch]).any (fun d => separates .sync d &&
      d.syncFlush.any fun d₁ => d₁.pick.any fun p => (d₁.outputs p).isSome &&
        !(d₁.compaction p).survivors.isEmpty) = true := by
    decide +kernel
  obtain ⟨d, hd, heval⟩ := (any_eq_true _ _).mp heval
  obtain ⟨hsep, heval⟩ := (Bool.and_eq_true _ _).mp heval
  obtain ⟨d₁, hf, heval⟩ := (any_eq_true _ _).mp heval
  obtain ⟨p, hp, heval⟩ := (any_eq_true _ _).mp heval
  obtain ⟨hr, hne⟩ := (Bool.and_eq_true _ _).mp heval
  obtain ⟨r, hr⟩ := isSome_iff_exists.mp hr
  have hreach : Reach (separates · ·) small d := reach_of_performAll (fun _ _ => id) .refl hd
  exact ⟨d, d₁, p, r, hd, hf, hp, hr, by simpa using hne,
    (@Reach.level_one d {} 1 _ d₁ p r hreach hf hp hr).mpr (separates_sync hsep hf p hp)⟩

/-- A table of level 1 holds a key. A range deletion without an end that starts below the key is
flushed, and a snapshot keeps it alive. The compaction does not take the table in, because the bounds of
level 0 end below it, and so the deletion is written to a table that is not the last: the installation
aborts. -/
theorem small_unbounded_level_one :
    ∃ d d₁ p r, Reach (fun _ _ => True) small d ∧ d.syncFlush = some d₁ ∧ d₁.pick = some p ∧
      d₁.outputs p = some r ∧ ¬ onlyTheLastMayBeUnbounded (p.nextL1 r) ∧ d.sync = none := by
  have heval : (small.performAll (fun _ _ => true)
      [.write [.set [122] [0]], .sync, .write [.set [122] [0]], .sync, .write [.set [122] [0]], .sync,
        .write [.set [122] [0]], .sync, .newSnapshot, .write mixedBatch, .sync, .write mixedBatch,
        .sync, .write mixedBatch, .sync, .write mixedBatch]).any (fun d =>
      d.sync.isNone && d.syncFlush.any fun d₁ => d₁.pick.any fun p => (d₁.outputs p).any fun r =>
        !onlyTheLastMayBeUnbounded (p.nextL1 r)) = true := by
    decide +kernel
  obtain ⟨d, hd, heval⟩ := (any_eq_true _ _).mp heval
  obtain ⟨hnone, heval⟩ := (Bool.and_eq_true _ _).mp heval
  obtain ⟨d₁, hf, heval⟩ := (any_eq_true _ _).mp heval
  obtain ⟨p, hp, heval⟩ := (any_eq_true _ _).mp heval
  obtain ⟨r, hr, heval⟩ := (any_eq_true _ _).mp heval
  exact ⟨d, d₁, p, r, reach_of_performAll (fun _ _ _ => trivial) .refl hd, hf, hp, hr,
    by simpa using heval, isNone_iff_eq_none.mp hnone⟩

end DBImpl

end Rift.Engine
