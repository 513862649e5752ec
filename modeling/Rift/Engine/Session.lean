import Rift.Engine.Recovery
import Rift.Engine.Workload
import Rift.Lib.CrashLogic

/-!
# What a sync does to the files

`DBImpl::Sync`, `Flush`, `DoCompact` and `DropObsolete` of `engine-cpp/src/db.cc` and `Wal::Sync` of
`engine-cpp/src/wal/wal.cc`, as programs of small steps. A step is one operation of the environment or
one change of the state in memory. A crash falls between two steps.
-/

namespace Rift.Engine

open List Option

/-- A step: one operation, one change of the state in memory, or a failed assertion. -/
inductive Micro
  | op (o : EnvOp)
  | update (f : Session → Session)
  | abort

namespace Session

open Steps (andThen)

def step (s : Session) : Micro → Option Session
  | .op o => some { s with dir := s.dir.perform o }
  | .update f => some (f s)
  | .abort => none

/-! ### The programs -/

/-- Append records to the log. -/
def appendWal (s : Session) (ps : List Slice) : List Micro :=
  (logCalls s.walOffset ps).flatMap fun c =>
    [.op (.appendLog s.walNumber c.1), .update fun s => { s with walOffset := c.2 }]

/-- `Manifest::AppendGroup`. -/
def appendGroup (edits : List ManifestEdit) (s : Session) : List Micro :=
  ((logCalls s.manifestOffset (groupRecords edits)).flatMap fun c =>
    [.op (.appendManifest s.manifest c.1), .update fun s => { s with manifestOffset := c.2 }]) ++
  [.op (.syncManifest s.manifest)]

/-- `Wal::Sync`. The buffer is taken over before anything is written. -/
def walSync (s : Session) : List Micro :=
  if s.db.wal.buffered.isEmpty then []
  else
    let records := s.db.wal.buffered
    let high := s.db.wal.highSeq
    .update (fun s => { s with db.wal.buffered := [], db.wal.bufferedBytes := 0 }) ::
      (s.appendWal (records ++ [encodeGroupEnd high records.length]) ++
        [.op (.syncLog s.walNumber),
          .update fun s => { s with db.durable := high, db.log := s.db.log ++ [⟨records, high⟩] }])

/-- Reserve the numbers of a flush, and create its log. -/
def openWal (t w : ℕ) (_ : Session) : List Micro :=
  .update (fun s => { s with db.nextFileNumber := t + 2 }) ::
    .op (.createLog w) ::
      (((recordCalls 0 (encodeFileHeader w)).map fun c => .op (.appendLog w c.1)) ++
        [.op (.syncLog w), .op .syncDir])

/-- The new log and a new memtable take the writes from here on. -/
def rollTo (w : ℕ) (s : Session) : Session :=
  { s with
    db := { s.db.roll with nextFileNumber := s.db.nextFileNumber }
    wals := insert w s.wals
    walNumber := w
    walOffset := (logBytes 0 [encodeFileHeader w]).length }

/-- The table takes the place of the memtable that was flushed. -/
def installTable (table : Table) (w rollSeq : ℕ) (s : Session) : Session :=
  { s with
    db := s.db.install table rollSeq
    tables := s.tables.set table.number (table.toMeta (s.cfg.fileBytes table) 0)
    wals := s.wals.filter (w ≤ ·) }

/-- Write the table, name it, and delete the logs that it covers. -/
def writeTable (t w rollSeq : ℕ) (s : Session) : List Micro :=
  match s.db.imm.bind (·.build t) with
  | none => [.abort]
  | some table =>
    andThen step (fun _ => [.op (.writeTable t table), .op (.syncTable t), .op .syncDir])
      (andThen step
        (fun s => s.appendGroup (.addTable (table.toMeta (s.cfg.fileBytes table) 0) ::
          ((ascending s.wals).filter (· < w)).map .deleteWal))
        fun s => .op .syncDir :: .update (installTable table w rollSeq) ::
          (((s.dir.logs.numbers.filter fun n => n < w && readsBack n).map fun n =>
            .op (.deleteLog n)) ++ [.op .syncDir])) s

/-- `DBImpl::Flush`. -/
def flush (s : Session) : List Micro :=
  if s.db.closed || s.db.imm.isSome then []
  else
    let t := s.db.nextFileNumber
    let w := t + 1
    let rollSeq := s.db.seq
    andThen step (openWal t w)
      (andThen step (appendGroup [.nextFileNumber (t + 2), .addWal w])
        (andThen step (fun _ => [.update (rollTo w), .op (.createTable t)])
          (writeTable t w rollSeq))) s

/-- `DropObsolete`. A table stays while somebody reads it; `held` are those that the caller reads. -/
def dropObsolete (held : List ℕ) (s : Session) : List Micro :=
  let ready := s.obsolete.filter fun n => n ∉ held && s.readers.all (n ∉ ·)
  if ready.isEmpty then []
  else
    .update (fun s => { s with obsolete := s.obsolete.filter (· ∉ ready) }) ::
      (ready.map (fun n => .op (.deleteTable n)) ++ [.op .syncDir])

/-- Write the outputs of a compaction, each to its end. -/
def writeOutputs (outputs : List Table) (_ : Session) : List Micro :=
  (outputs.flatMap fun t =>
    [.update fun s => { s with db.nextFileNumber := t.number + 1 }, .op (.createTable t.number),
      .op (.writeTable t.number t), .op (.syncTable t.number)]) ++ [.op .syncDir]

/-- The group that names the outputs of a compaction, and drops its inputs. -/
def compactEdits (p : Picked) (outputs : List Table) (s : Session) : List ManifestEdit :=
  .nextFileNumber s.db.nextFileNumber ::
    (outputs.map (fun t => .addTable (t.toMeta (s.cfg.fileBytes t) 1)) ++
      p.inputs.map fun t => .deleteTable t.number)

/-- The outputs take the place of the inputs. -/
def installOutputs (p : Picked) (r : TableRoller) (s : Session) : Session :=
  { s with
    db.l0 := s.db.l0.filter fun t => t.number ∉ p.inputs.map (·.number)
    db.l1 := p.nextL1 r
    tables := r.outputs.foldl (fun m t => m.set t.number (t.toMeta (s.cfg.fileBytes t) 1))
      (s.tables.eraseIf (· ∈ p.inputs.map (·.number)))
    obsolete := s.obsolete ++ p.inputs.map (·.number) }

/-- `MaybeCompact` and `DoCompact`. -/
def compact (s : Session) : List Micro :=
  match s.db.pick with
  | none => []
  | some p =>
    match s.db.outputs p with
    | none => [.abort]
    | some r =>
      andThen step (writeOutputs r.outputs)
        (andThen step (fun s => s.appendGroup (s.compactEdits p r.outputs))
          (andThen step
            (fun _ => [.op .syncDir, if onlyTheLastMayBeUnbounded (p.nextL1 r) then
              .update (installOutputs p r) else .abort])
            (andThen step (dropObsolete (p.inputs.map (·.number))) (dropObsolete [])))) s

/-- `DBImpl::Sync`. -/
def sync (s : Session) : List Micro :=
  if s.db.wal.closed then []
  else
    andThen step walSync
      (andThen step (fun s => if s.db.flushNeeded then s.flush else [])
        (andThen step compact (dropObsolete []))) s

/-- What a sync from `s` to `s'` reports. -/
def watermark (s s' : Session) : Option ℕ :=
  if s.db.wal.closed then none
  else some (if s.db.walSync.1.flushNeeded then s'.db.durableSeq else s.db.walSync.2)

/-! ### In memory -/

variable {s s' : Session} {outputs : List Table} {ms : List Micro}

/-- Nothing has changed but the files and the positions in them. -/
def Quiet (s s' : Session) : Prop :=
  s' = { s with dir := s'.dir, walOffset := s'.walOffset, manifestOffset := s'.manifestOffset }

theorem Quiet.trans {s'' : Session} (h : Quiet s s') (h' : Quiet s' s'') : Quiet s s'' := by
  unfold Quiet at h h'
  rw [h] at h'
  exact h'

theorem Quiet.db (h : Quiet s s') : s'.db = s.db := by
  rw [h]

/-- A step that is an operation, or moves a writer. -/
def Silent (m : Micro) : Prop := ∀ s s', step s m = some s' → Quiet s s'

theorem silent_op (o : EnvOp) : Silent (.op o) := fun s s' h => by
  cases h
  rfl

theorem quiet_run (hms : ∀ m ∈ ms, Silent m) (h : Steps.run step s ms = some s') : Quiet s s' := by
  induction ms generalizing s with
  | nil =>
    cases h
    rfl
  | cons m ms ih =>
    rw [Steps.run_cons] at h
    obtain ⟨t, ht, h⟩ := bind_eq_some_iff.mp h
    exact (hms m mem_cons_self s t ht).trans
      (ih (fun x hx => hms x (mem_cons_of_mem _ hx)) h)

theorem silent_ops {α : Type*} (f : α → EnvOp) (xs : List α) (hms : ∀ m ∈ ms, Silent m) :
    ∀ m ∈ xs.map (fun x => Micro.op (f x)) ++ ms, Silent m := by
  intro m hm
  rcases mem_append.mp hm with hm | hm
  · obtain ⟨x, -, rfl⟩ := mem_map.mp hm
    exact silent_op _
  · exact hms m hm

theorem silent_appendWal (ps : List Slice) : ∀ m ∈ s.appendWal ps, Silent m := by
  intro m hm
  obtain ⟨c, -, hm⟩ := mem_flatMap.mp hm
  rcases mem_cons.mp hm with rfl | hm
  · exact silent_op _
  · rw [mem_singleton.mp hm]
    rintro s _ ⟨rfl⟩
    rfl

theorem silent_appendGroup (edits : List ManifestEdit) : ∀ m ∈ s.appendGroup edits, Silent m := by
  intro m hm
  rcases mem_append.mp hm with hm | hm
  · obtain ⟨c, -, hm⟩ := mem_flatMap.mp hm
    rcases mem_cons.mp hm with rfl | hm
    · exact silent_op _
    · rw [mem_singleton.mp hm]
      rintro s _ ⟨rfl⟩
      rfl
  · rw [mem_singleton.mp hm]
    exact silent_op _

theorem quiet_appendGroup {edits : List ManifestEdit}
    (h : Steps.run step s (s.appendGroup edits) = some s') : Quiet s s' :=
  quiet_run (silent_appendGroup edits) h

theorem run_walSync (h : Steps.run step s s.walSync = some s') :
    Quiet { s with db := s.db.walSync.1 } s' := by
  unfold walSync at h
  unfold DBImpl.walSync
  split_ifs at h ⊢ with hb
  · cases h
    rfl
  · dsimp only at h
    rw [Steps.run_cons, step, bind_some, Steps.run_append] at h
    obtain ⟨s₁, h₁, h⟩ := bind_eq_some_iff.mp h
    have hq := quiet_run (silent_appendWal _) h₁
    cases h
    unfold Quiet at hq ⊢
    rw [hq]

theorem run_openWal {t w : ℕ} (h : Steps.run step s (openWal t w s) = some s') :
    Quiet { s with db.nextFileNumber := t + 2 } s' := by
  unfold openWal at h
  rw [Steps.run_cons, step, bind_some] at h
  exact quiet_run (forall_mem_cons.mpr
    ⟨silent_op _, silent_ops _ _ (by simp [silent_op])⟩) h

theorem run_writeTable {t w rollSeq : ℕ}
    (h : Steps.run step s (writeTable t w rollSeq s) = some s') :
    ∃ table, s.db.imm.bind (·.build t) = some table ∧ Quiet (installTable table w rollSeq s) s' := by
  unfold writeTable at h
  split at h
  · cases h
  · next table ht =>
    refine ⟨table, ht, ?_⟩
    obtain ⟨s₁, h₁, h⟩ := Steps.run_andThen.mp h
    obtain ⟨s₂, h₂, h⟩ := Steps.run_andThen.mp h
    have hq₁ : Quiet s s₁ := quiet_run (by simp [silent_op]) h₁
    have hq₂ : Quiet s₁ s₂ := quiet_appendGroup h₂
    have hq := hq₁.trans hq₂
    rw [Steps.run_cons, step, bind_some, Steps.run_cons, step, bind_some] at h
    have hq₃ : Quiet (installTable table w rollSeq { s₂ with dir := s₂.dir.perform .syncDir }) s' :=
      quiet_run (silent_ops _ _ (by simp [silent_op])) h
    unfold Quiet at hq hq₃ ⊢
    rw [hq] at hq₃
    exact hq₃

/-- The state in memory after a flush that wrote a table. -/
def flushed (s : Session) (table : Table) : Session :=
  installTable table (s.db.nextFileNumber + 1) s.db.seq
    (rollTo (s.db.nextFileNumber + 1) { s with db.nextFileNumber := s.db.nextFileNumber + 2 })

theorem run_flush (hc : ¬ (s.db.closed || s.db.imm.isSome))
    (h : Steps.run step s s.flush = some s') :
    ∃ table, s.db.mem.build s.db.nextFileNumber = some table ∧ Quiet (s.flushed table) s' := by
  unfold flush at h
  rw [if_neg hc] at h
  dsimp only at h
  obtain ⟨s₁, h₁, h⟩ := Steps.run_andThen.mp h
  obtain ⟨s₂, h₂, h⟩ := Steps.run_andThen.mp h
  obtain ⟨s₃, h₃, h⟩ := Steps.run_andThen.mp h
  have hq : Quiet _ s₂ := (run_openWal h₁).trans (quiet_appendGroup h₂)
  cases h₃
  obtain ⟨table, ht, hq'⟩ := run_writeTable h
  have hmem : s₂.db.mem = s.db.mem := congrArg (·.db.mem) hq
  refine ⟨table, hmem ▸ ht, ?_⟩
  unfold Quiet at hq hq' ⊢
  rw [hq] at hq'
  exact hq'

theorem run_flush_db (h : Steps.run step s s.flush = some s') : s.db.flush = some s'.db := by
  by_cases hc : s.db.closed || s.db.imm.isSome
  · unfold flush at h
    rw [if_pos hc] at h
    cases h
    exact if_pos hc
  · obtain ⟨table, ht, hq⟩ := run_flush hc h
    unfold DBImpl.flush
    rw [if_neg hc, ht]
    exact congrArg some hq.db.symm

/-- Dropping obsolete tables changes nothing but which tables are obsolete. -/
theorem run_dropObsolete {held : List ℕ} (h : Steps.run step s (dropObsolete held s) = some s') :
    Quiet { s with obsolete := s'.obsolete } s' := by
  unfold dropObsolete at h
  dsimp only at h
  split_ifs at h with hr
  · cases h
    rfl
  · rw [Steps.run_cons, step, bind_some] at h
    have hq : Quiet _ s' := quiet_run (silent_ops _ _ (by simp [silent_op])) h
    unfold Quiet at hq ⊢
    rw [hq]

/-- The counter after the outputs of a compaction have been written. -/
def counterAfter (outputs : List Table) (n : ℕ) : ℕ := outputs.foldl (fun _ t => t.number + 1) n

theorem run_flatMap_outputs {f : Table → List Micro}
    (hf : ∀ t s s', Steps.run step s (f t) = some s' →
      Quiet { s with db.nextFileNumber := t.number + 1 } s')
    (h : Steps.run step s (outputs.flatMap f) = some s') :
    Quiet { s with db.nextFileNumber := counterAfter outputs s.db.nextFileNumber } s' := by
  induction outputs generalizing s with
  | nil =>
    cases h
    rfl
  | cons t outputs ih =>
    rw [flatMap_cons, Steps.run_append] at h
    obtain ⟨s₁, h₁, h⟩ := bind_eq_some_iff.mp h
    have hq₁ := hf t s s₁ h₁
    have hq₂ := ih h
    unfold Quiet at hq₁ hq₂ ⊢
    rw [hq₁] at hq₂
    exact hq₂

theorem run_writeOutputs (h : Steps.run step s (writeOutputs outputs s) = some s') :
    Quiet { s with db.nextFileNumber := counterAfter outputs s.db.nextFileNumber } s' := by
  unfold writeOutputs at h
  rw [Steps.run_append] at h
  obtain ⟨s₁, h₁, h⟩ := bind_eq_some_iff.mp h
  cases h
  refine (run_flatMap_outputs (fun t s s' h => ?_) h₁).trans rfl
  rw [Steps.run_cons, step, bind_some] at h
  exact quiet_run (by simp [silent_op]) h

theorem counterAfter_eq {n : ℕ} (h : outputs.map (·.number) = range' n outputs.length) :
    counterAfter outputs n = n + outputs.length := by
  induction outputs generalizing n with
  | nil => rfl
  | cons t outputs ih =>
    rw [map_cons, length_cons, range'_succ] at h
    obtain ⟨ht, h⟩ := cons.inj h
    change counterAfter outputs (t.number + 1) = _
    rw [ht, ih h, length_cons]
    omega

/-- The state in memory after a compaction. -/
def compacted (s : Session) (p : Picked) (r : TableRoller) : Session :=
  installOutputs p r { s with db.nextFileNumber := r.nextFileNumber }

theorem run_compact {p : Picked} (hp : s.db.pick = some p)
    (h : Steps.run step s s.compact = some s') :
    ∃ r, s.db.outputs p = some r ∧ onlyTheLastMayBeUnbounded (p.nextL1 r) ∧
      Quiet { s.compacted p r with obsolete := s'.obsolete } s' := by
  unfold compact at h
  rw [hp] at h
  dsimp only at h
  split at h
  · cases h
  · next r hr =>
    have hnumbers : r.outputs.map (·.number) = range' s.db.nextFileNumber r.outputs.length ∧
        r.nextFileNumber = s.db.nextFileNumber + r.outputs.length := by
      obtain ⟨m, -, hr⟩ := bind_eq_some_iff.mp hr
      obtain ⟨newest, -, hr⟩ := bind_eq_some_iff.mp hr
      dsimp only at hr
      split_ifs at hr
      exact Compaction.run_numbers hr
    obtain ⟨s₁, h₁, h⟩ := Steps.run_andThen.mp h
    obtain ⟨s₂, h₂, h⟩ := Steps.run_andThen.mp h
    obtain ⟨s₃, h₃, h⟩ := Steps.run_andThen.mp h
    obtain ⟨s₄, h₄, h₅⟩ := Steps.run_andThen.mp h
    have hq : Quiet _ s₂ := (run_writeOutputs h₁).trans (quiet_appendGroup h₂)
    rw [counterAfter_eq hnumbers.1, ← hnumbers.2] at hq
    rw [Steps.run_cons, step, bind_some, Steps.run_cons] at h₃
    split_ifs at h₃ with hlast
    · rw [step, bind_some] at h₃
      cases h₃
      refine ⟨r, hr, hlast, ?_⟩
      have hq₄ := run_dropObsolete h₄
      have hq₅ := run_dropObsolete h₅
      unfold Quiet at hq hq₄ hq₅ ⊢
      rw [hq₄, hq] at hq₅
      exact hq₅
    · cases h₃

/-- In memory, the program of a compaction is the compaction of the database. -/
theorem run_compact_db (h : Steps.run step s s.compact = some s') :
    s.db.maybeCompact = some s'.db := by
  unfold DBImpl.maybeCompact
  cases hp : s.db.pick with
  | none =>
    unfold compact at h
    rw [hp] at h
    cases h
    rfl
  | some p =>
    obtain ⟨r, hr, hlast, hq⟩ := run_compact hp h
    have hdb : s'.db = (s.compacted p r).db := hq.db
    dsimp only
    unfold DBImpl.doCompact
    rw [hr, hdb]
    exact if_pos hlast

theorem run_sync (h : Steps.run step s s.sync = some s') :
    s.db.sync = some (s'.db, s.watermark s') := by
  unfold sync at h
  unfold DBImpl.sync watermark
  by_cases hc : s.db.wal.closed
  · rw [if_pos hc] at h ⊢
    cases h
    rw [if_pos hc]
  rw [if_neg hc] at h ⊢
  rw [if_neg hc]
  obtain ⟨s₁, h₁, h⟩ := Steps.run_andThen.mp h
  obtain ⟨s₂, h₂, h⟩ := Steps.run_andThen.mp h
  obtain ⟨s₃, h₃, h⟩ := Steps.run_andThen.mp h
  have hdb₁ : s₁.db = s.db.walSync.1 := (run_walSync h₁).db
  have hflush : s.db.syncFlush = some s₂.db := by
    unfold DBImpl.syncFlush
    rw [← hdb₁]
    split_ifs at h₂ ⊢
    · exact run_flush_db h₂
    · cases h₂
      rfl
  have hcompact := run_compact_db h₃
  have hdb : s'.db = s₃.db := (run_dropObsolete h).db
  rw [hflush, bind_eq_bind, bind_some, hcompact, hdb]
  rfl

end Session

end Rift.Engine
