import Rift.Engine.Directory
import Rift.Lib.Runs

/-!
# Opening a database

`RecoverLocked` of `engine-cpp/src/wal/recovery.cc` replays the logs that the manifest names, and
`DB::Open` of `engine-cpp/src/db.cc` puts the state together: it replays the manifest, checks every table
that is named against its record, recovers the logs above what the tables cover, and starts a new
manifest and a new log.

## Main definitions

* `recoverLocked` — the replay of the logs
* `verifyTables` — the tables that a manifest names
* `Config`, `Session` — an open database with its files
* `openDB` — `DB::Open`
-/

namespace Rift.Engine

/-! ### Replaying the logs -/

/-- Why a database does not open. -/
inductive OpenError
  | corruption (why : String)
  | notFound (path : String)
  | invalidArgument (why : String)
  /-- An assertion failed. -/
  | aborted
  deriving DecidableEq, Repr

structure RecoverOptions where
  coveredThrough : ℕ
  namedWals : List ℕ
  deriving DecidableEq, Repr

/-- What the replay of one log changes. -/
structure ReplayState where
  table : MemTable := {}
  recoveredSeq : ℕ := 0
  /-- The first and the last sequence of the log. -/
  span : Option (ℕ × ℕ) := none
  batchesThisGroup : ℕ := 0
  deriving DecidableEq, Repr

/-- Replay one committed record of a log. -/
def replayWalRecord (path : String) (covered : ℕ) (s : ReplayState) (rec : LogicalRecord × ℕ) :
    Except OpenError ReplayState :=
  match rec.1.kind with
  | .fileHeader =>
    if rec.2 ≠ 0 then
      .error (.corruption (path ++ ": a second FILE_HEADER at record " ++ toString rec.2))
    else .ok s
  | .batch =>
    match decodeBatch rec.1.payload with
    | none => .error (.corruption (path ++ ": malformed BATCH"))
    | some b =>
      if b.seq ≤ covered then
        .error (.corruption (path ++ ": batch at sequence " ++ toString b.seq ++
          " is already covered by the SSTables through " ++ toString covered ++
          "; a WAL below the manifest's log number was replayed"))
      else
        match replayBatch s.table b with
        | none => .error .aborted
        | some m => .ok
          { s with
            table := m
            span := some ((s.span.map Prod.fst).getD b.seq, b.seq)
            batchesThisGroup := (s.batchesThisGroup + 1) % 2 ^ 32 }
  | .manifestEdit => .error (.corruption (path ++ ": a manifest edit in a WAL"))
  | .groupEnd =>
    match decodeGroupEnd rec.1.payload with
    | none => .error (.corruption (path ++ ": malformed GROUP_END"))
    | some g =>
      if g.batchCount ≠ s.batchesThisGroup then
        .error (.corruption (path ++ ": GROUP_END records " ++ toString g.batchCount ++
          " batches but " ++ toString s.batchesThisGroup ++
          " were read; a record was dropped from inside the group"))
      else if g.highSeq < s.recoveredSeq then
        .error (.corruption (path ++ ": GROUP_END sequence " ++ toString g.highSeq ++
          " goes backwards from " ++ toString s.recoveredSeq))
      else .ok { s with batchesThisGroup := 0, recoveredSeq := g.highSeq }

/-- The header is checked whether or not anything after it is committed. -/
def checkHeader (path : String) (number : ℕ) (records : List LogicalRecord) : Except OpenError Unit :=
  match records.head? with
  | none => .error (.corruption (path ++ ": no records at all; not a WAL"))
  | some first =>
    if first.kind ≠ .fileHeader then
      .error (.corruption (path ++ ": first record is not a FILE_HEADER"))
    else
      match decodeFileHeader first.payload with
      | none => .error (.corruption (path ++ ": malformed FILE_HEADER"))
      | some h =>
        if h.formatVersion ≠ kFormatVersion then
          .error (.corruption (path ++ ": format version " ++ toString h.formatVersion))
        else if h.fileNumber ≠ number then
          .error (.corruption (path ++ ": FILE_HEADER says file number " ++ toString h.fileNumber))
        else .ok ()

/-- Replay the committed records of a log image. -/
def replayWal (path : String) (covered number : ℕ) (image : Slice) (s : ReplayState) :
    Except OpenError ReplayState :=
  let scan := scanLog image
  if scan.outcome = .interiorCorruption then
    .error (.corruption (path ++ ": interior corruption at block " ++ toString scan.failureBlock ++
      ", byte offset " ++ toString scan.failureOffset ++ " (" ++ scan.failureReason ++
      "); a structurally valid record follows at offset " ++ toString scan.resyncOffset ++
      "; last committed group sequence " ++ toString (max scan.lastCommittedSeq s.recoveredSeq)))
  else
    match checkHeader path number scan.records with
    | .error e => .error e
    | .ok () =>
      ((scan.records.take scan.committedCount).zipIdx).foldlM (replayWalRecord path covered)
        { s with span := none, batchesThisGroup := 0 }

/-- Replay one log after the others, and note its span. -/
def recoverFile (dir : String) (logs : Volume UInt8) (covered : ℕ)
    (s : ReplayState × List (ℕ × ℕ × ℕ)) (number : ℕ) :
    Except OpenError (ReplayState × List (ℕ × ℕ × ℕ)) :=
  match logs.read number with
  | none => .error (.notFound (logPath dir number))
  | some image =>
    match replayWal (logPath dir number) covered number image s.1 with
    | .error e => .error e
    | .ok t => .ok (t, s.2 ++ (t.span.map fun x => (number, x.1, x.2)).toList)

/-- A log that is not named holds nothing above what the tables cover. -/
def checkUnnamed (dir : String) (logs : Volume UInt8) (covered number : ℕ) : Except OpenError Unit :=
  match logs.read number with
  | none => .error (.notFound (logPath dir number))
  | some image =>
    let scan := scanLog image
    (scan.records.take scan.committedCount).forM fun rec =>
      if rec.kind ≠ .batch then .ok ()
      else
        match decodeBatch rec.payload with
        | none =>
          .error (.corruption (logPath dir number ++ ": malformed BATCH in an unnamed WAL"))
        | some b =>
          if covered < b.seq then
            .error (.corruption (logPath dir number ++
              ": present, not named by the manifest, and holding a batch at sequence " ++
              toString b.seq ++ " above what the SSTables cover (" ++ toString covered ++
              "). A record with no durable home would be lost by ignoring it"))
          else .ok ()

/-- The spans of the logs lie above what the tables cover, and one after the other. -/
def checkSpans (dir : String) (covered : ℕ) : Option ℕ → List (ℕ × ℕ × ℕ) → Except OpenError Unit
  | _, [] => .ok ()
  | none, (number, first, last) :: spans =>
    if first ≤ covered then
      .error (.corruption (logPath dir number ++ ": first batch is sequence " ++ toString first ++
        ", at or below what the SSTables already cover (" ++ toString covered ++ ")"))
    else checkSpans dir covered (some last) spans
  | some chainEnd, (number, first, last) :: spans =>
    if first ≤ chainEnd then
      .error (.corruption (logPath dir number ++ ": first batch is sequence " ++ toString first ++
        ", not above the previous WAL's last (" ++ toString chainEnd ++ ")"))
    else checkSpans dir covered (some last) spans

/-- Every log that is named has to be there. -/
def checkNamed (dir : String) (present : List ℕ) (number : ℕ) : Except OpenError Unit :=
  if number ∈ present then .ok ()
  else .error (.corruption (logPath dir number ++
    ": named by the manifest and absent. A missing WAL means a directory entry was lost, and " ++
    "recovery cannot replay a prefix it cannot prove is complete"))

/-- The memtable of the logs that are named, and the sequence to go on from. If none is named, all that
are there count. -/
def recoverLocked (dir : String) (logs : Volume UInt8) (options : RecoverOptions) :
    Except OpenError (MemTable × ℕ) := do
  let present := logs.numbers.filter readsBack
  let named := options.namedWals
  let numbers := if named.isEmpty then present else named
  let unnamed := if named.isEmpty then [] else present.filter (· ∉ named)
  named.forM (checkNamed dir present)
  unnamed.forM (checkUnnamed dir logs options.coveredThrough)
  let (s, spans) ← numbers.foldlM (recoverFile dir logs options.coveredThrough) ({}, [])
  checkSpans dir options.coveredThrough none spans
  return (s.table, max options.coveredThrough s.recoveredSeq)

/-! ### The tables of a manifest -/

/-- What a database is opened with. What memtables and table files take is not modelled further. -/
structure Config where
  dir : String
  caps : Caps
  flushBytes : ℕ
  memoryUsage : MemTable → ℕ
  fileBytes : Table → ℕ

/-- `Table::Open`: a file that was not written to its end is refused. -/
def openTable (tables : Volume Table) (n : ℕ) : Option Table :=
  match tables.read n with
  | some [t] => some { t with number := n }
  | _ => none

/-- Check a table against its record. -/
def verifyTable (cfg : Config) (tables : Volume Table) (m : TableMeta) : Except OpenError Table :=
  let path := tablePath cfg.dir m.number
  match openTable tables m.number with
  | none => .error (.corruption (path ++ ": named by the manifest and unusable"))
  | some t =>
    if cfg.fileBytes t ≠ m.fileBytes then
      .error (.corruption (path ++ ": manifest says " ++ toString m.fileBytes ++ " bytes, file has " ++
        toString (cfg.fileBytes t)))
    else if t.check.largestKey.encode ≠ m.largest ∨ t.check.smallestKey.encode ≠ m.smallest then
      .error (.corruption (path ++ ": key bounds disagree with the manifest"))
    else if t.check.largestSeq ≠ m.largestSeq then
      .error (.corruption (path ++ ": manifest records largest sequence " ++ toString m.largestSeq ++
        "; the table's own keys say " ++ toString t.check.largestSeq))
    else .ok t

/-- The first two tables that are not in order, or that meet at a key that both hold. -/
def checkRun : List Table → Except OpenError Unit
  | t :: u :: ts =>
    if u.lo < t.hi then
      .error (.corruption ("level 1 is not a run: table " ++ toString t.number ++
        " ends at a user key after where table " ++ toString u.number ++ " begins"))
    else if t.hi = u.lo ∧ ¬ t.check.largestIsExclusive then
      .error (.corruption ("level 1 is not a run: table " ++ toString t.number ++ " and table " ++
        toString u.number ++ " both hold the user key their bounds meet at"))
    else checkRun (u :: ts)
  | _ => .ok ()

/-- The first table that reaches to infinity, if it is not the last. -/
def checkUnbounded (consequence : String) : List Table → Except OpenError Unit
  | t :: u :: ts =>
    if t.check.unboundedEnd then
      .error (.corruption ("level 1 file " ++ toString t.number ++
        " holds a range tombstone with no upper bound and is not the last of the run" ++ consequence))
    else checkUnbounded consequence (u :: ts)
  | _ => .ok ()

/-- The level that a manifest records of a table. -/
def ManifestState.level (state : ManifestState) (t : Table) : Option ℕ :=
  (state.tables.get t.number).map (·.level)

def verifyL1IsARun (state : ManifestState) (built : List Table) : Except OpenError Unit := do
  let l1 := (built.filter (state.level · = some 1)).insertionSort fun t u =>
    t.lo < u.lo ∨ t.lo = u.lo ∧ t.number ≤ u.number
  checkRun l1
  checkUnbounded ": every read that does not land on this file would miss it" l1

/-- The tables that a manifest names, newest first. -/
def verifyTables (cfg : Config) (tables : Volume Table) (state : ManifestState) :
    Except OpenError (List Table) := do
  let built ← state.tables.entries.mapM fun e => verifyTable cfg tables e.2
  verifyL1IsARun state built
  return built.reverse

/-! ### Opening -/

/-- An open database and its files. The counter of file numbers is that of the database. -/
structure Session where
  cfg : Config
  db : DBImpl
  dir : Dir
  /-- The tables and the logs that the manifest names. -/
  tables : OrderedMap ℕ TableMeta := .empty
  wals : Finset ℕ := ∅
  /-- The manifest that is written, and where its writer is. -/
  manifest : ℕ
  manifestOffset : ℕ
  /-- The log that is written, and where its writer is. -/
  walNumber : ℕ
  walOffset : ℕ
  /-- Tables that are no longer named, and the tables that each live reader holds. -/
  obsolete : List ℕ := []
  readers : List (List ℕ) := []

/-- `ReadCurrent`, with the state that the manifest stands for and its tables. -/
def readManifest (cfg : Config) (dir : Dir) : Except OpenError (ManifestState × List Table) :=
  match dir.current with
  | none => .ok ({}, [])
  | some n =>
    if ¬ readsBack n then .error (.corruption (currentPath cfg.dir ++ ": not a manifest name"))
    else
      match dir.manifests.read n with
      | none => .error (.notFound (manifestPath cfg.dir n))
      | some image =>
        match replay (manifestPath cfg.dir n) n image {} with
        | .error why => .error (.corruption why)
        | .ok state =>
          match verifyTables cfg dir.tables state with
          | .error e => .error e
          | .ok tables => .ok (state, tables)

/-- Every table that is named has a number below the counter. -/
def checkNumbers (state : ManifestState) : Except OpenError Unit :=
  state.tables.entries.forM fun e =>
    if state.nextFileNumber ≤ e.1 then
      .error (.corruption ("manifest names table " ++ toString e.1 ++
        " at or above its own next file number " ++ toString state.nextFileNumber))
    else .ok ()

/-- The group that a new manifest begins with. -/
def snapshotEdits (state : ManifestState) : List ManifestEdit :=
  .nextFileNumber state.nextFileNumber ::
    ((ascending state.wals).map .addWal ++ state.tables.entries.map fun e => .addTable e.2)

/-- What the tables cover. -/
def ManifestState.covered (state : ManifestState) : ℕ :=
  (state.tables.entries.map (·.2.largestSeq)).foldl max 0

/-- A file that has been written and synced, and its name too. -/
def durableFile (bytes : Slice) : VolumeFile UInt8 :=
  { data := bytes, synced := bytes.length, durable := true }

/-- The check of `Wal::Open` on its caps. -/
def checkCaps (caps : Caps) : Except OpenError Unit :=
  if caps.maxRecordBytes = 0 then .error (.invalidArgument "max_record_bytes must be positive")
  else if caps.walBufferBytes < 2 * caps.maxRecordBytes ∨
      caps.busyBytes ≠ 0 ∧ caps.walBufferBytes < caps.busyBytes + caps.maxRecordBytes then
    .error (.invalidArgument ("wal_buffer_bytes " ++ toString caps.walBufferBytes ++
      " < 2 x max_record_bytes " ++ toString caps.maxRecordBytes ++
      ": the tripwire would fire on legal input"))
  else .ok ()

/-- An open database over a state that was read. The new manifest holds the state as one group, and then
names the new log. Other manifests and tables that are not named are deleted. -/
def opened (cfg : Config) (dir : Dir) (state : ManifestState) (tables : List Table) (mem : MemTable)
    (seq : ℕ) : Session :=
  let manifest := state.nextFileNumber
  let wal := manifest + 1
  let state := { state with nextFileNumber := wal }
  let orphans := dir.tables.numbers.filter fun n => (state.tables.get n).isNone
  let header := logBytes 0 [encodeFileHeader wal]
  let image := logBytes 0 (manifestRecords manifest
    [snapshotEdits state, [.nextFileNumber (wal + 1), .addWal wal]])
  { cfg := cfg
    db :=
      { mem := mem
        wal := { caps := cfg.caps }
        seq := seq
        l0 := tables.filter (state.level · = some 0)
        l1 := sortTables (tables.filter (state.level · ≠ some 0))
        flushedThrough := state.covered
        nextFileNumber := wal + 1
        flushBytes := cfg.flushBytes
        memoryUsage := cfg.memoryUsage }
    dir :=
      { current := some manifest
        manifests := (.empty : Volume UInt8).set manifest (durableFile image)
        logs := Volume.syncDir (dir.logs.set wal (durableFile header))
        tables := orphans.foldl Volume.remove dir.tables.syncDir }
    tables := state.tables
    wals := insert wal state.wals
    manifest := manifest
    manifestOffset := image.length
    walNumber := wal
    walOffset := header.length }

/-- `DB::Open`. -/
def openDB (cfg : Config) (dir : Dir) : Except OpenError Session := do
  let (state, tables) ← readManifest cfg dir
  checkNumbers state
  let (mem, seq) ← recoverLocked cfg.dir dir.logs
    { coveredThrough := state.covered, namedWals := ascending state.wals }
  checkCaps cfg.caps
  checkUnbounded "" (sortTables (tables.filter (state.level · ≠ some 0)))
  return opened cfg dir state tables mem seq

theorem covered_le_of_recoverLocked {dir : String} {logs : Volume UInt8} {options : RecoverOptions}
    {mem : MemTable} {seq : ℕ} (h : recoverLocked dir logs options = .ok (mem, seq)) :
    options.coveredThrough ≤ seq := by
  obtain ⟨_, -, h⟩ := bind_eq_ok.mp h
  obtain ⟨_, -, h⟩ := bind_eq_ok.mp h
  obtain ⟨s, -, h⟩ := bind_eq_ok.mp h
  obtain ⟨_, -, h⟩ := bind_eq_ok.mp h
  cases h
  exact le_max_left _ _

theorem openDB_eq_ok {cfg : Config} {dir : Dir} {s : Session} (h : openDB cfg dir = .ok s) :
    ∃ state tables mem seq, readManifest cfg dir = .ok (state, tables) ∧
      recoverLocked cfg.dir dir.logs
        { coveredThrough := state.covered, namedWals := ascending state.wals } = .ok (mem, seq) ∧
      s = opened cfg dir state tables mem seq := by
  obtain ⟨⟨state, tables⟩, hread, h⟩ := bind_eq_ok.mp h
  obtain ⟨_, -, h⟩ := bind_eq_ok.mp h
  obtain ⟨⟨mem, seq⟩, hrec, h⟩ := bind_eq_ok.mp h
  obtain ⟨_, -, h⟩ := bind_eq_ok.mp h
  obtain ⟨_, -, h⟩ := bind_eq_ok.mp h
  exact ⟨state, tables, mem, seq, hread, hrec, (Except.ok.inj h).symm⟩

end Rift.Engine
