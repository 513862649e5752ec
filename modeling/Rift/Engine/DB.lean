import Mathlib.Data.List.Dedup
import Rift.Engine.Drop
import Rift.Engine.Levels
import Rift.Engine.Write

/-!
# The database

`DBImpl` of `engine-cpp/src/db.cc`: the memtable and the log that writes go to, the tables of level 0 that
flushes write, and the run of level 1 that compactions write. Every operation of the environment
succeeds. A failed assertion aborts the process and is `none`.
-/

namespace Rift.Engine

open List

/-! ### The state -/

/-- A group of records that was synced, and the sequence that closes it. -/
structure LogGroup where
  records : List Slice
  highSeq : ℕ
  deriving DecidableEq, Repr

structure DBImpl extends Front where
  /-- The memtable that is being flushed. -/
  imm : Option MemTable := none
  /-- The durable sequence of the current log. -/
  durable : ℕ := 0
  /-- The groups of the current log, and those of the older logs that are still named. -/
  log : List LogGroup := []
  olderLogs : List (List LogGroup) := []
  /-- Newest first. -/
  l0 : List Table := []
  l1 : List Table := []
  flushedThrough : ℕ := 0
  nextFileNumber : ℕ := 3
  /-- The sequences of the live snapshots. -/
  snapshots : List ℕ := []
  flushBytes : ℕ
  /-- What the arena and the tombstones of a memtable take. -/
  memoryUsage : MemTable → ℕ

/-- How many tables of level 0 start a compaction. -/
def kL0CompactionTrigger : ℕ := 4

/-- The tables a compaction reads, and those of level 1 that it leaves alone. -/
structure Picked where
  inL0 : List Table
  inL1 : List Table
  keepL1 : List Table

namespace Picked

variable (p : Picked)

def inputs : List Table := p.inL0 ++ p.inL1

/-- The versions of the inputs, by sources. -/
def contents : List (List Entry) :=
  p.inL0.map (·.entries) ++ if p.inL1.isEmpty then [] else [p.inL1.flatMap (·.entries)]

/-- A table lies above level 0. -/
def above (u : Table) : Bool := p.inL0.all fun t => t.hi < u.lo

/-- Nothing of level 1 that stays meets the span of the inputs. -/
def bottomMost : Bool :=
  match p.inputs with
  | [] => true
  | t :: ts => p.keepL1.all fun u => !overlaps (hull t ts) u

/-- Level 1 after the compaction. -/
def nextL1 (r : TableRoller) : List Table := sortTables (p.keepL1 ++ r.outputs)

theorem flatten_contents : p.contents.flatten = p.inputs.flatMap (·.entries) := by
  unfold contents inputs
  rw [flatten_append, flatMap_append, ← flatMap_def]
  congr 1
  cases p.inL1 <;> simp

theorem length_contents : p.contents.flatten.length = (p.inputs.map (·.entries.length)).sum := by
  rw [flatten_contents, length_flatMap]

end Picked

namespace DBImpl

variable (d : DBImpl)

def write (b : WriteBatch) : Option (DBImpl × WriteStatus) := do
  let (f, status) ← d.toFront.write b
  return ({ d with toFront := f }, status)

def newSnapshot : DBImpl := { d with snapshots := d.seq :: d.snapshots }

def releaseSnapshot (s : ℕ) : DBImpl := { d with snapshots := d.snapshots.erase s }

/-- Sync the log: the records that are buffered become one group. -/
def walSync : DBImpl × ℕ :=
  if d.wal.buffered.isEmpty then (d, d.durable)
  else
    ({ d with
       wal := { d.wal with buffered := [], bufferedBytes := 0 }
       durable := d.wal.highSeq
       log := d.log ++ [⟨d.wal.buffered, d.wal.highSeq⟩] },
      d.wal.highSeq)

def durableSeq : ℕ := max d.durable d.flushedThrough

def flushNeeded : Bool := !d.closed && d.flushBytes ≤ d.memoryUsage d.mem

/-- Begin a flush: a new memtable and a new log take the writes from here on. -/
def roll : DBImpl :=
  { d with
    imm := some d.mem
    mem := {}
    wal := { caps := d.wal.caps }
    durable := 0
    log := []
    olderLogs := d.olderLogs ++ [d.log]
    nextFileNumber := d.nextFileNumber + 2 }

/-- End a flush: the table takes the place of the memtable and of the older logs. -/
def install (t : Table) (rollSeq : ℕ) : DBImpl :=
  { d with
    imm := none
    olderLogs := []
    l0 := t :: d.l0
    flushedThrough := max d.flushedThrough rollSeq }

def flush : Option DBImpl :=
  if d.closed || d.imm.isSome then some d
  else do
    let t ← d.mem.build d.nextFileNumber
    return d.roll.install t d.seq

/-- The sequences someone may still read at, ascending. -/
def observableNow : List ℕ := (d.seq :: d.snapshots).dedup.insertionSort (· ≤ ·)

/-- All of level 0, and what it meets of level 1. -/
def pick : Option Picked :=
  if d.closed || d.l0.length < kL0CompactionTrigger then none
  else match d.l0 with
    | [] => none
    | t :: ts => some
        { inL0 := d.l0
          inL1 := d.l1.filter (overlaps (hull t ts))
          keepL1 := d.l1.filter fun u => !overlaps (hull t ts) u }

def compaction (p : Picked) : Compaction where
  observable := d.observableNow
  bottomMost := p.bottomMost
  pinSeq := (p.inputs.map (·.check.largestSeq)).foldl max 0
  tombstones := p.inputs.flatMap (·.tombstones)

/-- What the drop rule keeps of the inputs. -/
def kept (p : Picked) : List (Entry × Bool) := (d.compaction p).emit {} (merged p.contents)

/-- The tombstones that are written, in the order they are written in. -/
def tombstones (p : Picked) : List MemRange := sortRanges (d.compaction p).survivors

/-- The tombstones of a compaction respect the files around them. Where the versions that are kept fill
a file, the first tombstone that reaches the next one is newer than what begins there. If a table of
level 1 above the inputs stays, the tombstones have ends, and the first that reaches the table is newer
than what begins there. A table below the inputs that stays has an upper bound, if anything is
written. -/
def Separates (p : Picked) : Prop :=
  (∀ e ∈ rollPoints d.flushBytes none (d.kept p), Yields (d.tombstones p) e.ikey) ∧
    ∀ u ∈ p.keepL1,
      if p.above u then
        (∀ r ∈ d.tombstones p, ¬ r.endUnbounded) ∧ Yields (d.tombstones p) u.check.smallestKey
      else d.kept p ≠ [] → u.check.unboundedEnd = false

instance (p : Picked) : Decidable (d.Separates p) := by
  unfold Separates
  infer_instance

/-- Write the outputs of a compaction. -/
def outputs (p : Picked) : Option TableRoller := do
  let merge ← (p.inL0.foldl MergedIter.addTable {}).addRun p.inL1
  let newest ← d.observableNow.getLast?
  let roller : TableRoller := { maxBytes := d.flushBytes, nextFileNumber := d.nextFileNumber }
  if newest < (d.compaction p).pinSeq then none
  else (d.compaction p).run (p.inputs.map (·.entries.length)).sum merge roller

def doCompact (p : Picked) : Option DBImpl := do
  let r ← d.outputs p
  if onlyTheLastMayBeUnbounded (p.nextL1 r) then
    some
      { d with
        l0 := d.l0.filter fun t => t.number ∉ p.inputs.map (·.number)
        l1 := p.nextL1 r
        nextFileNumber := r.nextFileNumber }
  else none

def maybeCompact : Option DBImpl :=
  match d.pick with
  | none => some d
  | some p => d.doCompact p

/-- The first half of a sync: the log, and a flush if the memtable is full. -/
def syncFlush : Option DBImpl :=
  if d.walSync.1.flushNeeded then d.walSync.1.flush else some d.walSync.1

/-- Sync, flush and compact. The watermark is that of the log, unless the sync flushed; a closed log
has none. -/
def sync : Option (DBImpl × Option ℕ) :=
  if d.wal.closed then some (d, none)
  else do
    let d' ← d.syncFlush
    let d' ← d'.maybeCompact
    return (d', some (if d.walSync.1.flushNeeded then d'.durableSeq else d.walSync.2))

end DBImpl

/-! ### The invariant -/

variable {b : WriteBatch}

/-- The memtable a write leaves. The ranges of a batch have distinct starts, and a sequence that is
new. -/
theorem MemTable.Ok.insertBatch {m m' : MemTable} {S : ℕ} (hm : m.Ok)
    (hr : ∀ r ∈ m.ranges, r.seq < S) (h : Engine.insertBatch m S (collapseBatch b) = some m') :
    m'.Ok := by
  obtain ⟨hs, hperm, hnew, hranges⟩ := insertBatch_eq_some hm.sorted h
  have hinv := Collapse.inv_of b
  refine
    { sorted := hs
      legal := fun e he => (mem_append.mp (hperm.mem_iff.mp he)).elim (hm.legal e) fun h =>
        (hnew e h).1 ▸ (hnew e h).2
      proper := fun r hr => ?_
      distinct := ?_ }
  · rcases mem_append.mp (hranges ▸ hr) with hr | hr
    · exact hm.proper r hr
    · obtain ⟨x, hx, rfl⟩ := mem_map.mp hr
      have hp := hinv.proper x hx
      unfold MemRange.Proper at hp ⊢
      split_ifs at hp ⊢ with hu
      · rfl
      · exact hp
  · rw [hranges, map_append, map_map]
    refine nodup_append.mpr ⟨hm.distinct, ?_, ?_⟩
    · have hstarts : ((collapseBatch b).ranges.map (·.start)).Nodup := hinv.starts
      refine pairwise_map.mpr ((pairwise_map.mp hstarts).imp ?_)
      exact fun hne heq => hne (congrArg Prod.fst heq)
    · rintro _ hx _ hy rfl
      obtain ⟨x, hx, hxe⟩ := mem_map.mp hx
      obtain ⟨y, -, hye⟩ := mem_map.mp hy
      have := hr x hx
      have heq : x.seq = S := congrArg Prod.snd (hxe.trans hye.symm)
      omega

namespace DBImpl

/-- What a read sees. -/
def version (d : DBImpl) : Version where
  mem := d.mem
  imm := d.imm
  l0 := d.l0
  l1 := d.l1

/-- The versions in tables, newest first. -/
def stores (d : DBImpl) : List (List Entry) :=
  d.l0.map (·.entries) ++ [d.l1.flatMap (·.entries)]

/-- What holds between any two operations: the memtable is newer than every table, a key has one
version at a sequence, level 1 is clear, and snapshots are of the past. -/
structure Inv (d : DBImpl) : Prop where
  idle : d.imm = none
  mem : d.mem.Ok
  entrySeq : ∀ e ∈ d.mem.entries, e.seq ≤ d.seq
  rangeSeq : ∀ r ∈ d.mem.ranges, r.seq ≤ d.seq
  tableSeq : ∀ t ∈ d.l0 ++ d.l1, t.check.largestSeq ≤ d.seq
  fresher : ∀ e ∈ d.mem.entries, ∀ t ∈ d.l0 ++ d.l1, t.check.largestSeq < e.seq
  newer : d.stores.Pairwise fun a b => ∀ x ∈ a, ∀ y ∈ b, y.seq < x.seq
  clear : d.l1.Pairwise Table.clears
  distinct : Distinct d.version.entries
  snapshots_le : ∀ s ∈ d.snapshots, s ≤ d.seq

/-- A new database. -/
def fresh (caps : Caps) (flushBytes : ℕ) (memoryUsage : MemTable → ℕ) : DBImpl where
  wal := { caps := caps }
  flushBytes := flushBytes
  memoryUsage := memoryUsage

theorem inv_fresh (caps : Caps) (flushBytes : ℕ) (memoryUsage : MemTable → ℕ) :
    (fresh caps flushBytes memoryUsage).Inv where
  idle := rfl
  mem := ⟨.nil, by simp [fresh], by simp [fresh], by simp [fresh]⟩
  entrySeq := by simp [fresh]
  rangeSeq := by simp [fresh]
  tableSeq := by simp [fresh]
  fresher := by simp [fresh]
  newer := by simp [stores, fresh]
  clear := .nil
  distinct := by simp [Distinct, version, fresh, Version.entries, Version.contents]
  snapshots_le := by simp [fresh]

variable {d d' : DBImpl} {status : WriteStatus} {e : Entry} {t : Table}

theorem mem_version_entries (h : d.imm = none) :
    e ∈ d.version.entries ↔ e ∈ d.mem.entries ∨ ∃ t ∈ d.l0 ++ d.l1, e ∈ t.entries := by
  rw [Version.entries_eq]
  simp [version, h, or_and_right, exists_or]

theorem Inv.table_entry_le (h : d.Inv) (ht : t ∈ d.l0 ++ d.l1) (he : e ∈ t.entries) :
    e.seq ≤ d.seq :=
  (t.seq_le_largestSeq he).trans (h.tableSeq t ht)

theorem Inv.entry_le (h : d.Inv) (he : e ∈ d.version.entries) : e.seq ≤ d.seq := by
  rcases (mem_version_entries h.idle).mp he with he | ⟨t, ht, he⟩
  · exact h.entrySeq e he
  · exact h.table_entry_le ht he

theorem Inv.lt_of_mem_stores (h : d.Inv) {a : List Entry} (ha : a ∈ d.stores) {x y : Entry}
    (hx : x ∈ d.mem.entries) (hy : y ∈ a) : y.seq < x.seq := by
  have hlt : ∀ t ∈ d.l0 ++ d.l1, y ∈ t.entries → y.seq < x.seq := fun t ht hy =>
    (t.seq_le_largestSeq hy).trans_lt (h.fresher x hx t ht)
  rcases mem_append.mp ha with ha | ha
  · obtain ⟨t, ht, rfl⟩ := mem_map.mp ha
    exact hlt t (mem_append_left _ ht) hy
  · obtain rfl := mem_singleton.mp ha
    obtain ⟨t, ht, hy⟩ := mem_flatMap.mp hy
    exact hlt t (mem_append_right _ ht) hy

/-- A write leaves the tables alone. It inserts the batch at the next sequence, or nothing. -/
theorem write_eq_some (hw : d.write b = some (d', status)) :
    ∃ f : Front, d' = { d with toFront := f } ∧ f.wal.closed = d.wal.closed ∧
      ((f.mem = d.mem ∧ f.wal = d.wal ∧ d.seq ≤ f.seq) ∨ (f.seq = d.seq + 1 ∧
        f.wal.highSeq = f.seq ∧ insertBatch d.mem (d.seq + 1) (collapseBatch b) = some f.mem)) := by
  obtain ⟨⟨f, _⟩, hf, hw⟩ := Option.bind_eq_some_iff.mp hw
  cases hw
  refine ⟨f, rfl, ?_⟩
  unfold Front.write at hf
  split_ifs at hf
  · cases hf
    exact ⟨rfl, .inl ⟨rfl, rfl, le_rfl⟩⟩
  dsimp only at hf
  split at hf
  · cases hf
    exact ⟨rfl, .inl ⟨rfl, rfl, Nat.le_succ _⟩⟩
  · next w happly =>
    obtain ⟨m, hm, hf⟩ := Option.bind_eq_some_iff.mp hf
    cases hf
    unfold Wal.apply at happly
    dsimp only at happly
    split_ifs at happly
    cases happly
    exact ⟨rfl, .inr ⟨rfl, rfl, hm⟩⟩

theorem Inv.write (h : d.Inv) (hw : d.write b = some (d', status)) : d'.Inv := by
  obtain ⟨⟨m, w, q, c⟩, rfl, -, ⟨rfl, -, hle⟩ | ⟨rfl, -, hm⟩⟩ := write_eq_some hw
  · exact
      { h with
        entrySeq := fun e he => (h.entrySeq e he).trans hle
        rangeSeq := fun r hr => (h.rangeSeq r hr).trans hle
        tableSeq := fun t ht => (h.tableSeq t ht).trans hle
        snapshots_le := fun s hs => (h.snapshots_le s hs).trans hle }
  · have hle : d.seq ≤ d.seq + 1 := Nat.le_succ _
    obtain ⟨-, hperm, hnew, hranges⟩ := insertBatch_eq_some h.mem.sorted hm
    have hmem : ∀ e ∈ m.entries, e ∈ d.mem.entries ∨
        e ∈ (collapseBatch b).ops.filterMap (Op.point? (d.seq + 1)) := fun e he =>
      mem_append.mp (hperm.mem_iff.mp he)
    refine
      { h with
        mem := h.mem.insertBatch (fun r hr => Nat.lt_succ_of_le (h.rangeSeq r hr)) hm
        entrySeq := fun e he =>
          (hmem e he).elim (fun he => (h.entrySeq e he).trans hle) fun he => (hnew e he).1.le
        rangeSeq := fun r hr => ?_
        tableSeq := fun t ht => (h.tableSeq t ht).trans hle
        fresher := fun e he t ht => (hmem e he).elim (fun he => h.fresher e he t ht) fun he =>
          (hnew e he).1 ▸ Nat.lt_succ_of_le (h.tableSeq t ht)
        distinct := fun x hx y hy hk hs => ?_
        snapshots_le := fun s hs => (h.snapshots_le s hs).trans hle }
    · rcases mem_append.mp (hranges ▸ hr) with hr | hr
      · exact (h.rangeSeq r hr).trans hle
      · obtain ⟨x, -, rfl⟩ := mem_map.mp hr
        exact le_rfl
    · -- The versions of a batch have one sequence and distinct keys.
      have hsplit : ∀ e ∈ { d with toFront := ⟨m, w, d.seq + 1, c⟩ : DBImpl }.version.entries,
          e ∈ d.version.entries ∨ e ∈ (collapseBatch b).ops.filterMap (Op.point? (d.seq + 1)) := by
        intro e he
        rw [mem_version_entries h.idle]
        rcases (mem_version_entries (by exact h.idle)).mp he with he | he
        · exact (hmem e he).imp_left .inl
        · exact .inl (.inr he)
      rcases hsplit x hx with hx | hx <;> rcases hsplit y hy with hy | hy
      · exact h.distinct x hx y hy hk hs
      · have := h.entry_le hx
        have := (hnew y hy).1
        omega
      · have := h.entry_le hy
        have := (hnew x hx).1
        omega
      · exact inj_on_of_nodup_map (collapse_entries_nodup b (d.seq + 1)) hx hy hk

theorem Inv.walSync (h : d.Inv) : d.walSync.1.Inv := by
  unfold DBImpl.walSync
  split_ifs
  · exact h
  · exact { h with }

theorem flush_eq_some (hf : d.flush = some d') :
    d' = d ∨ ∃ t, d.mem.build d.nextFileNumber = some t ∧ d' = d.roll.install t d.seq := by
  unfold DBImpl.flush at hf
  split_ifs at hf
  · exact .inl (Option.some.inj hf).symm
  · obtain ⟨t, ht, hf⟩ := Option.bind_eq_some_iff.mp hf
    exact .inr ⟨t, ht, (Option.some.inj hf).symm⟩

theorem Inv.flush (h : d.Inv) (hf : d.flush = some d') : d'.Inv := by
  rcases flush_eq_some hf with rfl | ⟨t, ht, rfl⟩
  · exact h
  · obtain ⟨hentries, htombs, -⟩ := MemTable.build_eq_some ht
    refine
      { h with
        idle := rfl
        mem := ⟨.nil, by simp [install, roll], by simp [install, roll], by simp [install, roll]⟩
        entrySeq := by simp [install, roll]
        rangeSeq := by simp [install, roll]
        tableSeq := fun u hu => ?_
        fresher := by simp [install, roll]
        newer := pairwise_cons.mpr ⟨fun a ha x hx y hy => ?_, h.newer⟩
        distinct := h.distinct.of_subset fun e he => ?_ }
    · rcases mem_cons.mp hu with rfl | hu
      · refine u.largestSeq_le (fun e he => h.entrySeq e (hentries ▸ he)) fun r hr => ?_
        exact h.rangeSeq r (mem_sortRanges.mp (htombs ▸ hr))
      · exact h.tableSeq u hu
    · exact h.lt_of_mem_stores ha (hentries ▸ hx) hy
    · rw [mem_version_entries rfl] at he
      rw [mem_version_entries h.idle]
      rcases he with he | ⟨u, hu, he⟩
      · simp [install, roll] at he
      · rcases mem_cons.mp hu with rfl | hu
        · exact .inl (hentries ▸ he)
        · exact .inr ⟨u, hu, he⟩

theorem Inv.syncFlush (h : d.Inv) (hf : d.syncFlush = some d') : d'.Inv := by
  unfold DBImpl.syncFlush at hf
  split_ifs at hf
  · exact h.walSync.flush hf
  · exact Option.some.inj hf ▸ h.walSync

/-! ### Compactions -/

theorem mem_observableNow {s : ℕ} : s ∈ d.observableNow ↔ s = d.seq ∨ s ∈ d.snapshots := by
  rw [observableNow, (perm_insertionSort _ _).mem_iff, mem_dedup, mem_cons]

theorem pairwise_observableNow : d.observableNow.Pairwise (· < ·) := by
  have hnodup : d.observableNow.Nodup :=
    (perm_insertionSort _ _).nodup_iff.mpr (nodup_dedup _)
  exact ((pairwise_insertionSort (· ≤ ·) _).and hnodup).imp fun h => lt_of_le_of_ne h.1 h.2

theorem exists_newest : ∃ s, d.observableNow.getLast? = some s ∧ d.seq ≤ s := by
  have hmem : d.seq ∈ d.observableNow := mem_observableNow.mpr (.inl rfl)
  have hne := ne_nil_of_mem hmem
  refine ⟨_, getLast?_eq_some_getLast hne, ?_⟩
  have hsort : d.observableNow.Pairwise (· ≤ ·) := pairwise_observableNow.imp le_of_lt
  obtain ⟨i, hi, heq⟩ := mem_iff_getElem.mp hmem
  rw [getLast_eq_getElem, ← heq]
  rcases (Nat.le_sub_one_of_lt hi).lt_or_eq with hlt | hlast
  · exact pairwise_iff_getElem.mp hsort _ _ hi (by omega) hlt
  · exact le_of_eq (by simp [hlast])

variable {p : Picked}

theorem pick_eq_some (hp : d.pick = some p) :
    ∃ t ts, d.l0 = t :: ts ∧ p.inL0 = d.l0 ∧ p.inL1 = d.l1.filter (overlaps (hull t ts)) ∧
      p.keepL1 = d.l1.filter fun u => !overlaps (hull t ts) u := by
  unfold pick at hp
  split_ifs at hp
  split at hp
  · cases hp
  · next t ts heq =>
    cases hp
    exact ⟨t, ts, heq, rfl, rfl, rfl⟩

theorem mem_inputs (hp : d.pick = some p) (ht : t ∈ p.inputs) : t ∈ d.l0 ++ d.l1 := by
  obtain ⟨_, _, -, h₀, h₁, -⟩ := pick_eq_some hp
  rcases mem_append.mp ht with ht | ht
  · exact mem_append_left _ (h₀ ▸ ht)
  · exact mem_append_right _ (mem_of_mem_filter (h₁ ▸ ht))

/-- What stays of level 1 lies on one side of the inputs. -/
theorem Inv.sides (h : d.Inv) (hp : d.pick = some p) {u : Table} (hu : u ∈ p.keepL1) :
    u ∈ d.l1 ∧ ((p.above u ∧ ∀ t ∈ p.inputs, t.before u) ∨
      p.above u = false ∧ ∀ t ∈ p.inputs, u.before t) := by
  obtain ⟨t₀, ts, hl0, h₀, h₁, hkeep⟩ := pick_eq_some hp
  obtain ⟨hu, hmiss⟩ := mem_filter.mp (hkeep ▸ hu)
  rw [Bool.not_eq_true'] at hmiss
  have hspan : ∀ {t}, t ∈ p.inL0 → (hull t₀ ts).1 ≤ t.lo ∧ t.hi ≤ (hull t₀ ts).2 :=
    fun ht => hull_le (hl0 ▸ h₀ ▸ ht)
  -- A table of level 1 that meets level 0 is in order with the one that does not.
  have hcross : ∀ {w}, w ∈ p.inL1 → (w.clears u ∨ u.clears w) ∧
      w.lo ≤ (hull t₀ ts).2 ∧ (hull t₀ ts).1 ≤ w.hi := fun {w} hw => by
    obtain ⟨hw, hmeet⟩ := mem_filter.mp (h₁ ▸ hw)
    refine ⟨pairwise_or h.clear hw hu ?_, by simpa [overlaps] using hmeet⟩
    rintro rfl
    exact absurd hmeet (by simp [hmiss])
  have hlh := u.lo_le_hi
  refine ⟨hu, ?_⟩
  rcases not_overlaps.mp hmiss with hlt | hlt
  · refine .inl ⟨all_eq_true.mpr fun t ht => decide_eq_true ((hspan ht).2.trans_lt hlt),
      fun t ht => ?_⟩
    rcases mem_append.mp ht with ht | ht
    · exact Table.before_of_endsBelow ((hspan ht).2.trans_lt hlt)
    · obtain ⟨hor, hle, -⟩ := hcross ht
      exact (hor.resolve_right fun hc => (hc.1.lo_lt.trans_le (hle.trans hlt.le)).false).1
  · refine .inr ⟨?_, fun t ht => ?_⟩
    · have ht₀ : t₀ ∈ p.inL0 := by rw [h₀, hl0]; exact mem_cons_self
      have hnot : ¬ t₀.hi < u.lo := fun hhi =>
        ((hhi.trans_le (hlh.trans hlt.le)).trans_le ((hspan ht₀).1.trans t₀.lo_le_hi)).false
      exact all_eq_false.mpr ⟨t₀, ht₀, by simpa using hnot⟩
    · rcases mem_append.mp ht with ht | ht
      · exact Table.before_of_endsBelow (hlt.trans_le (hspan ht).1)
      · obtain ⟨hor, -, hle⟩ := hcross ht
        exact (hor.resolve_left fun hc =>
          ((hc.1.hi_le.trans hlh).trans_lt (hlt.trans_le hle)).false).1

theorem Inv.mem_l1 (h : d.Inv) (hp : d.pick = some p) {u : Table} (hu : u ∈ p.keepL1) : u ∈ d.l1 :=
  (h.sides hp hu).1

theorem Inv.inputs_before (h : d.Inv) (hp : d.pick = some p) {u : Table} (hu : u ∈ p.keepL1)
    (ha : p.above u) : ∀ t ∈ p.inputs, t.before u :=
  ((h.sides hp hu).2.resolve_right fun hs => by simp [hs.1] at ha).2

theorem Inv.before_inputs (h : d.Inv) (hp : d.pick = some p) {u : Table} (hu : u ∈ p.keepL1)
    (ha : ¬ p.above u) : ∀ t ∈ p.inputs, u.before t :=
  ((h.sides hp hu).2.resolve_left fun hs => ha hs.1).2

theorem Inv.clears_keepL1 (h : d.Inv) (hp : d.pick = some p) : p.keepL1.Pairwise Table.clears := by
  obtain ⟨_, _, -, -, -, hfilter⟩ := pick_eq_some hp
  exact hfilter ▸ h.clear.sublist filter_sublist

theorem exists_mem_inputs (hp : d.pick = some p) : ∃ t, t ∈ p.inputs := by
  obtain ⟨t, ts, hl0, h₀, -⟩ := pick_eq_some hp
  exact ⟨t, mem_append_left _ (by rw [h₀, hl0]; exact mem_cons_self)⟩

theorem Inv.apart (h : d.Inv) (hp : d.pick = some p) : MergedIter.Apart p.contents := by
  obtain ⟨_, _, -, h₀, h₁, -⟩ := pick_eq_some hp
  have hne : ∀ x y : Entry, y.seq < x.seq → x.ikey ≠ y.ikey := fun x y hlt heq =>
    hlt.ne (Entry.tag_eq_of_ikey heq).2.symm
  have htables := pairwise_append.mp h.newer
  have hsub : ∀ y ∈ p.inL1.flatMap (·.entries), y ∈ d.l1.flatMap (·.entries) := fun y hy => by
    obtain ⟨t, ht, hy⟩ := mem_flatMap.mp hy
    exact mem_flatMap.mpr ⟨t, mem_of_mem_filter (h₁ ▸ ht), hy⟩
  unfold Picked.contents
  rw [h₀]
  refine pairwise_append.mpr
    ⟨htables.1.imp fun hab x hx y hy => hne x y (hab x hx y hy), ?_, fun a ha b hb x hx y hy => ?_⟩
  · split_ifs
    · exact .nil
    · exact pairwise_singleton _ _
  · split_ifs at hb
    · cases hb
    · obtain rfl := mem_singleton.mp hb
      exact hne x y (htables.2.2 a ha _ (mem_singleton_self _) x hx y (hsub y hy))

theorem Inv.exists_merge (h : d.Inv) (hp : d.pick = some p) :
    ∃ m, (p.inL0.foldl MergedIter.addTable {}).addRun p.inL1 = some m ∧ m.Over p.contents := by
  obtain ⟨_, _, -, -, h₁, -⟩ := pick_eq_some hp
  have hempty : ({} : MergedIter).Over [] := ⟨rfl, by simp⟩
  have haccepts : ConcatIter.accepts p.inL1 :=
    (accepted_iff.mpr (h₁ ▸ h.clear.sublist filter_sublist)).1
  exact (hempty.addTables p.inL0).addRun haccepts

theorem contents_legal (p : Picked) : ∀ e ∈ p.contents.flatten, e.seq ≤ kMaxSeqNum := fun e he => by
  obtain ⟨t, -, he⟩ := mem_flatMap.mp (p.flatten_contents ▸ he)
  exact t.legal e he

variable {r : TableRoller}

theorem Inv.outputs_eq_some (h : d.Inv) (hp : d.pick = some p) (hr : d.outputs p = some r) :
    ∃ m : MergedIter, m.Over p.contents ∧ (d.compaction p).run p.contents.flatten.length m
      { maxBytes := d.flushBytes, nextFileNumber := d.nextFileNumber } = some r := by
  obtain ⟨m, hm, hr⟩ := Option.bind_eq_some_iff.mp hr
  obtain ⟨newest, -, hr⟩ := Option.bind_eq_some_iff.mp hr
  obtain ⟨m', hm', hover⟩ := h.exists_merge hp
  cases hm.symm.trans hm'
  dsimp only at hr
  split_ifs at hr
  exact ⟨m, hover, p.length_contents ▸ hr⟩

theorem mem_of_mem_survivors {x : MemRange} (hx : x ∈ (d.compaction p).survivors) :
    ∃ t ∈ p.inputs, x ∈ t.tombstones :=
  mem_flatMap.mp (mem_of_mem_filter hx)

/-- What the outputs of a compaction are made of, and where they begin. -/
structure Outputs (d : DBImpl) (p : Picked) (r : TableRoller) : Prop where
  entries : r.outputs.flatMap (·.entries) = (d.kept p).map Prod.fst
  links : Table.Links (d.tombstones p) none r.outputs
  firsts : r.outputs.tail.map (·.entries.head?) =
    (rollPoints d.flushBytes none (d.kept p)).map some
  tombstones : r.outputs = [] → d.tombstones p = []

theorem Inv.outputs_spec (h : d.Inv) (hp : d.pick = some p) (hr : d.outputs p = some r) :
    (merged p.contents).Pairwise Entry.Lt ∧ d.Outputs p r := by
  obtain ⟨m, hover, hrun⟩ := h.outputs_eq_some hp hr
  obtain ⟨hs, hout, hlinks, hfirsts, hnil⟩ :=
    Compaction.run_eq_some (h.apart hp) hover (contents_legal p) rfl rfl hrun
  refine ⟨hs, hout, hlinks, hfirsts, fun ho => ?_⟩
  rw [tombstones, hnil ho]
  rfl

variable (ho : d.Outputs p r)
include ho

theorem Outputs.exists_input (ht : t ∈ r.outputs) (he : e ∈ t.entries) :
    ∃ u ∈ p.inputs, e ∈ u.entries := by
  have hmem : e ∈ (d.kept p).map Prod.fst := ho.entries ▸ mem_flatMap.mpr ⟨t, ht, he⟩
  exact mem_flatMap.mp (p.flatten_contents ▸ mem_merged.mp (Compaction.emit_sublist.subset hmem))

theorem Outputs.eq_nil_iff : r.outputs = [] ↔ d.kept p = [] := by
  constructor
  · intro hnil
    simpa [hnil] using ho.entries.symm
  · intro hnil
    refine eq_nil_iff_forall_not_mem.mpr fun t ht => ?_
    have hmem : t.entries.head t.nonempty ∈ r.outputs.flatMap (·.entries) :=
      mem_flatMap.mpr ⟨t, ht, head_mem _⟩
    simp [ho.entries, hnil] at hmem

theorem Outputs.smallestKey (ht : t ∈ r.outputs) :
    t.check.smallestKey = (t.entries.head t.nonempty).ikey := by
  obtain ⟨_, hpiece⟩ := ho.links.piece ht
  exact hpiece.smallestKey

theorem Outputs.yields_iff :
    (∀ t ∈ r.outputs.tail, Yields (d.tombstones p) t.check.smallestKey) ↔
      ∀ e ∈ rollPoints d.flushBytes none (d.kept p), Yields (d.tombstones p) e.ikey := by
  have hmem : ∀ e, e ∈ rollPoints d.flushBytes none (d.kept p) ↔
      ∃ t ∈ r.outputs.tail, t.entries.head t.nonempty = e := fun e => by
    have hsome : some e ∈ (rollPoints d.flushBytes none (d.kept p)).map some ↔
        ∃ t ∈ r.outputs.tail, t.entries.head? = some e := by rw [← ho.firsts, mem_map]
    have hhead : ∀ t : Table, t.entries.head? = some e ↔ t.entries.head t.nonempty = e := fun t => by
      rw [head?_eq_some_head t.nonempty, Option.some.injEq]
    simpa [hhead] using hsome
  constructor
  · intro hy e he
    obtain ⟨t, ht, rfl⟩ := (hmem e).mp he
    exact ho.smallestKey (mem_of_mem_tail ht) ▸ hy t ht
  · intro hy t ht
    exact ho.smallestKey (mem_of_mem_tail ht) ▸ hy _ ((hmem _).mpr ⟨t, ht, rfl⟩)

/-- A table of level 1 that stays below the inputs is before every output. -/
theorem Outputs.before {u : Table} (hu : ∀ t ∈ p.inputs, u.before t) (ht : t ∈ r.outputs) :
    u.before t := by
  obtain ⟨w, hw, he⟩ := ho.exists_input ht (head_mem t.nonempty)
  exact (hu w hw).of_le (ho.smallestKey ht ▸ w.bounds.lower _ he)

theorem Outputs.key_lt {u : Table} (hu : ∀ t ∈ p.inputs, t.before u) (ht : t ∈ r.outputs)
    (he : e ∈ t.entries) : e.key < u.lo := by
  obtain ⟨w, hw, he⟩ := ho.exists_input ht he
  exact (hu w hw).key_lt he

theorem Outputs.clears_above_iff {u : Table} (hu : ∀ t ∈ p.inputs, t.before u) :
    (∀ t ∈ r.outputs, t.clears u) ↔ (∀ x ∈ d.tombstones p, ¬ x.endUnbounded) ∧
      Yields (d.tombstones p) u.check.smallestKey := by
  by_cases hnil : r.outputs = []
  · simp [hnil, ho.tombstones hnil, Yields]
  · refine ho.links.clears_above_iff hnil (fun t ht e he => ho.key_lt hu ht he) fun x hx hb => ?_
    obtain ⟨w, hw, hxw⟩ := mem_of_mem_survivors (mem_sortRanges.mp hx)
    exact (w.bounds.fin x hxw hb).trans (hu w hw).hi_le

/-- Level 1 after a compaction: what stays below the inputs, what was written, what stays above. -/
theorem Outputs.nextL1_eq (h : d.Inv) (hp : d.pick = some p) : p.nextL1 r =
    p.keepL1.filter (!p.above ·) ++ (r.outputs ++ p.keepL1.filter (p.above ·)) := by
  obtain ⟨t₀, ht₀⟩ := exists_mem_inputs hp
  have hkeep : p.keepL1.Pairwise (·.lo < ·.lo) := (h.clears_keepL1 hp).imp fun hc => hc.1.lo_lt
  have hlo : ∀ t ∈ r.outputs, t.lo = t.firstKey := fun t ht => by
    obtain ⟨_, hpiece⟩ := ho.links.piece ht
    exact hpiece.lo_eq
  refine sortTables_eq ?_ (pairwise_append.mpr ⟨hkeep.sublist filter_sublist,
    pairwise_append.mpr ⟨?_, hkeep.sublist filter_sublist, fun t ht u hu => ?_⟩, fun u hu t ht => ?_⟩)
  · have hperm := filter_append_perm (p.above ·) p.keepL1
    refine (perm_append_comm_assoc _ _ _).trans (Perm.trans ?_ perm_append_comm)
    exact (perm_append_comm.trans hperm).append_left _
  · exact ho.links.firstKey_lt.imp_of_mem fun ha hb hlt => by rwa [hlo _ ha, hlo _ hb]
  · obtain ⟨hu, ha⟩ := mem_filter.mp hu
    exact hlo t ht ▸ ho.key_lt (h.inputs_before hp hu ha) ht (head_mem t.nonempty)
  · obtain ⟨hu, ha⟩ := mem_filter.mp hu
    have hbefore := h.before_inputs hp hu (by simpa using ha)
    rcases mem_append.mp ht with ht | ht
    · exact (ho.before hbefore ht).lo_lt
    · obtain ⟨ht, ha'⟩ := mem_filter.mp ht
      exact (hbefore t₀ ht₀).lo_lt.trans (h.inputs_before hp ht ha' t₀ ht₀).lo_lt

/-- The three checks of level 1 pass after a compaction exactly where its tombstones respect the files
around them. -/
theorem Outputs.accepted_iff (h : d.Inv) (hp : d.pick = some p) :
    (ConcatIter.accepts (p.nextL1 r) ∧ isRun (p.nextL1 r) ∧
      onlyTheLastMayBeUnbounded (p.nextL1 r)) ↔ d.Separates p := by
  have hkeep := h.clears_keepL1 hp
  rw [Engine.accepted_iff, ho.nextL1_eq h hp, pairwise_append, pairwise_append, ho.links.clears_iff,
    ho.yields_iff]
  constructor
  · rintro ⟨-, ⟨hroll, -, hup⟩, hdown⟩
    refine ⟨hroll, fun u hu => ?_⟩
    split_ifs with ha
    · exact (ho.clears_above_iff (h.inputs_before hp hu ha)).mp fun t ht =>
        hup t ht u (mem_filter.mpr ⟨hu, ha⟩)
    · intro hne
      obtain ⟨t, ht⟩ := exists_mem_of_ne_nil _ (mt ho.eq_nil_iff.mp hne)
      exact (hdown u (mem_filter.mpr ⟨hu, by simpa using ha⟩) t (mem_append_left _ ht)).2
  · rintro ⟨hroll, hsides⟩
    refine ⟨hkeep.sublist filter_sublist, ⟨hroll, hkeep.sublist filter_sublist, fun t ht u hu => ?_⟩,
      fun u hu t ht => ?_⟩
    · obtain ⟨hu, ha⟩ := mem_filter.mp hu
      have hside := hsides u hu
      rw [if_pos ha] at hside
      exact (ho.clears_above_iff (h.inputs_before hp hu ha)).mpr hside t ht
    · obtain ⟨hu, ha⟩ := mem_filter.mp hu
      have ha : ¬ p.above u := by simpa using ha
      have hbefore := h.before_inputs hp hu ha
      have hside := hsides u hu
      rw [if_neg ha] at hside
      rcases mem_append.mp ht with ht | ht
      · exact ⟨ho.before hbefore ht, hside fun hnil => by simp [ho.eq_nil_iff.mpr hnil] at ht⟩
      · -- Two tables that stay are in the order they were in.
        obtain ⟨ht, ha'⟩ := mem_filter.mp ht
        obtain ⟨t₀, ht₀⟩ := exists_mem_inputs hp
        have hlt := (hbefore t₀ ht₀).lo_lt.trans (h.inputs_before hp ht ha' t₀ ht₀).lo_lt
        have hne : u ≠ t := by rintro rfl; exact hlt.false
        exact (pairwise_or hkeep hu ht hne).resolve_right fun hc => (hlt.trans hc.1.lo_lt).false

/-- What level 1 holds after a compaction comes from the tables before it. -/
theorem Outputs.mem_nextL1 (h : d.Inv) (hp : d.pick = some p) (ht : t ∈ p.nextL1 r) :
    (∀ q, (∀ u ∈ d.l0 ++ d.l1, u.check.largestSeq ≤ q) → t.check.largestSeq ≤ q) ∧
      ∀ e ∈ t.entries, ∃ u ∈ d.l0 ++ d.l1, e ∈ u.entries := by
  rcases mem_append.mp (mem_sortTables.mp ht) with ht | ht
  · have htm := mem_append_right d.l0 (h.mem_l1 hp ht)
    exact ⟨fun q hq => hq t htm, fun e he => ⟨t, htm, he⟩⟩
  · obtain ⟨_, hpiece⟩ := ho.links.piece ht
    refine ⟨fun q hq => hpiece.largestSeq_le (fun e he => ?_) fun x hx => ?_, fun e he => ?_⟩
    · obtain ⟨u, hu, he⟩ := ho.exists_input ht he
      exact (u.seq_le_largestSeq he).trans (hq u (mem_inputs hp hu))
    · obtain ⟨u, hu, hxu⟩ := mem_of_mem_survivors (mem_sortRanges.mp hx)
      exact (u.range_seq_le_largestSeq hxu).trans (hq u (mem_inputs hp hu))
    · obtain ⟨u, hu, he⟩ := ho.exists_input ht he
      exact ⟨u, mem_inputs hp hu, he⟩

omit ho

theorem doCompact_eq_some (hp : d.pick = some p) (hc : d.doCompact p = some d') :
    ∃ r, d.outputs p = some r ∧
      d' = { d with l0 := [], l1 := p.nextL1 r, nextFileNumber := r.nextFileNumber } := by
  obtain ⟨r, hr, hc⟩ := Option.bind_eq_some_iff.mp hc
  split_ifs at hc
  cases hc
  obtain ⟨_, _, -, h₀, -⟩ := pick_eq_some hp
  have hl0 : d.l0.filter (fun t => t.number ∉ p.inputs.map (·.number)) = [] := by
    refine filter_eq_nil_iff.mpr fun t ht => ?_
    have : t.number ∈ p.inputs.map (·.number) :=
      mem_map_of_mem (mem_append_left _ (h₀ ▸ ht))
    simp [this]
  rw [hl0]
  exact ⟨r, hr, rfl⟩

theorem maybeCompact_eq_some (hc : d.maybeCompact = some d') :
    d' = d ∨ ∃ p, d.pick = some p ∧ d.doCompact p = some d' := by
  unfold DBImpl.maybeCompact at hc
  split at hc
  · exact .inl (Option.some.inj hc).symm
  · next p hp => exact .inr ⟨p, hp, hc⟩

theorem Inv.doCompact (h : d.Inv) (hp : d.pick = some p) (hsep : d.Separates p)
    (hc : d.doCompact p = some d') : d'.Inv := by
  obtain ⟨r, hr, rfl⟩ := doCompact_eq_some hp hc
  have ho := (h.outputs_spec hp hr).2
  refine
    { h with
      tableSeq := fun t ht => (ho.mem_nextL1 h hp ht).1 _ h.tableSeq
      fresher := fun e he t ht => ?_
      newer := pairwise_singleton _ _
      clear := accepted_iff.mp ((ho.accepted_iff h hp).mpr hsep)
      distinct := h.distinct.of_subset fun e he => ?_ }
  · have hlt := h.fresher e he
    have hle := (ho.mem_nextL1 h hp ht).1 (e.seq - 1) fun u hu => Nat.le_sub_one_of_lt (hlt u hu)
    obtain ⟨t₀, _, hl0, -⟩ := pick_eq_some hp
    have := hlt t₀ (by simp [hl0])
    omega
  · rw [mem_version_entries h.idle]
    refine ((mem_version_entries (by exact h.idle)).mp he).imp_right ?_
    rintro ⟨t, ht, he⟩
    exact (ho.mem_nextL1 h hp ht).2 e he

end DBImpl

end Rift.Engine
