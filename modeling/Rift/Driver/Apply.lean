import Rift.Driver.Persist
import Rift.Kv.View

/-!
# Applying committed entries

What a committed entry does to a range: the driver's apply loop (`drain` in `store/node.go` with
`store/txnapply.go` and `applySplit` in `store/machine.go`) and the replay the snapshots are checked
against (`store/replay.go`). Both stage writes in a batch and read the engine, so each flushes the
batch before a step that reads.

## Main definitions

* `applyTxnTo`, `applyTxn` — the shared apply path of a transaction step, and the driver's wrapper
* `Machine` — a range's descriptor and store with the writes staged so far
* `Machine.replayOne`, `Replay.apply` — the replay
* `Machine.applySplit`, `Machine.applyEntry`, `Machine.applyBatch` — the driver
-/

namespace Rift.Driver

open Kv Model

/-- What was staged, or nothing more where the operation refused. -/
def orKeep (b : Batch) : Except KvError Batch → Batch
  | .ok b' => b'
  | .error _ => b

/-- The apply path of a transaction step. -/
def applyTxnTo (s : Store) (b : Batch) (c : TxnCommand) : Batch :=
  match c.op with
  | .prewrite =>
    orKeep b (s.prewriteInto b c.key
      { primary := c.primary, startTS := c.startTS, deadline := c.deadline } c.value.1)
  | .commitKey => orKeep b (s.commitInto b c.key c.startTS c.commitTS)
  | .rollbackKey => orKeep b (s.rollbackInto b c.key c.startTS)
  | .putTxnRecord =>
    orKeep b (s.putTxnInto b c.key
      { status := c.status, startTS := c.startTS, commitTS := c.commitTS })
  | .txnGet => orKeep b (s.noteReadInto b c.key c.readTS)
  | .resolveStatus =>
    let l : Lock := { primary := c.key, startTS := c.startTS, deadline := c.deadline }
    if (s.resolveLock l c.expireAt true).1 ≠ .back then b
    else match s.txn c.key c.startTS with
      | none => orKeep b (s.putTxnInto b c.key { status := .rolledBack, startTS := c.startTS })
      | some _ => b
  | .applyResolution =>
    match s.lock c.key with
    | none => b
    | some l =>
      if l.startTS ≠ c.startTS then b
      else orKeep b (s.applyResolutionInto b c.key l
        (if c.status = .rolledBack then .back else .forward) c.commitTS)
  | .other _ _ => b

/-- What a writing or resolving step reports to the client that issued it. -/
structure TxnResult where
  rejected : Bool := false
  decided : Bool := false
  rollback : Bool := false
  commitTS : Timestamp := {}
  deriving DecidableEq

/-- Stage the record that makes a stalled transaction dead. -/
def declareDead (s : Store) (b : Batch) (primary : Key) (startTS : Timestamp) : Batch :=
  orKeep b (s.putTxnInto b primary { status := .rolledBack, startTS := startTS })

/-- A refusal is an outcome that is reported. -/
def reported (b : Batch) : Except KvError Batch → Batch × TxnResult
  | .ok b' => (b', {})
  | .error _ => (b, { rejected := true })

/-- Apply one transaction step on a running replica. -/
def applyTxn (s : Store) (b : Batch) (c : TxnCommand) : Batch × TxnResult :=
  match c.op with
  | .prewrite =>
    reported b (s.prewriteInto b c.key
      { primary := c.primary, startTS := c.startTS, deadline := c.deadline } c.value.1)
  | .putTxnRecord =>
    reported b (s.putTxnInto b c.key
      { status := c.status, startTS := c.startTS, commitTS := c.commitTS })
  | .resolveStatus =>
    match s.txn c.key c.startTS with
    | some rec =>
      (applyTxnTo s b c,
        { decided := true, rollback := rec.status ≠ .committed, commitTS := rec.commitTS })
    | none =>
      if c.expireAt.lessEq c.deadline then (applyTxnTo s b c, {})
      else (applyTxnTo s (declareDead s b c.key c.startTS) c, { decided := true, rollback := true })
  | _ => (applyTxnTo s b c, {})

/-! ### The machine of a range -/

/-- A copy of a bound: the source's copy of an empty one is no bound. -/
def copyBound (b : Str) : Option Str := if b.1 = [] then none else some b

/-- A copy of a descriptor. -/
def RangeDescriptor.clone (d : RangeDescriptor) : RangeDescriptor :=
  { d with fin := d.fin.bind copyBound }

/-- A range cut at a key, with a new identifier for the right part. -/
def SplitSpec.cut (d : RangeDescriptor) (key : Key) (id : RangeID) : SplitSpec where
  key := key
  left := { d with fin := copyBound key, epoch := d.epoch + 1 }
  right := { id := id, start := key, fin := d.fin.bind copyBound, epoch := 1 }

/-- A split still speaks of the range's current extent. -/
def SplitSpec.current (spec : SplitSpec) (desc : RangeDescriptor) : Bool :=
  spec.left.epoch = desc.epoch + 1 && spec.left.start.1 = desc.start.1 &&
    spec.right.endBytes = desc.endBytes

/-- A range's descriptor and store, with the writes staged since the last flush. -/
structure Machine where
  desc : RangeDescriptor
  store : Store
  staged : Batch := []
  deriving DecidableEq

namespace Machine

variable (m : Machine)

def flush : Machine := { m with store := m.store.flush m.staged, staged := [] }

/-- The state a machine can be asked for: descriptor, mark and records. -/
def state : RangeDescriptor × Timestamp × List (Bytes × Bytes) :=
  (m.flush.desc, m.flush.store.gcMark, m.flush.store.records)

/-- Replace the records of a machine, in one batch. -/
def ingest (rs : List (Bytes × Bytes)) (mark : Timestamp) : Machine :=
  let (b, s) := m.store.ingestRecordsInto m.staged rs mark
  { m with store := s, staged := b }.flush

end Machine

/-! ### The replay -/

namespace Machine

/-- Apply one committed entry to a replayed machine. -/
def replayOne (m : Machine) (e : Entry) : Machine :=
  if e.data = [] then m
  else if isTxnCommand e.data then
    match decodeTxnCommand e.data with
    | none => m
    | some c =>
      if !m.desc.contains c.key then m
      else
        let m := m.flush
        { m with staged := applyTxnTo m.store m.staged c }.flush
  else if isSplitCommand e.data then
    match decodeSplitCommand e.data with
    | none => m
    | some spec =>
      if !spec.current m.desc then m
      else
        let m := m.flush
        let kept := m.store.records.filter fun r => (m.store.userKeyOf r.1).any spec.left.contains
        { m.ingest kept m.store.gcMark with desc := spec.left }
  else
    let c := decodeCmd e.data
    if c.op = opGC then
      let m := m.flush
      match m.store.advanceGCInto m.staged c.ts with
      | .ok (b, s, _) => { m with store := s, staged := b }.flush
      | .error _ => { m with staged := [] }
    else if c.op = opPut then
      if m.desc.contains c.key then
        { m with staged := orKeep m.staged (m.store.putInto m.staged c.key c.ts c.value.1) }
      else m
    else m

end Machine

/-- A machine rebuilt from a payload in an engine that has never been anything else. -/
def newReplay (base : Bytes) : Option Machine := do
  let (desc, mark, recs) ← decodeMachine base
  return ({ desc := desc, store := { ns := rangePrefix desc.id } } : Machine).ingest recs mark

/-- A resumable replay: the machine and how many entries it has consumed. -/
structure Replay where
  machine : Machine
  next : ℕ := 0

/-- Advance a replay to cover a growing prefix of the log. -/
def Replay.apply (r : Replay) (entries : List Entry) : Replay where
  machine := ((entries.drop r.next).foldl Machine.replayOne r.machine).flush
  next := max r.next entries.length

/-! ### The driver -/

/-- A record under another range's keyspace. -/
def reNamespace (r : Bytes × Bytes) (src dst : Bytes) : Bytes × Bytes :=
  if r.1.length < src.length then r else (dst ++ r.1.drop src.length, r.2)

namespace Machine

/-- The records of a machine with the user key each belongs to. -/
def keyed (m : Machine) : List (Key × (Bytes × Bytes)) :=
  m.store.records.filterMap fun r => (m.store.userKeyOf r.1).map (·, r)

/-- The records a split moves to the right range, under its keyspace. -/
def movedRecords (m : Machine) (spec : SplitSpec) : List (Bytes × Bytes) :=
  (m.keyed.filter fun kr => spec.right.contains kr.1).map fun kr =>
    reNamespace kr.2 m.store.ns (rangePrefix spec.right.id)

/-- The records a split leaves. -/
def keptRecords (m : Machine) (spec : SplitSpec) : List (Bytes × Bytes) :=
  (m.keyed.filter fun kr => !spec.right.contains kr.1 && spec.left.contains kr.1).map (·.2)

/-- A machine for a range born on this engine, with its payload ingested. -/
def born (db : Version) (desc : RangeDescriptor) (rs : List (Bytes × Bytes)) (mark : Timestamp) :
    Machine :=
  ({ desc := desc, store := { ns := rangePrefix desc.id, db := db } } : Machine).ingest rs mark

/-- The right range of a split, created on an engine: its records are written, then its descriptor and
its first snapshot, and the records once more as that snapshot is adopted. -/
def bearRight (db : Version) (spec : SplitSpec) (rs : List (Bytes × Bytes)) (mark : Timestamp)
    (conf : Configuration) : Machine :=
  let right := born db spec.right.clone rs mark
  let db := applyTo right.store.db
    [.set (keyDescOf spec.right.id) (encodeDesc spec.right),
     .set (keySnapshotOf spec.right.id)
       (encodeSnapshot { conf := conf } (encodeMachine spec.right mark rs))]
  { right with store := { right.store with db := db } }.ingest rs mark

/-- Apply a split on a machine that runs the ranges in `ranges`, with the right range if it is created
now; `none` is the panic over a record that neither side covers. -/
def applySplit (m : Machine) (conf : Configuration) (ranges : List RangeID) (spec : SplitSpec) :
    Option ((Machine × List RangeID) × Option Machine) :=
  if !spec.current m.desc then some ((m, ranges), none)
  else if m.keyed.any fun kr => !spec.right.contains kr.1 && !spec.left.contains kr.1 then none
  else
    let moved := m.movedRecords spec
    let mark := m.store.gcMark
    let left := { m.ingest (m.keptRecords spec) mark with desc := spec.left.clone }
    if spec.right.id ∈ ranges then some ((left, ranges), none)
    else
      let right := bearRight left.store.db spec moved mark conf
      some (({ left with store := { left.store with db := right.store.db } },
        ranges ++ [spec.right.id]), some right)

/-- Apply one committed entry on a running replica. `conf` is the configuration at the entry. -/
def applyEntry (m : Machine) (conf : Configuration) (ranges : List RangeID) (e : Entry) :
    Option (Machine × List RangeID) :=
  if isTxnCommand e.data then
    match decodeTxnCommand e.data with
    | none => some (m, ranges)
    | some c =>
      if !m.desc.contains c.key then some (m, ranges)
      else
        let m := m.flush
        some ({ m with staged := (applyTxn m.store m.staged c).1 }.flush, ranges)
  else if isSplitCommand e.data then
    let m := m.flush
    match decodeSplitCommand e.data with
    | none => some (m, ranges)
    | some spec => (m.applySplit conf ranges spec).map (·.1)
  else if e.data = [] then some (m, ranges)
  else
    let c := decodeCmd e.data
    if c.op = opGC then
      let m := m.flush
      match m.store.advanceGCInto [] c.ts with
      | .ok (b, s, _) => some ({ m with store := s, staged := b }.flush, ranges)
      | .error _ => some (m, ranges)
    else if m.desc.contains c.key then
      if c.op = opPut then
        some ({ m with staged := orKeep m.staged (m.store.putInto m.staged c.key c.ts c.value.1) },
          ranges)
      else if c.op = opGet then some (m.flush, ranges)
      else some (m, ranges)
    else some (m, ranges)

/-- Apply the committed entries of one Ready. -/
def applyBatch (m : Machine) (conf : Entry → Configuration) (ranges : List RangeID) :
    List Entry → Option (Machine × List RangeID)
  | [] => some (m.flush, ranges)
  | e :: es => do
    let (m, ranges) ← m.applyEntry (conf e) ranges e
    m.applyBatch conf ranges es

/-- Apply one Ready after another. Before each, others write to the engine: raft its bookkeeping, and
other ranges their records. -/
def applyBatches (m : Machine) (conf : Entry → Configuration) (ranges : List RangeID) :
    List (Batch × List Entry) → Option (Machine × List RangeID)
  | [] => some (m, ranges)
  | (other, es) :: rest => do
    let (m, ranges) ← { m with store := m.store.flush other }.applyBatch conf ranges es
    m.applyBatches conf ranges rest

end Machine

/-- Pick where to cut a range, given the keys it holds. -/
def splitKeyFor (keys : List Key) : Option Key :=
  if keys.length < 2 then none else keys[keys.length / 2]?

/-- The split of a range at the middle one of its keys, in engine order. -/
def Machine.splitSpec (m : Machine) (id : RangeID) : Option SplitSpec :=
  (splitKeyFor m.store.keys).map fun key => SplitSpec.cut m.desc key id

/-- The split a replica proposes: a leader with no split of its own under way, once it holds as many
keys as its threshold. -/
def Machine.maybeSplit (m : Machine) (threshold : ℕ) (splitPending isLeader : Bool) (id : RangeID) :
    Option SplitSpec :=
  if threshold = 0 ∨ splitPending ∨ ¬ isLeader then none
  else if m.store.keys.length < threshold then none
  else m.splitSpec id

end Rift.Driver
