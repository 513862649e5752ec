import Rift.Kv.Keys

/-!
# The versioned store

`kv.Store`: data versions, locks, commit records, transaction records and read marks under one
namespace of an engine, and the garbage-collection mark. Every operation that writes stages its writes
in a batch; its checks read the engine's visible state. The statistics counters are left out.

## Main definitions

* `Lock`, `TxnRecord`, `KvError` — what is stored, and why an operation refuses
* `Store` — with `Store.prewriteInto`, `Store.commitInto`, `Store.rollbackInto`, `Store.putTxnInto`,
  `Store.noteReadInto`, `Store.applyResolutionInto`, `Store.putInto`, `Store.advanceGCInto`
* `Store.getTxn`, `Store.readAt`, `Store.readLatest` — the reads
* `Store.records`, `Store.ingestRecordsInto` — the whole state, for snapshots and splits
-/

namespace Rift.Kv

open Model

/-! ### Records -/

/-- What a transaction record says. Bytes above two name no status. -/
inductive TxnStatus
  | pending | committed | rolledBack
  | other (raw : UInt8) (unnamed : 2 < raw)
  deriving DecidableEq

def TxnStatus.toByte : TxnStatus → UInt8
  | .pending => 0
  | .committed => 1
  | .rolledBack => 2
  | .other b _ => b

def TxnStatus.ofByte (b : UInt8) : TxnStatus :=
  if h : 2 < b then .other b h
  else if b = 0 then .pending else if b = 1 then .committed else .rolledBack

@[simp] theorem TxnStatus.ofByte_toByte (s : TxnStatus) : ofByte s.toByte = s := by
  cases s with
  | other b h => simp [ofByte, toByte, h]
  | _ => decide

/-- A transaction's decision, stored on the range of its primary key. -/
structure TxnRecord where
  status : TxnStatus
  startTS : Timestamp
  commitTS : Timestamp := {}
  deriving DecidableEq

/-- A prewritten intent: the key is claimed by a transaction whose decision lives on `primary`. -/
structure Lock where
  primary : Key
  startTS : Timestamp
  deadline : Timestamp := {}
  deriving DecidableEq

/-- Why an operation refuses. -/
inductive KvError
  | unsetTimestamp
  | belowGCMark (ts mark : Timestamp)
  /-- A prewrite found a lock. -/
  | keyIsLocked (key : Key) (startTS : Timestamp)
  /-- A prewrite found a commit record after its start. -/
  | committedAfter (key : Key) (commitTS startTS : Timestamp)
  /-- A prewrite found a read mark after its start. -/
  | readAfter (key : Key) (mark startTS : Timestamp)
  | commitBeforeStart (commitTS startTS : Timestamp)
  | noCommitTimestamp
  | txnAlreadyDecided (primary : Key) (record : TxnRecord)
  /-- A read found a lock at or below its timestamp. -/
  | locked (key : Key) (lock : Lock)
  /-- A read found a commit inside its uncertainty interval. -/
  | uncertain (key : Key) (readTS commitTS : Timestamp)
  /-- A commit record names a version that does not exist. -/
  | missingVersion (key : Key) (commitTS startTS : Timestamp)
  /-- A read landed on a version newer than its timestamp. -/
  | disordered (ts found : Timestamp)
  deriving DecidableEq

def encodeLock (l : Lock) : Bytes := putTS l.startTS ++ (putTS l.deadline ++ putBytes l.primary.1)

def decodeLock (b : Bytes) : Option Lock := do
  let (startTS, b) ← takeTS b
  let (deadline, b) ← takeTS b
  let (primary, b) ← takeBytes b
  if b = [] then some { primary := primary, startTS := startTS, deadline := deadline } else none

def encodeWrite (startTS : Timestamp) (rollback : Bool) : Bytes :=
  putTS startTS ++ [if rollback then 1 else 0]

def decodeWrite (b : Bytes) : Option (Timestamp × Bool) := do
  let (startTS, rest) ← takeTS b
  match rest with
  | [x] => some (startTS, x = 1)
  | _ => none

def encodeTxn (r : TxnRecord) : Bytes := r.status.toByte :: (putTS r.startTS ++ putTS r.commitTS)

def decodeTxn : Bytes → Option TxnRecord
  | [] => none
  | s :: b => do
    let (startTS, b) ← takeTS b
    let (commitTS, _) ← takeTS b
    some { status := .ofByte s, startTS := startTS, commitTS := commitTS }

@[simp] theorem decodeLock_encodeLock (l : Lock) : decodeLock (encodeLock l) = some l := by
  have h := takeBytes_putBytes l.primary []
  rw [List.append_nil] at h
  simp [decodeLock, encodeLock, takeTS_putTS, h]

@[simp] theorem decodeWrite_encodeWrite (startTS : Timestamp) (rollback : Bool) :
    decodeWrite (encodeWrite startTS rollback) = some (startTS, rollback) := by
  cases rollback <;> simp [decodeWrite, encodeWrite, takeTS_putTS]

@[simp] theorem decodeTxn_encodeTxn (r : TxnRecord) : decodeTxn (encodeTxn r) = some r := by
  have h := takeTS_putTS r.commitTS []
  rw [List.append_nil] at h
  simp [decodeTxn, encodeTxn, takeTS_putTS, h]

/-! ### The store -/

/-- An engine's visible state, the namespace the store owns in it, and the low-water mark. -/
structure Store where
  ns : Bytes
  gcMark : Timestamp := {}
  db : Version := .empty
  deriving DecidableEq

namespace Store

variable (s : Store)

/-- The store after a staged batch has been applied. -/
def flush (b : Batch) : Store := { s with db := applyTo s.db b }

/-- What a key's version holds at a timestamp. -/
def versionAt (key : Key) (ts : Timestamp) : Option Bytes := s.db.get (encodeKey s.ns key ts)

/-- A key's lock. -/
def lock (key : Key) : Option Lock := (s.db.get (lockKey s.ns key)).bind decodeLock

/-- A transaction record, by its primary key and start timestamp. -/
def txn (primary : Key) (startTS : Timestamp) : Option TxnRecord :=
  (s.db.get (txnKey s.ns primary startTS)).bind decodeTxn

/-- The first commit record of a key in engine order, and the start timestamp it points at. -/
def newestCommit (key : Key) : Option (Timestamp × Timestamp) :=
  match scan s.db (keyWrites s.ns key) (prefixEnd (keyWrites s.ns key)) with
  | [] => none
  | (k, v) :: _ =>
    match decodeWriteKey s.ns k with
    | none => none
    | some (gotKey, c) =>
      if gotKey ≠ key then none else (decodeWrite v).map fun w => (c, w.1)

/-- The highest timestamp this range has been asked for a key at. -/
def readMark (key : Key) : Option Timestamp :=
  match scan s.db (keyReads s.ns key) (prefixEnd (keyReads s.ns key)) with
  | [] => none
  | (k, _) :: _ =>
    match decodeReadMarkKey s.ns k with
    | none => none
    | some (gotKey, ts) => if gotKey ≠ key then none else some ts

/-! #### Writes -/

def refuseUnset (ts : Timestamp) : Except KvError Unit :=
  if ts.isSet then .ok () else .error .unsetTimestamp

def refuseBelowMark (ts : Timestamp) : Except KvError Unit :=
  if ts.lessEq s.gcMark then .error (.belowGCMark ts s.gcMark) else .ok ()

def refuseIfLocked (key : Key) : Except KvError Unit :=
  match s.lock key with
  | some cur => .error (.keyIsLocked key cur.startTS)
  | none => .ok ()

def refuseIfCommittedAfter (key : Key) (startTS : Timestamp) : Except KvError Unit :=
  match s.newestCommit key with
  | some (commit, _) =>
    if startTS.less commit then .error (.committedAfter key commit startTS) else .ok ()
  | none => .ok ()

/-- Somebody has been answered a read of this key from strictly above the transaction's snapshot. -/
def refuseIfReadAbove (key : Key) (startTS : Timestamp) : Except KvError Unit :=
  match s.readMark key with
  | some mark => if startTS.less mark then .error (.readAfter key mark startTS) else .ok ()
  | none => .ok ()

/-- Stage a lock and a data version for one key. -/
def prewriteInto (b : Batch) (key : Key) (l : Lock) (value : Bytes) : Except KvError Batch := do
  refuseUnset l.startTS
  s.refuseBelowMark l.startTS
  s.refuseIfLocked key
  s.refuseIfCommittedAfter key l.startTS
  s.refuseIfReadAbove key l.startTS
  return b ++ [.set (lockKey s.ns key) (encodeLock l), .set (encodeKey s.ns key l.startTS) value]

/-- Drop the key's lock if `startTS` owns it, and only then. -/
def releaseLockOf (b : Batch) (key : Key) (startTS : Timestamp) : Batch :=
  match s.lock key with
  | some l => if l.startTS ≠ startTS then b else b ++ [.delete (lockKey s.ns key)]
  | none => b

/-- Stage the write record for one key and drop its lock. -/
def commitInto (b : Batch) (key : Key) (startTS commitTS : Timestamp) : Except KvError Batch := do
  refuseUnset startTS
  refuseUnset commitTS
  if commitTS.less startTS then throw (.commitBeforeStart commitTS startTS)
  else
    let b := b ++ [.set (writeKey s.ns key commitTS) (encodeWrite startTS false)]
    return s.releaseLockOf b key startTS

/-- Stage a rollback tombstone for one key and drop its lock and its uncommitted version. -/
def rollbackInto (b : Batch) (key : Key) (startTS : Timestamp) : Except KvError Batch := do
  refuseUnset startTS
  let b := b ++ [.set (writeKey s.ns key startTS) (encodeWrite startTS true)]
  return s.releaseLockOf b key startTS ++ [.delete (encodeKey s.ns key startTS)]

/-- Stage a transaction record, and refuse to overwrite one. -/
def putTxnInto (b : Batch) (primary : Key) (r : TxnRecord) : Except KvError Batch := do
  refuseUnset r.startTS
  if r.status = .committed ∧ !r.commitTS.isSet then throw .noCommitTimestamp
  else match s.txn primary r.startTS with
    | some cur => throw (.txnAlreadyDecided primary cur)
    | none => return b ++ [.set (txnKey s.ns primary r.startTS) (encodeTxn r)]

/-- Stage this key's read mark, if the read is above it. -/
def noteReadInto (b : Batch) (key : Key) (readTS : Timestamp) : Except KvError Batch := do
  refuseUnset readTS
  match s.readMark key with
  | some cur =>
    if readTS.lessEq cur then return b
    else return b ++
      [.delete (readMarkKey s.ns key cur), .set (readMarkKey s.ns key readTS) []]
  | none => return b ++ [.set (readMarkKey s.ns key readTS) []]

/-- What a resolver decided to do about somebody else's lock. -/
inductive Resolution | wait | forward | back
  deriving DecidableEq, Repr

/-- Decide what to do about a lock from the record its primary names, when this store holds it. -/
def resolveLock (l : Lock) (readTS : Timestamp) (primaryOnThisRange : Bool) :
    Resolution × Timestamp :=
  if !primaryOnThisRange then (.wait, {})
  else match s.txn l.primary l.startTS with
    | some rec => if rec.status = .committed then (.forward, rec.commitTS) else (.back, {})
    | none => if readTS.lessEq l.deadline then (.wait, {}) else (.back, {})

/-- Stage the effect of a resolution on one key. -/
def applyResolutionInto (b : Batch) (key : Key) (l : Lock) (r : Resolution) (commitTS : Timestamp) :
    Except KvError Batch :=
  match r with
  | .forward => s.commitInto b key l.startTS commitTS
  | .back => s.rollbackInto b key l.startTS
  | .wait => .ok b

/-- Stage a versioned write. -/
def putInto (b : Batch) (key : Key) (ts : Timestamp) (value : Bytes) : Except KvError Batch := do
  refuseUnset ts
  s.refuseBelowMark ts
  return b ++ [.set (encodeKey s.ns key ts) value]

/-- The versions a collection up to `upTo` drops, from a walk over all versions: of each key the first
version below `upTo` is kept. `cur` is the key being walked and `kept` whether its keeper was met. -/
def gcScan (ns : Bytes) (upTo : Timestamp) : Bytes → Bool → List (Bytes × Bytes) → List Bytes
  | _, _, [] => []
  | cur, kept, (k, _) :: rest =>
    match decodeKey ns k with
    | none => gcScan ns upTo cur kept rest
    | some (key, ts) =>
      let kept := if key.1 ≠ cur then false else kept
      if upTo.lessEq ts then gcScan ns upTo key.1 kept rest
      else if !kept then gcScan ns upTo key.1 true rest
      else k :: gcScan ns upTo key.1 kept rest

/-- The first byte strings of all data versions. -/
def dataSpan (ns : Bytes) : Bytes := ns ++ [dataPrefix]

/-- The versions a collection up to `upTo` removes. -/
def collected (upTo : Timestamp) : List Bytes :=
  gcScan s.ns upTo [] false (scan s.db (dataSpan s.ns) (prefixEnd (dataSpan s.ns)))

/-- Stage a collection: the staged batch, the store with its mark moved, and how many versions go. -/
def advanceGCInto (b : Batch) (upTo : Timestamp) : Except KvError (Batch × Store × ℕ) := do
  refuseUnset upTo
  if upTo.lessEq s.gcMark then return (b, s, 0)
  else return (b ++ (s.collected upTo).map .delete, { s with gcMark := upTo }, (s.collected upTo).length)

/-! #### Reads -/

/-- Walk a key's commit records from the newest on. -/
def scanWrites (key : Key) (readTS ceiling : Timestamp) :
    List (Bytes × Bytes) → Except KvError (Option Bytes)
  | [] => .ok none
  | (k, v) :: rest =>
    match decodeWriteKey s.ns k with
    | none => .ok none
    | some (gotKey, commitTS) =>
      if gotKey ≠ key then .ok none
      else match decodeWrite v with
        | none => scanWrites key readTS ceiling rest
        | some (startTS, rollback) =>
          if readTS.less commitTS then
            if !rollback && commitTS.lessEq ceiling then .error (.uncertain key readTS commitTS)
            else scanWrites key readTS ceiling rest
          else if rollback then scanWrites key readTS ceiling rest
          else match s.versionAt key startTS with
            | none => .error (.missingVersion key commitTS startTS)
            | some x => .ok (some x)

/-- A lock at or below the read blocks it. -/
def refuseIfBlocked (key : Key) (readTS : Timestamp) : Except KvError Unit :=
  match s.lock key with
  | some l => if l.startTS.lessEq readTS then .error (.locked key l) else .ok ()
  | none => .ok ()

/-- The value of a key visible at a timestamp under snapshot isolation; `none` is absent. -/
def getTxn (key : Key) (readTS ceiling : Timestamp) : Except KvError (Option Bytes) := do
  refuseUnset readTS
  s.refuseBelowMark readTS
  s.refuseIfBlocked key readTS
  s.scanWrites key readTS ceiling
    (scan s.db (keyWrites s.ns key) (prefixEnd (keyWrites s.ns key)))

/-- The newest version at or before a timestamp. -/
def readAt (key : Key) (ts : Timestamp) : Except KvError (Option Bytes) := do
  refuseUnset ts
  s.refuseBelowMark ts
  match (scan s.db (keyPrefix s.ns key) (prefixEnd (keyPrefix s.ns key))).filter
      (fun e => encodeKey s.ns key ts ≤ e.1) with
  | [] => return none
  | (k, v) :: _ =>
    match decodeKey s.ns k with
    | none => return none
    | some (gotKey, gotTS) =>
      if gotKey ≠ key then return none
      else if ts.less gotTS then throw (.disordered ts gotTS)
      else return some v

/-- The newest version of a key, with no timestamp bound. -/
def readLatest (key : Key) : Option Bytes :=
  match scan s.db (keyPrefix s.ns key) (prefixEnd (keyPrefix s.ns key)) with
  | [] => none
  | (k, v) :: _ =>
    match decodeKey s.ns k with
    | none => none
    | some (gotKey, _) => if gotKey ≠ key then none else some v

/-! #### The whole state -/

/-- The kinds of records that make up the state machine, in the order an ingest clears them. -/
def kinds : List UInt8 := [dataPrefix, lockPrefix, writePrefix, txnPrefix, readPrefix]

/-- The key belongs to the state machine, and not to raft's own bookkeeping. -/
def owns (engineKey : Bytes) : Bool :=
  s.ns.isPrefixOf engineKey && (engineKey.drop s.ns.length).head?.any (kinds.contains ·)

/-- The whole state machine, in engine order. -/
def records : List (Bytes × Bytes) :=
  (scan s.db s.ns (prefixEnd s.ns)).filter fun e => s.owns e.1

/-- Replace the whole state in one batch. -/
def ingestRecordsInto (b : Batch) (rs : List (Bytes × Bytes)) (mark : Timestamp) : Batch × Store :=
  (b ++ kinds.map (fun kind => .deleteRange (s.ns ++ [kind]) (prefixEnd (s.ns ++ [kind]))) ++
    rs.map (fun r => .set r.1 r.2), { s with gcMark := mark })

/-- The user key a record belongs to, whatever its kind. -/
def userKeyOf (engineKey : Bytes) : Option Key :=
  if s.owns engineKey then
    match engineKey.drop s.ns.length with
    | kind :: _ => (takeMetaKey s.ns kind engineKey).map (·.1)
    | [] => none
  else none

/-- The distinct user keys this store holds versions of, in order. -/
def keys : List Key :=
  ((scan s.db (dataSpan s.ns) (prefixEnd (dataSpan s.ns))).filterMap
    fun e => (decodeKey s.ns e.1).map (·.1)).destutter (· ≠ ·)

end Store

end Rift.Kv
