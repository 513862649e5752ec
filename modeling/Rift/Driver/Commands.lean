import Rift.Kv.Store
import Rift.Raft.Types

/-!
# Commands and payloads of a range

What the driver puts into log entries and snapshots: descriptors, transaction steps, splits, client
commands, and a range's whole state. `store/codec.go`, `store/range.go` and `store/txncmd.go`.
-/

namespace Rift.Driver

open Kv List

/-! ### Numbers and timestamps -/

def putU64 (n : UInt64) : Bytes := putBE 8 n.toNat

def takeU64 (b : Bytes) : Option (UInt64 × Bytes) := do
  let (n, b) ← takeBE 8 b
  return (UInt64.ofNat n, b)

@[simp] theorem takeU64_putU64 (n : UInt64) (r : Bytes) :
    takeU64 (putU64 n ++ r) = some (n, r) := by
  have hn : n.toNat < 256 ^ 8 := n.toNat_lt
  simp [takeU64, putU64, takeBE_putBE hn]

@[simp] theorem length_putU64 (n : UInt64) : (putU64 n).length = 8 := length_putBE 8 n.toNat

/-- A timestamp as two numbers of eight bytes. -/
def putStamp (t : Timestamp) : Bytes := putU64 t.wall.toUInt64 ++ putU64 t.logical.toUInt64

def takeStamp (b : Bytes) : Option (Timestamp × Bytes) := do
  let (w, b) ← takeU64 b
  let (l, b) ← takeU64 b
  return ({ wall := w.toInt64, logical := l.toUInt32 }, b)

@[simp] theorem takeStamp_putStamp (t : Timestamp) (r : Bytes) :
    takeStamp (putStamp t ++ r) = some (t, r) := by
  simp [takeStamp, putStamp, append_assoc]

/-! ### Descriptors -/

abbrev RangeID := UInt64

/-- A range: its identity, its extent and the count of splits it has been through. The end is
exclusive, and `none` is unbounded. -/
structure RangeDescriptor where
  id : RangeID
  start : Str := .empty
  fin : Option Str := none
  epoch : UInt64
  deriving DecidableEq

namespace RangeDescriptor

def contains (d : RangeDescriptor) (key : Key) : Bool :=
  d.start.1 ≤ key.1 && d.fin.all fun e => key.1 < e.1

/-- The end as the byte comparison of the source sees it: unbounded and empty are the same. -/
def endBytes (d : RangeDescriptor) : Bytes := (d.fin.map (·.1)).getD []

theorem contains_iff {d : RangeDescriptor} {key : Key} :
    d.contains key ↔ d.start.1 ≤ key.1 ∧ ∀ e ∈ d.fin, key.1 < e.1 := by
  cases h : d.fin <;> simp [contains, h]

end RangeDescriptor

def firstRange : RangeID := 1

def firstRangeDescriptor : RangeDescriptor := { id := firstRange, epoch := 1 }

/-- The keyspace of one range in the shared engine. -/
def rangePrefix (id : RangeID) : Bytes := 114 :: 47 :: putU64 id

def encodeDesc (d : RangeDescriptor) : Bytes :=
  putU64 d.id ++ (putU64 d.epoch ++ (putBytes d.start.1 ++
    match d.fin with
    | none => [0]
    | some e => 1 :: putBytes e.1))

def decodeDescFrom (b : Bytes) : Option (RangeDescriptor × Bytes) := do
  let (id, b) ← takeU64 b
  let (epoch, b) ← takeU64 b
  let (start, b) ← takeBytes b
  match b with
  | [] => none
  | flag :: b =>
    if flag = 1 then do
      let (fin, b) ← takeBytes b
      return ({ id := id, start := start, fin := some fin, epoch := epoch }, b)
    else return ({ id := id, start := start, fin := none, epoch := epoch }, b)

def decodeDesc (b : Bytes) : Option RangeDescriptor := (decodeDescFrom b).map (·.1)

theorem decodeDescFrom_encodeDesc (d : RangeDescriptor) (r : Bytes) :
    decodeDescFrom (encodeDesc d ++ r) = some (d, r) := by
  obtain ⟨id, start, fin, epoch⟩ := d
  cases fin with
  | none => simp [decodeDescFrom, encodeDesc, append_assoc, takeBytes_putBytes]
  | some e => simp [decodeDescFrom, encodeDesc, append_assoc, takeBytes_putBytes]

@[simp] theorem decodeDesc_encodeDesc (d : RangeDescriptor) :
    decodeDesc (encodeDesc d) = some d := by
  have h := decodeDescFrom_encodeDesc d []
  rw [append_nil] at h
  simp [decodeDesc, h]

/-! ### Splits -/

/-- A range cut in two at a key. -/
structure SplitSpec where
  key : Str
  left : RangeDescriptor
  right : RangeDescriptor
  deriving DecidableEq

def splitMarker : UInt8 := 0xFF

def isSplitCommand (data : Bytes) : Bool := data.head? = some splitMarker

def encodeSplitCommand (s : SplitSpec) : Bytes :=
  splitMarker :: (putBytes s.key.1 ++ (encodeDesc s.left ++ encodeDesc s.right))

def decodeSplit (b : Bytes) : Option SplitSpec := do
  let (key, b) ← takeBytes b
  let (left, b) ← decodeDescFrom b
  let (right, _) ← decodeDescFrom b
  return { key := key, left := left, right := right }

def decodeSplitCommand (data : Bytes) : Option SplitSpec :=
  if isSplitCommand data then decodeSplit (data.drop 1) else none

@[simp] theorem decodeSplitCommand_encodeSplitCommand (s : SplitSpec) :
    decodeSplitCommand (encodeSplitCommand s) = some s := by
  have h := decodeDescFrom_encodeDesc s.right []
  rw [append_nil] at h
  simp [decodeSplitCommand, isSplitCommand, encodeSplitCommand, decodeSplit, takeBytes_putBytes,
    decodeDescFrom_encodeDesc, h]

/-! ### Transaction steps -/

/-- What a transaction command asks the state machine to do. Other bytes ask for nothing. -/
inductive TxnOp
  | prewrite | commitKey | rollbackKey | putTxnRecord | txnGet | resolveStatus | applyResolution
  | other (raw : UInt8) (unnamed : raw = 0 ∨ 7 < raw)
  deriving DecidableEq

def TxnOp.toByte : TxnOp → UInt8
  | .prewrite => 1
  | .commitKey => 2
  | .rollbackKey => 3
  | .putTxnRecord => 4
  | .txnGet => 5
  | .resolveStatus => 6
  | .applyResolution => 7
  | .other b _ => b

def TxnOp.ofByte (b : UInt8) : TxnOp :=
  if h : b = 0 ∨ 7 < b then .other b h
  else if b = 1 then .prewrite else if b = 2 then .commitKey else if b = 3 then .rollbackKey
  else if b = 4 then .putTxnRecord else if b = 5 then .txnGet else if b = 6 then .resolveStatus
  else .applyResolution

@[simp] theorem TxnOp.ofByte_toByte (o : TxnOp) : ofByte o.toByte = o := by
  cases o with
  | other b h => simp [ofByte, toByte, h]
  | _ => decide

/-- One step of a transaction, as it travels the log. -/
structure TxnCommand where
  op : TxnOp
  key : Key
  value : Str := .empty
  primary : Key := .empty
  startTS : Timestamp := {}
  commitTS : Timestamp := {}
  deadline : Timestamp := {}
  status : TxnStatus := .pending
  readTS : Timestamp := {}
  origin : UInt64 := 0
  expireAt : Timestamp := {}
  maxTS : Timestamp := {}
  deriving DecidableEq

def txnMarker : UInt8 := 0xFE

def isTxnCommand (data : Bytes) : Bool := data.head? = some txnMarker

def encodeTxnCommand (c : TxnCommand) : Bytes :=
  txnMarker :: c.op.toByte :: c.status.toByte :: (putU64 c.origin ++ (putBytes c.key.1 ++
    (putBytes c.value.1 ++ (putBytes c.primary.1 ++ (putStamp c.startTS ++ (putStamp c.commitTS ++
      (putStamp c.deadline ++ (putStamp c.readTS ++ (putStamp c.maxTS ++
        putStamp c.expireAt)))))))))

def decodeTxnCommand (data : Bytes) : Option TxnCommand :=
  match data with
  | marker :: op :: status :: b =>
    if marker = txnMarker then do
      let (origin, b) ← takeU64 b
      let (key, b) ← takeBytes b
      let (value, b) ← takeBytes b
      let (primary, b) ← takeBytes b
      let (startTS, b) ← takeStamp b
      let (commitTS, b) ← takeStamp b
      let (deadline, b) ← takeStamp b
      let (readTS, b) ← takeStamp b
      let (maxTS, b) ← takeStamp b
      let (expireAt, _) ← takeStamp b
      return { op := .ofByte op, key := key, value := value, primary := primary,
               startTS := startTS, commitTS := commitTS, deadline := deadline,
               status := .ofByte status, readTS := readTS, origin := origin,
               expireAt := expireAt, maxTS := maxTS }
    else none
  | _ => none

@[simp] theorem decodeTxnCommand_encodeTxnCommand (c : TxnCommand) :
    decodeTxnCommand (encodeTxnCommand c) = some c := by
  have h := takeStamp_putStamp c.expireAt []
  rw [append_nil] at h
  simp [decodeTxnCommand, encodeTxnCommand, takeBytes_putBytes, h]

/-! ### Client commands -/

/-- A client command or a collection: the operation by its name, a key, a value and a timestamp. -/
structure Cmd where
  op : Str := .empty
  key : Key := .empty
  value : Str := .empty
  ts : Timestamp := {}
  deriving DecidableEq

/-- `"put"`, `"get"` and `"gc"`. -/
def opPut : Str := ⟨[112, 117, 116], by decide⟩

@[inherit_doc opPut] def opGet : Str := ⟨[103, 101, 116], by decide⟩

@[inherit_doc opPut] def opGC : Str := ⟨[103, 99], by decide⟩

def encodeCmd (c : Cmd) : Bytes :=
  putBytes c.op.1 ++ (putBytes c.key.1 ++ (putBytes c.value.1 ++ putStamp c.ts))

/-- Bytes that are no command read as the empty one. -/
def decodeCmd (b : Bytes) : Cmd :=
  let r : Option Cmd := do
    let (op, b) ← takeBytes b
    let (key, b) ← takeBytes b
    let (value, b) ← takeBytes b
    let (ts, _) ← takeStamp b
    return { op := op, key := key, value := value, ts := ts }
  r.getD {}

@[simp] theorem decodeCmd_encodeCmd (c : Cmd) : decodeCmd (encodeCmd c) = c := by
  have h := takeStamp_putStamp c.ts []
  rw [append_nil] at h
  simp [decodeCmd, encodeCmd, takeBytes_putBytes, h]

/-! ### The state of a range -/

/-- A range's whole state: its descriptor, its collection mark and its records. -/
def encodeMachine (desc : RangeDescriptor) (mark : Timestamp) (rs : List (Bytes × Bytes)) : Bytes :=
  putBytes (encodeDesc desc) ++ (putStamp mark ++ (putBE 8 rs.length ++
    rs.flatMap fun r => putBytes r.1 ++ putBytes r.2))

def takeRecords : ℕ → Bytes → Option (List (Bytes × Bytes))
  | 0, _ => some []
  | n + 1, b => do
    let (k, b) ← takeBytes b
    let (v, b) ← takeBytes b
    let rest ← takeRecords n b
    return (k.1, v.1) :: rest

def decodeMachine (b : Bytes) : Option (RangeDescriptor × Timestamp × List (Bytes × Bytes)) := do
  let (descRaw, b) ← takeBytes b
  let desc ← decodeDesc descRaw.1
  let (mark, b) ← takeStamp b
  let (n, b) ← takeBE 8 b
  let rs ← takeRecords n b
  return (desc, mark, rs)

/-- The parts of a payload fit the fields that carry their lengths. -/
structure Fits (desc : RangeDescriptor) (rs : List (Bytes × Bytes)) : Prop where
  desc : (encodeDesc desc).length < 256 ^ 4
  count : rs.length < 256 ^ 8
  keys : ∀ r ∈ rs, r.1.length < 256 ^ 4
  values : ∀ r ∈ rs, r.2.length < 256 ^ 4

instance (desc : RangeDescriptor) (rs : List (Bytes × Bytes)) : Decidable (Fits desc rs) :=
  decidable_of_iff ((encodeDesc desc).length < 256 ^ 4 ∧ rs.length < 256 ^ 8 ∧
    (∀ r ∈ rs, r.1.length < 256 ^ 4) ∧ ∀ r ∈ rs, r.2.length < 256 ^ 4)
    ⟨fun h => ⟨h.1, h.2.1, h.2.2.1, h.2.2.2⟩, fun h => ⟨h.1, h.2, h.3, h.4⟩⟩

/-- A byte string that is too long for its length field is read in part. -/
theorem putBytes_wrap (b : Bytes) : putBytes b =
    putBytes (b.take (b.length % 256 ^ 4)) ++ b.drop (b.length % 256 ^ 4) := by
  have hlen : (b.take (b.length % 256 ^ 4)).length = b.length % 256 ^ 4 :=
    length_take_of_le (Nat.mod_le _ _)
  rw [putBytes, putBytes, hlen, putBE_mod, append_assoc, take_append_drop]

theorem takeBytes_putBytes_of_lt {b : Bytes} (h : b.length < 256 ^ 4) (r : Bytes) :
    takeBytes (putBytes b ++ r) = some (⟨b, h⟩, r) := takeBytes_putBytes ⟨b, h⟩ r

variable {rs : List (Bytes × Bytes)}

theorem takeRecords_flatMap (hk : ∀ r ∈ rs, r.1.length < 256 ^ 4)
    (hv : ∀ r ∈ rs, r.2.length < 256 ^ 4) :
    takeRecords rs.length (rs.flatMap fun r => putBytes r.1 ++ putBytes r.2) = some rs := by
  induction rs with
  | nil => rfl
  | cons r rs ih =>
    have hrest := ih (fun r' hr' => hk r' (by simp [hr'])) fun r' hr' => hv r' (by simp [hr'])
    simp [takeRecords, append_assoc, takeBytes_putBytes_of_lt (hk r (by simp)),
      takeBytes_putBytes_of_lt (hv r (by simp)), hrest]

theorem decodeMachine_encodeMachine {desc : RangeDescriptor} (h : Fits desc rs) (mark : Timestamp) :
    decodeMachine (encodeMachine desc mark rs) = some (desc, mark, rs) := by
  simp [decodeMachine, encodeMachine, takeBytes_putBytes_of_lt h.desc, takeBE_putBE h.count,
    takeRecords_flatMap h.keys h.values]

end Rift.Driver
