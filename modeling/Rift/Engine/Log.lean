import Mathlib.Data.List.DropRight
import Rift.Engine.Wal

/-!
# The framing of logs

The write-ahead log and the manifest share one physical format: `LogWriter` of
`engine-cpp/src/wal/writer.cc` cuts records into fragments that do not cross a block, and `ScanLog` of
`engine-cpp/src/wal/reader.cc` puts them together again and decides whether a file that ends early was
torn or corrupted. A file operation may fail after part of its bytes; a crash keeps some of the bytes
that no sync has covered.
-/

namespace Rift.Engine

open List Nat

/-! ### Fragments -/

def kBlockBytes : ℕ := 32768

def kHeaderBytes : ℕ := 7

def kMinFragmentBytes : ℕ := kHeaderBytes + 1

/-- The types of fragments. Zero is reserved and never written. -/
inductive FragmentType
  | full
  | first
  | middle
  | last
  deriving DecidableEq, Repr

def FragmentType.toByte : FragmentType → UInt8
  | .full => 1
  | .first => 2
  | .middle => 3
  | .last => 4

def FragmentType.ofByte (b : UInt8) : Option FragmentType :=
  if b = 1 then some .full else if b = 2 then some .first else if b = 3 then some .middle
  else if b = 4 then some .last else none

/-- The kinds of records. Zero is reserved. -/
inductive RecordKind
  | batch
  | groupEnd
  | fileHeader
  | manifestEdit
  deriving DecidableEq, Repr

def RecordKind.toByte : RecordKind → UInt8
  | .batch => kBatch
  | .groupEnd => 2
  | .fileHeader => 3
  | .manifestEdit => 4

def RecordKind.ofByte (b : UInt8) : Option RecordKind :=
  if b = 1 then some .batch else if b = 2 then some .groupEnd else if b = 3 then some .fileHeader
  else if b = 4 then some .manifestEdit else none

def kPoly : UInt32 := 0x82F63B78

/-- One entry of the table of the checksum. -/
def crcTable (i : UInt32) : UInt32 :=
  Nat.iterate (fun c => if c &&& 1 = 1 then kPoly ^^^ (c >>> 1) else c >>> 1) 8 i

def crc32c (data : Slice) : UInt32 :=
  data.foldl (fun crc b => crcTable ((crc ^^^ b.toUInt32) &&& 0xFF) ^^^ (crc >>> 8)) 0xFFFFFFFF ^^^
    0xFFFFFFFF

/-- The checksum covers the length, the type and the payload. -/
def fragmentCrc (length : ℕ) (type : FragmentType) (payload : Slice) : UInt32 :=
  crc32c (putLE 2 length ++ type.toByte :: payload)

def fragmentHeader (type : FragmentType) (payload : Slice) : Slice :=
  putLE 4 (fragmentCrc payload.length type payload).toNat ++
    (putLE 2 payload.length ++ [type.toByte])

/-- Bytes from an offset to the end of its block. -/
def leftInBlock (offset : ℕ) : ℕ := kBlockBytes - offset % kBlockBytes

/-! ### Files that fail -/

/-- A file with the fates of the calls to come: a call succeeds, or fails after some bytes. -/
structure WritableFile where
  bytes : Slice := []
  /-- What was appended and has not reached the file. -/
  buf : Slice := []
  /-- What a crash must keep. -/
  synced : ℕ := 0
  faults : List (Option ℕ) := []
  deriving DecidableEq, Repr

/-- How a sync ends. A sync has failed if it wrote nothing or everything, and has torn the file if it
wrote a proper part: the buffer is then kept whole, and the next sync writes that part again. -/
inductive SyncStatus
  | ok
  | failed
  | torn
  deriving DecidableEq, Repr

namespace WritableFile

variable (f : WritableFile)

/-- Appended bytes are buffered, however many there are. -/
def append (data : Slice) : WritableFile × Bool :=
  match f.faults.head?.join with
  | none => ({ f with buf := f.buf ++ data, faults := f.faults.tail }, true)
  | some n => ({ f with buf := f.buf ++ data.take n, faults := f.faults.tail }, false)

/-- Everything that was appended, written or not. -/
def appended : Slice := f.bytes ++ f.buf

/-- `DoFlush` when it succeeds: the buffer is written, and then cleared. -/
def flushed : WritableFile := { f with bytes := f.appended, buf := [], faults := f.faults.tail }

/-- The buffer is written and then the file is synced. Either may fail. -/
def sync : WritableFile × SyncStatus :=
  match f.faults.head?.join with
  | none => ({ f.flushed with synced := f.appended.length }, .ok)
  | some n =>
    if f.buf.length ≤ n then (f.flushed, .failed)
    else
      ({ f with bytes := f.bytes ++ f.buf.take n, faults := f.faults.tail },
        if n = 0 then .failed else .torn)

end WritableFile

/-! ### The writer -/

structure LogWriter where
  file : WritableFile := {}
  offset : ℕ := 0
  deriving DecidableEq, Repr

namespace LogWriter

/-- The offset moves only when the whole fragment has been appended. -/
def emitFragment (w : LogWriter) (type : FragmentType) (payload : Slice) : LogWriter × Bool :=
  match w.file.append (fragmentHeader type payload) with
  | (f, false) => ({ w with file := f }, false)
  | (f, true) =>
    match f.append payload with
    | (f, false) => ({ w with file := f }, false)
    | (f, true) => ({ file := f, offset := w.offset + (kHeaderBytes + payload.length) }, true)

/-- The type of a fragment, by whether it is the first and whether it is the last. -/
def typeOf (first last : Bool) : FragmentType :=
  if first && last then .full else if first then .first else if last then .last else .middle

/-- The loop of `AddRecord`. A tail of a block that is too short for a fragment is filled with
zeros. -/
def addRecordLoop : ℕ → Bool → LogWriter → Slice → LogWriter × Bool
  | 0, _, w, _ => (w, true)
  | fuel + 1, first, w, p =>
    let left := leftInBlock w.offset
    if left < kMinFragmentBytes then
      match w.file.append (replicate left 0) with
      | (f, false) => ({ w with file := f }, false)
      | (f, true) => addRecordLoop fuel first { file := f, offset := w.offset + left } p
    else
      let n := min (left - kHeaderBytes) p.length
      let last := n = p.length
      match w.emitFragment (typeOf first last) (p.take n) with
      | (w, false) => (w, false)
      | (w, true) => if last then (w, true) else addRecordLoop fuel false w (p.drop n)

/-- Every fragment takes at least one byte of the payload, and is padded to at most once. -/
def addRecord (w : LogWriter) (payload : Slice) : LogWriter × Bool :=
  addRecordLoop (2 * payload.length) true w payload

/-- Records one after the other, until one fails. -/
def addRecords (w : LogWriter) : List Slice → LogWriter × Bool
  | [] => (w, true)
  | p :: ps =>
    match w.addRecord p with
    | (w, false) => (w, false)
    | (w, true) => w.addRecords ps

end LogWriter

/-! ### The reader -/

structure Fragment where
  type : FragmentType
  payload : Slice
  deriving DecidableEq, Repr

/-- Read one fragment, or say why there is none. -/
def readFragment (image : Slice) (offset : ℕ) : Except String Fragment :=
  let p := image.drop offset
  if p.length < kHeaderBytes then .error "header truncated by EOF"
  else
    match FragmentType.ofByte (p.getD 6 0) with
    | none => .error "fragment type is invalid (a zero-filled or garbage header)"
    | some type =>
      let length := getLE ((p.drop 4).take 2)
      if length = 0 then .error "fragment length is zero; the format reserves >= 1"
      else if leftInBlock offset < kHeaderBytes + length then
        .error "fragment length runs past its block"
      else if p.length - kHeaderBytes < length then .error "payload truncated by EOF"
      else
        let payload := (p.drop kHeaderBytes).take length
        if (fragmentCrc length type payload).toNat ≠ getLE (p.take 4) then
          .error "fragment CRC mismatch"
        else .ok { type := type, payload := payload }

/-- The kind of a record, with the sequence if the kind carries one. -/
def peekKindAndSeq (payload : Slice) : Option (RecordKind × ℕ) :=
  match RecordKind.ofByte (payload.headD 0) with
  | none => none
  | some .fileHeader => some (.fileHeader, 0)
  | some .manifestEdit => some (.manifestEdit, 0)
  | some kind => if payload.length < 9 then none else some (kind, getLE ((payload.drop 1).take 8))

/-- A record starts at the offset, and it is newer than what is committed. An edit of a manifest
carries no sequence and always counts. -/
def isResyncCandidate (image : Slice) (offset committed : ℕ) : Bool :=
  match readFragment image offset with
  | .error _ => false
  | .ok f =>
    if f.type ≠ .full ∧ f.type ≠ .first then false
    else
      match peekKindAndSeq f.payload with
      | none => false
      | some (.manifestEdit, _) => true
      | some (.fileHeader, _) => false
      | some (_, seq) => committed < seq

def legalTransition (inside : Bool) : FragmentType → Bool
  | .full | .first => !inside
  | .middle | .last => inside

inductive ScanOutcome
  | cleanEnd
  | tornTail
  | interiorCorruption
  deriving DecidableEq, Repr

structure LogicalRecord where
  kind : RecordKind
  payload : Slice
  /-- Where the first fragment of the record starts. -/
  offset : ℕ
  deriving DecidableEq, Repr

structure ScanResult where
  outcome : ScanOutcome := .cleanEnd
  records : List LogicalRecord := []
  committedCount : ℕ := 0
  lastCommittedSeq : ℕ := 0
  failureOffset : ℕ := 0
  failureBlock : ℕ := 0
  failureReason : String := ""
  resyncOffset : ℕ := 0
  deriving DecidableEq, Repr

/-- Add a record. The end of a group commits everything up to it. -/
def ScanResult.commitRecord (r : ScanResult) (kind : RecordKind) (payload : Slice) (start : ℕ) :
    ScanResult :=
  let records := r.records ++ [{ kind := kind, payload := payload, offset := start }]
  match kind, peekKindAndSeq payload with
  | .groupEnd, some (_, seq) =>
    { r with records := records, committedCount := records.length, lastCommittedSeq := seq }
  | _, _ => { r with records := records }

/-- Where a scan is: inside of a record, there is the part that has been assembled. -/
structure ScanState where
  offset : ℕ := 0
  inside : Bool := false
  assembling : Slice := []
  recordStart : ℕ := 0
  r : ScanResult := {}
  deriving DecidableEq, Repr

namespace ScanState

variable (s : ScanState)

/-- Stop here. Two fragments that cannot follow each other are corruption; otherwise the blocks after
this one are asked for a record. -/
def fail (image : Slice) (why : String) (structural : Bool) : ScanResult :=
  let block := s.offset / kBlockBytes
  let r := { s.r with failureOffset := s.offset, failureBlock := block, failureReason := why }
  if structural then { r with outcome := .interiorCorruption, resyncOffset := s.offset }
  else
    let blocks := range' (block + 1) ((image.length + kBlockBytes - 1) / kBlockBytes - (block + 1))
    match blocks.find? fun b => isResyncCandidate image (b * kBlockBytes) s.r.lastCommittedSeq with
    | some b => { r with outcome := .interiorCorruption, resyncOffset := b * kBlockBytes }
    | none => { r with outcome := .tornTail }

/-- Take up a fragment; `none` if it ends a record of no known kind. -/
def absorb (f : Fragment) : Option ScanState :=
  match f.type with
  | .full => do
    let (kind, _) ← peekKindAndSeq f.payload
    return { s with r := s.r.commitRecord kind f.payload s.offset }
  | .first => some { s with recordStart := s.offset, assembling := f.payload, inside := true }
  | .middle => some { s with assembling := s.assembling ++ f.payload }
  | .last => do
    let payload := s.assembling ++ f.payload
    let (kind, _) ← peekKindAndSeq payload
    return { s with
      r := s.r.commitRecord kind payload s.recordStart
      assembling := []
      inside := false }

end ScanState

def scanLoop (image : Slice) : ℕ → ScanState → ScanResult
  | 0, s => s.r
  | fuel + 1, s =>
    if image.length ≤ s.offset then
      if s.inside then
        { s with offset := image.length }.fail image "incomplete multi-fragment record at EOF" false
      else { s.r with outcome := .cleanEnd }
    else if leftInBlock s.offset < kMinFragmentBytes then
      scanLoop image fuel { s with offset := s.offset + leftInBlock s.offset }
    else
      match readFragment image s.offset with
      | .error why => s.fail image why false
      | .ok f =>
        if !legalTransition s.inside f.type then s.fail image "illegal fragment transition" true
        else
          match s.absorb f with
          | none => s.fail image "record kind is invalid" false
          | some s' =>
            scanLoop image fuel { s' with offset := s.offset + (kHeaderBytes + f.payload.length) }

/-- Every round moves the offset. -/
def scanLog (image : Slice) : ScanResult := scanLoop image (image.length + 1) {}

/-! ### What a writer leaves -/

/-- The bytes of a record from an offset on, by the recursion of the writer. -/
def frames : ℕ → Bool → ℕ → Slice → Slice
  | 0, _, _, _ => []
  | fuel + 1, first, o, p =>
    let left := leftInBlock o
    if left < kMinFragmentBytes then replicate left 0 ++ frames fuel first (o + left) p
    else
      let n := min (left - kHeaderBytes) p.length
      let last := n = p.length
      fragmentHeader (LogWriter.typeOf first last) (p.take n) ++ p.take n ++
        if last then [] else frames fuel false (o + (kHeaderBytes + n)) (p.drop n)

def recordBytes (o : ℕ) (p : Slice) : Slice := frames (2 * p.length) true o p

/-- The bytes of records one after the other. -/
def logBytes : ℕ → List Slice → Slice
  | _, [] => []
  | o, p :: ps => recordBytes o p ++ logBytes (o + (recordBytes o p).length) ps

theorem logBytes_append (o : ℕ) (ps qs : List Slice) :
    logBytes o (ps ++ qs) = logBytes o ps ++ logBytes (o + (logBytes o ps).length) qs := by
  induction ps generalizing o with
  | nil => rfl
  | cons p ps ih => simp [logBytes, ih, add_assoc]

@[simp] theorem length_fragmentHeader (type : FragmentType) (payload : Slice) :
    (fragmentHeader type payload).length = kHeaderBytes := by
  simp [fragmentHeader, kHeaderBytes]

/-! ### What an append does -/

namespace WritableFile

variable {f f₁ f₂ : WritableFile} {a b : Slice} {ok : Bool}

/-- The file has been given a part of `data`, and all of it if the calls report success. None of it
is written yet. -/
structure Appended (f f' : WritableFile) (data : Slice) (ok : Bool) : Prop where
  bytes : f'.bytes = f.bytes
  synced : f'.synced = f.synced
  part : ∃ m, f'.buf = f.buf ++ data.take m
  whole : ok → f'.buf = f.buf ++ data

theorem append_spec (h : f.append a = (f₁, ok)) : f.Appended f₁ a ok := by
  unfold append at h
  split at h
  · cases h
    exact ⟨rfl, rfl, ⟨a.length, by simp⟩, fun _ => rfl⟩
  · cases h
    exact ⟨rfl, rfl, ⟨_, rfl⟩, by simp⟩

theorem Appended.appended_eq (h : f.Appended f₁ a true) : f₁.appended = f.appended ++ a := by
  rw [appended, h.bytes, h.whole rfl, appended, append_assoc]

theorem Appended.trans (h : f.Appended f₁ a true) (h' : f₁.Appended f₂ b ok) :
    f.Appended f₂ (a ++ b) ok := by
  have ha := h.whole rfl
  obtain ⟨m, hm⟩ := h'.part
  refine ⟨h'.bytes.trans h.bytes, h'.synced.trans h.synced, ⟨a.length + m, ?_⟩, fun hok => ?_⟩
  · rw [hm, ha, append_assoc, take_length_add_append]
  · rw [h'.whole hok, ha, append_assoc]

theorem Appended.of_fail (h : f.Appended f₁ a false) (b : Slice) :
    f.Appended f₁ (a ++ b) false := by
  obtain ⟨m, hm⟩ := h.part
  refine ⟨h.bytes, h.synced, ⟨min m a.length, ?_⟩, by simp⟩
  rw [hm, take_append_of_le_length (min_le_right _ _), take_eq_take_min]

/-- A sync writes a part of the buffer. Unless it tears the file, nothing that was appended is lost
or doubled; and if it reports success, all of it is synced. -/
theorem sync_spec {status : SyncStatus} (hf : f.synced ≤ f.bytes.length)
    (h : f.sync = (f₁, status)) :
    f.synced ≤ f₁.synced ∧ f₁.synced ≤ f₁.bytes.length ∧ f₁.bytes <+: f.appended ∧
      (status ≠ .torn → f₁.appended = f.appended) ∧
      (status = .ok → f₁.synced = f.appended.length) := by
  have hle : f.synced ≤ f.appended.length := hf.trans (by simp [appended])
  unfold sync at h
  split at h
  · cases h
    exact ⟨hle, le_rfl, prefix_rfl, fun _ => append_nil _, fun _ => rfl⟩
  · next n _ =>
    have hpart : f.bytes ++ f.buf.take n <+: f.appended :=
      (prefix_append_right_inj _).mpr (List.take_prefix _ _)
    split_ifs at h with hn hzero
    · cases h
      exact ⟨le_rfl, hle, prefix_rfl, fun _ => append_nil _, nofun⟩
    · cases h
      exact ⟨le_rfl, hf.trans (by simp), hpart, fun _ => by simp [appended, hzero], nofun⟩
    · cases h
      exact ⟨le_rfl, hf.trans (by simp), hpart, fun hs => absurd rfl hs, nofun⟩

end WritableFile

namespace LogWriter

variable {w w' : LogWriter} {ok first : Bool} {p : Slice} {fuel : ℕ} {ps : List Slice}

theorem emitFragment_spec {type : FragmentType} (h : w.emitFragment type p = (w', ok)) :
    w.file.Appended w'.file (fragmentHeader type p ++ p) ok ∧
      (ok → w'.offset = w.offset + (kHeaderBytes + p.length)) := by
  unfold emitFragment at h
  split at h
  · next f hf =>
    cases h
    exact ⟨(WritableFile.append_spec hf).of_fail p, by simp⟩
  · next f hf =>
    have hheader := WritableFile.append_spec hf
    split at h
    · next f' hf' =>
      cases h
      exact ⟨hheader.trans (WritableFile.append_spec hf'), by simp⟩
    · next f' hf' =>
      cases h
      exact ⟨hheader.trans (WritableFile.append_spec hf'), fun _ => rfl⟩

theorem addRecordLoop_spec (h : addRecordLoop fuel first w p = (w', ok)) :
    w.file.Appended w'.file (frames fuel first w.offset p) ok ∧
      (ok → w'.offset = w.offset + (frames fuel first w.offset p).length) := by
  induction fuel generalizing first w p with
  | zero =>
    cases h
    exact ⟨⟨rfl, rfl, ⟨0, by simp⟩, by simp [frames]⟩, by simp [frames]⟩
  | succ fuel ih =>
    simp only [addRecordLoop] at h
    simp only [frames]
    by_cases hleft : leftInBlock w.offset < kMinFragmentBytes
    · -- Padding comes first.
      rw [if_pos hleft] at h ⊢
      split at h
      · next f hf =>
        cases h
        exact ⟨(WritableFile.append_spec hf).of_fail _, by simp⟩
      · next f hf =>
        obtain ⟨hrest, hoff⟩ := ih h
        refine ⟨(WritableFile.append_spec hf).trans hrest, fun hok => ?_⟩
        rw [hoff hok, length_append, length_replicate, add_assoc]
    · rw [if_neg hleft] at h ⊢
      have hn := length_take_of_le (min_le_right (leftInBlock w.offset - kHeaderBytes) p.length)
      split at h
      · next w₁ hw₁ =>
        cases h
        exact ⟨(emitFragment_spec hw₁).1.of_fail _, by simp⟩
      · next w₁ hw₁ =>
        obtain ⟨hemit, hoff₁⟩ := emitFragment_spec hw₁
        have hoff₁ := hoff₁ rfl
        rw [hn] at hoff₁
        split_ifs at h ⊢ with hlast
        · cases h
          rw [append_nil]
          exact ⟨hemit, fun _ => by rw [hoff₁, length_append, length_fragmentHeader, hn]⟩
        · obtain ⟨hrest, hoff⟩ := ih h
          rw [hoff₁] at hrest hoff
          refine ⟨hemit.trans hrest, fun hok => ?_⟩
          rw [hoff hok, length_append, length_append, length_fragmentHeader, hn,
            add_assoc]

theorem addRecord_spec (h : w.addRecord p = (w', ok)) :
    w.file.Appended w'.file (recordBytes w.offset p) ok ∧
      (ok → w'.offset = w.offset + (recordBytes w.offset p).length) :=
  addRecordLoop_spec h

theorem emitFragment_ok (h : w.file.faults = []) (type : FragmentType) (p : Slice) :
    ∃ w', w.emitFragment type p = (w', true) ∧ w'.file.faults = [] := by
  simp [emitFragment, WritableFile.append, h]

theorem addRecordLoop_ok (h : w.file.faults = []) :
    (addRecordLoop fuel first w p).2 = true ∧ (addRecordLoop fuel first w p).1.file.faults = [] := by
  induction fuel generalizing first w p with
  | zero => exact ⟨rfl, h⟩
  | succ fuel ih =>
    obtain ⟨w', hemit, hw'⟩ := emitFragment_ok h
      (typeOf first (decide (min (leftInBlock w.offset - kHeaderBytes) p.length = p.length)))
      (p.take (min (leftInBlock w.offset - kHeaderBytes) p.length))
    simp only [addRecordLoop, hemit, WritableFile.append, h, head?_nil, Option.join_none]
    split_ifs
    · exact ih rfl
    · exact ⟨rfl, hw'⟩
    · exact ih hw'

theorem addRecord_ok (h : w.file.faults = []) :
    (w.addRecord p).2 = true ∧ (w.addRecord p).1.file.faults = [] :=
  addRecordLoop_ok h

theorem addRecords_ok (h : w.file.faults = []) : (w.addRecords ps).2 = true := by
  induction ps generalizing w with
  | nil => rfl
  | cons p ps ih =>
    have hp := @addRecord_ok w p h
    unfold addRecords
    split
    · next hw => simp [hw] at hp
    · next w' hw =>
      rw [hw] at hp
      exact ih hp.2

theorem addRecords_spec (h : w.addRecords ps = (w', ok)) :
    w.file.Appended w'.file (logBytes w.offset ps) ok ∧
      (ok → w'.offset = w.offset + (logBytes w.offset ps).length) := by
  induction ps generalizing w with
  | nil =>
    cases h
    exact ⟨⟨rfl, rfl, ⟨0, by simp⟩, by simp [logBytes]⟩, by simp [logBytes]⟩
  | cons p ps ih =>
    unfold addRecords at h
    split at h
    · next w₁ hw₁ =>
      cases h
      exact ⟨(addRecord_spec hw₁).1.of_fail _, by simp⟩
    · next w₁ hw₁ =>
      obtain ⟨hfile, hoff⟩ := addRecord_spec hw₁
      obtain ⟨hrest, hoff'⟩ := ih h
      rw [hoff rfl] at hrest hoff'
      refine ⟨hfile.trans hrest, fun hok => ?_⟩
      rw [hoff' hok, logBytes, length_append, add_assoc]

/-- The records `ps` and nothing else have been appended, and the writer is at their end. -/
structure Wrote (w : LogWriter) (ps : List Slice) : Prop where
  appended : w.file.appended = logBytes 0 ps
  offset : w.offset = w.file.appended.length
  synced : w.file.synced ≤ w.file.bytes.length

theorem Wrote.addRecords {qs : List Slice} (h : w.Wrote ps) (hadd : w.addRecords qs = (w', true)) :
    w'.Wrote (ps ++ qs) := by
  obtain ⟨hfile, hoff⟩ := addRecords_spec hadd
  refine ⟨?_, ?_, ?_⟩
  · rw [hfile.appended_eq, logBytes_append, ← h.appended, zero_add, h.offset]
  · rw [hoff rfl, hfile.appended_eq, length_append, h.offset]
  · rw [hfile.synced, hfile.bytes]
    exact h.synced

theorem Wrote.addRecord (h : w.Wrote ps) (hadd : w.addRecord p = (w', true)) :
    w'.Wrote (ps ++ [p]) :=
  h.addRecords (by rw [LogWriter.addRecords, hadd]; rfl)

end LogWriter

/-! ### Reading a fragment -/

theorem FragmentType.ofByte_toByte (type : FragmentType) : ofByte type.toByte = some type := by
  cases type <;> rfl

theorem leftInBlock_le (o : ℕ) : leftInBlock o ≤ kBlockBytes := sub_le _ _

section

variable {image tail : Slice} {o : ℕ} {type : FragmentType} {q : Slice} (hq : 0 < q.length)
  (hfit : kHeaderBytes + q.length ≤ leftInBlock o)
include hq hfit

/-- With a header of a fragment there, what decides is how much of the payload follows, and whether
the checksum is its own. -/
theorem readFragment_sum {sum : ℕ} (hsum : sum < 256 ^ 4)
    (h : image.drop o = putLE 4 sum ++ (putLE 2 q.length ++ [type.toByte]) ++ tail) :
    readFragment image o = if tail.length < q.length then .error "payload truncated by EOF"
      else if (fragmentCrc q.length type (tail.take q.length)).toNat ≠ sum then
        .error "fragment CRC mismatch"
      else .ok { type := type, payload := tail.take q.length } := by
  have hlen : q.length < 256 ^ 2 := by
    have := leftInBlock_le o
    unfold kBlockBytes at this
    omega
  generalize hheader : putLE 4 sum ++ (putLE 2 q.length ++ [type.toByte]) = header at h
  have hheaderLen : header.length = kHeaderBytes := by simp [← hheader, kHeaderBytes]
  have htype : (header ++ tail).getD 6 0 = type.toByte := by
    simp [← hheader, putLE]
  have hlength : ((header ++ tail).drop 4).take 2 = putLE 2 q.length := by
    simp [← hheader, putLE]
  have hfirst : (header ++ tail).take 4 = putLE 4 sum := by
    simp [← hheader, putLE]
  have hdrop : (header ++ tail).drop kHeaderBytes = tail := drop_left' hheaderLen
  simp only [readFragment, h, htype, FragmentType.ofByte_toByte, hlength, hfirst, hdrop,
    getLE_putLE hlen, getLE_putLE hsum, length_append, hheaderLen]
  rw [if_neg (by omega), if_neg hq.ne', if_neg (by omega), Nat.add_sub_cancel_left]

/-- With the header of a fragment there, what decides is how much of the payload follows. -/
theorem readFragment_header (h : image.drop o = fragmentHeader type q ++ tail) :
    readFragment image o = if tail.length < q.length then .error "payload truncated by EOF"
      else if (fragmentCrc q.length type (tail.take q.length)).toNat ≠
          (fragmentCrc q.length type q).toNat then .error "fragment CRC mismatch"
      else .ok { type := type, payload := tail.take q.length } :=
  readFragment_sum hq hfit (UInt32.toNat_lt _) h

theorem readFragment_whole (h : fragmentHeader type q ++ q <+: image.drop o) :
    readFragment image o = .ok { type := type, payload := q } := by
  obtain ⟨rest, hrest⟩ := h
  rw [readFragment_header hq hfit (hrest.symm.trans (append_assoc _ _ _)), if_neg (by simp),
    take_left, if_neg (by simp)]

theorem readFragment_cut (h : image.drop o <+: fragmentHeader type q ++ q)
    (hlt : (image.drop o).length < kHeaderBytes + q.length) :
    ∃ why, readFragment image o = .error why := by
  by_cases hheader : (image.drop o).length < kHeaderBytes
  · exact ⟨_, by simp only [readFragment]; rw [if_pos hheader]⟩
  · obtain ⟨rest, hrest⟩ := h
    obtain ⟨tail, htail⟩ : ∃ tail, image.drop o = fragmentHeader type q ++ tail := by
      obtain ⟨t, ht⟩ := prefix_of_prefix_length_le ⟨q, rfl⟩ ⟨rest, hrest⟩
        (by rw [length_fragmentHeader]; exact not_lt.mp hheader)
      exact ⟨t, ht.symm⟩
    rw [htail, length_append, length_fragmentHeader] at hlt
    exact ⟨_, by rw [readFragment_header hq hfit htail, if_pos (by omega)]⟩

end

/-! ### What a scan finds -/

/-- The records of a scan, and the committed ones: those up to the last end of a group. -/
structure ScanResult.Holds (r : ScanResult) (ps : List Slice) : Prop where
  payloads : r.records.map (·.payload) = ps
  kinds : ∀ x ∈ r.records, (peekKindAndSeq x.payload).map Prod.fst = some x.kind
  committed : r.committedCount =
    (ps.rdropWhile fun p => (peekKindAndSeq p).map Prod.fst ≠ some .groupEnd).length

variable {r : ScanResult} {ps : List Slice}

theorem ScanResult.Holds.commitRecord (h : r.Holds ps) {kind : RecordKind} {seq : ℕ} {p : Slice}
    (hp : peekKindAndSeq p = some (kind, seq)) (start : ℕ) :
    (r.commitRecord kind p start).Holds (ps ++ [p]) := by
  have hrecords : (r.commitRecord kind p start).records =
      r.records ++ [{ kind := kind, payload := p, offset := start }] := by
    unfold ScanResult.commitRecord
    split <;> rfl
  refine ⟨by rw [hrecords, map_append, h.payloads]; rfl, ?_, ?_⟩
  · intro x hx
    rw [hrecords] at hx
    rcases mem_append.mp hx with hx | hx
    · exact h.kinds x hx
    · obtain rfl := mem_singleton.mp hx
      simp [hp]
  · have hlen : r.records.length = ps.length := by rw [← h.payloads, length_map]
    by_cases hend : kind = .groupEnd
    · subst hend
      rw [rdropWhile_concat_neg _ _ _ (by simp [hp])]
      simp [ScanResult.commitRecord, hp, hlen]
    · rw [rdropWhile_concat_pos _ _ _ (by simp [hp, hend])]
      rw [← h.committed]
      unfold ScanResult.commitRecord
      cases kind <;> first | rfl | exact absurd rfl hend

namespace ScanState

theorem fail_eq_with (s : ScanState) (image : Slice) (why : String) (structural : Bool) :
    ∃ outcome resync, s.fail image why structural =
      { s.r with
        outcome := outcome, failureOffset := s.offset, failureBlock := s.offset / kBlockBytes,
        failureReason := why, resyncOffset := resync } := by
  cases structural with
  | true => exact ⟨_, _, rfl⟩
  | false =>
    unfold fail
    cases hfind : (range' (s.offset / kBlockBytes + 1)
      ((image.length + kBlockBytes - 1) / kBlockBytes - (s.offset / kBlockBytes + 1))).find?
      (fun b => isResyncCandidate image (b * kBlockBytes) s.r.lastCommittedSeq) with
    | some b =>
      exact ⟨.interiorCorruption, b * kBlockBytes, by
        simp only [Bool.false_eq_true, if_false, hfind]⟩
    | none =>
      exact ⟨.tornTail, s.r.resyncOffset, by simp only [Bool.false_eq_true, if_false, hfind]⟩

theorem fail_holds {s : ScanState} {ps : List Slice} (h : s.r.Holds ps) (image : Slice)
    (why : String) (structural : Bool) : (s.fail image why structural).Holds ps := by
  obtain ⟨outcome, resync, heq⟩ := s.fail_eq_with image why structural
  rw [heq]
  exact ⟨h.payloads, h.kinds, h.committed⟩

theorem fail_torn {s : ScanState} {image : Slice}
    (h : image.length ≤ s.offset + leftInBlock s.offset) (why : String) :
    (s.fail image why false).outcome = .tornTail := by
  have hnone : (image.length + kBlockBytes - 1) / kBlockBytes - (s.offset / kBlockBytes + 1) = 0 := by
    unfold leftInBlock kBlockBytes at *
    omega
  unfold fail
  simp only [hnone, Bool.false_eq_true, if_false, range'_zero, find?_nil]

/-- With enough rounds, the scan from a state gives `r`. -/
def Scans (image : Slice) (s : ScanState) (r : ScanResult) : Prop :=
  ∀ fuel, image.length - s.offset < fuel → scanLoop image fuel s = r

/-- The scan ends without another record, and does not report corruption. -/
def Stops (image : Slice) (s : ScanState) : Prop :=
  ∃ r, Scans image s r ∧ r.outcome ≠ .interiorCorruption ∧ ∀ ps, s.r.Holds ps → r.Holds ps

/-- The scan goes on between records at `o`, with the record `p` found. -/
def Finds (image : Slice) (s : ScanState) (o : ℕ) (p : Slice) : Prop :=
  ∃ s', s'.offset = o ∧ s'.inside = false ∧ (∀ ps, s.r.Holds ps → s'.r.Holds (ps ++ [p])) ∧
    ∀ r, Scans image s' r → Scans image s r

variable {image : Slice} {s s' : ScanState}

theorem Stops.of_step (h : Stops image s') (hr : s'.r = s.r)
    (hstep : ∀ r, Scans image s' r → Scans image s r) : Stops image s := by
  obtain ⟨r, hscan, hout, hholds⟩ := h
  exact ⟨r, hstep r hscan, hout, fun ps hps => hholds ps (hr ▸ hps)⟩

theorem Finds.of_step {o : ℕ} {p : Slice} (h : Finds image s' o p) (hr : s'.r = s.r)
    (hstep : ∀ r, Scans image s' r → Scans image s r) : Finds image s o p := by
  obtain ⟨t, ho, hin, hholds, hscan⟩ := h
  exact ⟨t, ho, hin, fun ps hps => hholds ps (hr ▸ hps), fun r hr => hstep r (hscan r hr)⟩

theorem leftInBlock_pos (o : ℕ) : 0 < leftInBlock o := by
  unfold leftInBlock kBlockBytes
  omega

theorem leftInBlock_add (o : ℕ) : leftInBlock (o + leftInBlock o) = kBlockBytes := by
  unfold leftInBlock kBlockBytes
  omega

theorem length_pos_of_peek {p : Slice} (h : (peekKindAndSeq p).isSome) : 0 < p.length := by
  cases p with
  | nil => simp [peekKindAndSeq, RecordKind.ofByte] at h
  | cons => simp

theorem scans_pad (hlt : s.offset < image.length) (hleft : leftInBlock s.offset < kMinFragmentBytes)
    (h : Scans image { s with offset := s.offset + leftInBlock s.offset } r) : Scans image s r := by
  intro fuel hfuel
  obtain ⟨fuel, rfl⟩ := exists_eq_succ_of_ne_zero (ne_zero_of_lt hfuel)
  have hpos := leftInBlock_pos s.offset
  rw [scanLoop, if_neg (by omega), if_pos hleft]
  exact h fuel (by dsimp only; omega)

theorem scans_read (hlt : s.offset < image.length)
    (hleft : ¬ leftInBlock s.offset < kMinFragmentBytes) {f : Fragment}
    (hread : readFragment image s.offset = .ok f) (hlegal : legalTransition s.inside f.type)
    (habsorb : s.absorb f = some s')
    (h : Scans image { s' with offset := s.offset + (kHeaderBytes + f.payload.length) } r) :
    Scans image s r := by
  intro fuel hfuel
  obtain ⟨fuel, rfl⟩ := exists_eq_succ_of_ne_zero (ne_zero_of_lt hfuel)
  rw [scanLoop, if_neg (by omega), if_neg hleft, hread]
  simp only [hlegal, habsorb, Bool.not_true, Bool.false_eq_true, if_false]
  exact h fuel (by dsimp only [kHeaderBytes]; omega)

theorem stops_of_le (h : image.length ≤ s.offset) : Stops image s := by
  have hscan : ∀ r, (if s.inside then
      { s with offset := image.length }.fail image "incomplete multi-fragment record at EOF" false
    else { s.r with outcome := .cleanEnd }) = r → Scans image s r := by
    rintro r rfl fuel hfuel
    obtain ⟨fuel, rfl⟩ := exists_eq_succ_of_ne_zero (ne_zero_of_lt hfuel)
    rw [scanLoop, if_pos h]
  refine ⟨_, hscan _ rfl, ?_, fun ps hps => ?_⟩
  · split_ifs
    · rw [fail_torn (by dsimp only; omega)]
      decide
    · simp
  · split_ifs
    · exact @fail_holds { s with offset := image.length } ps hps _ _ _
    · exact ⟨hps.payloads, hps.kinds, hps.committed⟩

theorem stops_of_cut (hlt : s.offset < image.length)
    (hleft : ¬ leftInBlock s.offset < kMinFragmentBytes) {why : String}
    (hread : readFragment image s.offset = .error why)
    (hend : image.length ≤ s.offset + leftInBlock s.offset) : Stops image s := by
  refine ⟨s.fail image why false, fun fuel hfuel => ?_, ?_, fun ps hps => fail_holds hps _ _ _⟩
  · obtain ⟨fuel, rfl⟩ := exists_eq_succ_of_ne_zero (ne_zero_of_lt hfuel)
    rw [scanLoop, if_neg (by omega), if_neg hleft, hread]
  · rw [fail_torn hend]
    decide

/-- The part of a record that has been assembled, between fragments. -/
def part (s : ScanState) (first : Bool) : Slice := if first then [] else s.assembling

/-- A fragment in the right place is legal; the last one ends a record, and the others are kept. -/
theorem absorb_typeOf {first : Bool} (hin : s.inside = !first) (last : Bool) (q : Slice) :
    legalTransition s.inside (LogWriter.typeOf first last) ∧
      (last → ∀ kind seq, peekKindAndSeq (s.part first ++ q) = some (kind, seq) →
        ∃ s' start, s.absorb ⟨LogWriter.typeOf first last, q⟩ = some s' ∧ s'.inside = false ∧
          s'.r = s.r.commitRecord kind (s.part first ++ q) start) ∧
      (¬ last → ∃ s', s.absorb ⟨LogWriter.typeOf first last, q⟩ = some s' ∧ s'.inside = true ∧
        s'.assembling = s.part first ++ q ∧ s'.r = s.r) := by
  cases first <;> cases last <;>
    simp_all [LogWriter.typeOf, legalTransition, absorb, part]

theorem finds_or_stops {fuel : ℕ} {first : Bool} {p tail : Slice} (hp : 0 < p.length)
    (hfuel : 2 * p.length ≤ fuel + if leftInBlock s.offset < kMinFragmentBytes then 0 else 1)
    (hin : s.inside = !first) {kind : RecordKind} {seq : ℕ}
    (hkind : peekKindAndSeq (s.part first ++ p) = some (kind, seq))
    (hpre : image.drop s.offset <+: frames fuel first s.offset p ++ tail) :
    (s.offset + (frames fuel first s.offset p).length ≤ image.length ∧
      Finds image s (s.offset + (frames fuel first s.offset p).length) (s.part first ++ p)) ∨
    (image.length < s.offset + (frames fuel first s.offset p).length ∧ Stops image s) := by
  induction fuel generalizing first p s with
  | zero => split_ifs at hfuel <;> omega
  | succ fuel ih =>
    simp only [frames] at hpre ⊢
    have hpos := leftInBlock_pos s.offset
    by_cases hend : image.length ≤ s.offset
    · refine .inr ⟨?_, stops_of_le hend⟩
      split_ifs <;> simp only [length_append, length_replicate, length_fragmentHeader,
        kHeaderBytes] <;> omega
    have hend := not_le.mp hend
    by_cases hleft : leftInBlock s.offset < kMinFragmentBytes
    · -- Padding: the next fragment starts a block.
      rw [if_pos hleft] at hpre hfuel ⊢
      have hdrop := hpre.drop (leftInBlock s.offset)
      rw [drop_drop, append_assoc, drop_left' (length_replicate ..)] at hdrop
      rw [length_append, length_replicate, ← add_assoc]
      have hfuel' : 2 * p.length ≤ fuel +
          if leftInBlock (s.offset + leftInBlock s.offset) < kMinFragmentBytes then 0 else 1 := by
        rw [leftInBlock_add, if_neg (by decide)]
        omega
      rcases @ih { s with offset := s.offset + leftInBlock s.offset } first p hp hfuel' hin hkind hdrop
        with ⟨hle, hfinds⟩ | ⟨hlt, hstops⟩
      · exact .inl ⟨hle, hfinds.of_step rfl fun r => scans_pad hend hleft⟩
      · exact .inr ⟨hlt, hstops.of_step rfl fun r => scans_pad hend hleft⟩
    · rw [if_neg hleft] at hpre hfuel ⊢
      generalize hn : min (leftInBlock s.offset - kHeaderBytes) p.length = n at hpre ⊢
      have htake : (p.take n).length = n := length_take_of_le (hn ▸ min_le_right _ _)
      have hfit : 0 < n ∧ kHeaderBytes + n ≤ leftInBlock s.offset := by
        unfold kMinFragmentBytes at hleft
        omega
      generalize hrest : (if n = p.length then [] else
        frames fuel false (s.offset + (kHeaderBytes + n)) (p.drop n)) = rest at hpre ⊢
      have hlen : ∀ type, (fragmentHeader type (p.take n) ++ p.take n).length = kHeaderBytes + n :=
        fun type => by rw [length_append, length_fragmentHeader, htake]
      rw [append_assoc _ rest] at hpre
      by_cases hwhole : s.offset + (kHeaderBytes + n) ≤ image.length
      · have hread := readFragment_whole (by rw [htake]; exact hfit.1) (by rw [htake]; exact hfit.2)
          (prefix_of_prefix_length_le (prefix_append _ _) hpre
            (by rw [hlen, length_drop]; omega))
        obtain ⟨hlegal, hends, hmore⟩ := absorb_typeOf hin (decide (n = p.length)) (p.take n)
        rw [length_append, hlen]
        by_cases hlast : n = p.length
        · have hall : p.take n = p := by rw [hlast, take_length]
          rw [if_pos hlast] at hrest
          obtain ⟨s', start, habsorb, hin', hr⟩ := hends (by simpa using hlast) kind seq (by rwa [hall])
          rw [hall] at hr
          subst hrest
          refine .inl ⟨by simpa using hwhole, { s' with offset := s.offset + (kHeaderBytes + n) },
            by simp, hin', fun ps hps => hr ▸ hps.commitRecord hkind start, fun r hscan => ?_⟩
          exact scans_read hend hleft hread hlegal habsorb (by rwa [htake])
        · rw [if_neg hlast] at hrest
          obtain ⟨s', habsorb, hin', hacc, hr⟩ := hmore (by simpa using hlast)
          have hdrop := hpre.drop (kHeaderBytes + n)
          rw [drop_drop, drop_left' (hlen _), ← hrest] at hdrop
          have hpart : s'.part false ++ p.drop n = s.part first ++ p := by
            change s'.assembling ++ _ = _
            rw [hacc, append_assoc, take_append_drop]
          have hstep : ∀ r, Scans image { s' with offset := s.offset + (kHeaderBytes + n) } r →
              Scans image s r :=
            fun r hscan => scans_read hend hleft hread hlegal habsorb (by rwa [htake])
          have hih := @ih { s' with offset := s.offset + (kHeaderBytes + n) } false (p.drop n)
            (by rw [length_drop]; omega) (by rw [length_drop]; split_ifs <;> omega)
            hin' (by rw [← hkind, ← hpart]; rfl) hdrop
          rw [← hrest, ← add_assoc]
          rcases hih with ⟨hle, hfinds⟩ | ⟨hlt, hstops⟩
          · refine .inl ⟨hle, ?_⟩
            rw [← hpart]
            exact hfinds.of_step hr hstep
          · exact .inr ⟨hlt, hstops.of_step hr hstep⟩
      · obtain ⟨why, hread⟩ := readFragment_cut (by rw [htake]; exact hfit.1) (by rw [htake]; exact hfit.2)
          (prefix_of_prefix_length_le hpre (prefix_append _ _)
            (by rw [hlen, length_drop]; omega))
          (by rw [length_drop, htake]; omega)
        refine .inr ⟨by rw [length_append, hlen]; omega, ?_⟩
        exact stops_of_cut hend hleft hread (by omega)

theorem scans_log {ps : List Slice} (hps : ∀ p ∈ ps, (peekKindAndSeq p).isSome)
    (hin : s.inside = false) (hle : s.offset ≤ image.length)
    (hpre : image.drop s.offset <+: logBytes s.offset ps) :
    ∃ r j, Scans image s r ∧ r.outcome ≠ .interiorCorruption ∧ j ≤ ps.length ∧
      (∀ qs, s.r.Holds qs → r.Holds (qs ++ ps.take j)) ∧
      ∀ i ≤ ps.length, i ≤ j ↔ s.offset + (logBytes s.offset (ps.take i)).length ≤ image.length := by
  induction ps generalizing s with
  | nil =>
    have hend : image.length ≤ s.offset := by
      simpa [logBytes, prefix_nil] using hpre
    obtain ⟨r, hscan, hout, hholds⟩ := stops_of_le hend
    refine ⟨r, 0, hscan, hout, le_rfl, by simpa using hholds, fun i hi => ?_⟩
    simp [le_zero.mp hi, logBytes, hle]
  | cons p ps ih =>
    obtain ⟨⟨kind, seq⟩, hkind⟩ := Option.isSome_iff_exists.mp (hps p mem_cons_self)
    have hpos := length_pos_of_peek (hps p mem_cons_self)
    have hfuel : 2 * p.length ≤
        2 * p.length + if leftInBlock s.offset < kMinFragmentBytes then 0 else 1 := by omega
    rcases @finds_or_stops image s (2 * p.length) true p _ hpos hfuel (by simpa using hin) kind seq
      (by simpa [part] using hkind) hpre with ⟨hwhole, s', ho, hin', hholds, hscan⟩ | ⟨hcut, hstops⟩
    · change s.offset + (recordBytes s.offset p).length ≤ image.length at hwhole
      change s'.offset = s.offset + (recordBytes s.offset p).length at ho
      have hdrop := hpre.drop (recordBytes s.offset p).length
      rw [drop_drop, logBytes, drop_left, ← ho] at hdrop
      obtain ⟨r, j, hr, hout, hj, hmore, hiff⟩ := ih (fun q hq => hps q (mem_cons_of_mem p hq))
        hin' (ho ▸ hwhole) hdrop
      refine ⟨r, j + 1, hscan r hr, hout, by simpa using hj, fun qs hqs => ?_, fun i hi => ?_⟩
      · simpa [part] using hmore _ (hholds qs hqs)
      · cases i with
        | zero => simpa [logBytes] using hle
        | succ i =>
          rw [take_succ_cons, logBytes, length_append, ← add_assoc, ← ho,
            ← hiff i (by simpa using hi), add_le_add_iff_right]
    · change image.length < s.offset + (recordBytes s.offset p).length at hcut
      obtain ⟨r, hscan, hout, hholds⟩ := hstops
      refine ⟨r, 0, hscan, hout, zero_le _, by simpa using hholds, fun i hi => ?_⟩
      cases i with
      | zero => simpa [logBytes] using hle
      | succ i =>
        rw [take_succ_cons, logBytes, length_append]
        omega

end ScanState

/-- Of any part of a log that starts at its beginning, a scan finds the records that lie in it
whole, and it does not take the cut for corruption. -/
theorem scanLog_spec (hps : ∀ p ∈ ps, (peekKindAndSeq p).isSome) {image : Slice}
    (hpre : image <+: logBytes 0 ps) :
    ∃ j ≤ ps.length, (scanLog image).outcome ≠ .interiorCorruption ∧
      (scanLog image).Holds (ps.take j) ∧
      ∀ i ≤ ps.length, i ≤ j ↔ (logBytes 0 (ps.take i)).length ≤ image.length := by
  obtain ⟨r, j, hscan, hout, hj, hholds, hiff⟩ :=
    @ScanState.scans_log image {} ps hps rfl (zero_le _) hpre
  have hr : scanLog image = r := hscan _ (lt_succ_of_le (sub_le _ _))
  refine ⟨j, hj, hr ▸ hout, hr ▸ hholds [] ⟨rfl, by simp, rfl⟩, fun i hi => ?_⟩
  simpa using hiff i hi

/-! ### Groups -/

section

variable {α : Type*} {p : α → Bool}

theorem rdropWhile_append_of_pos {l l' : List α} (h : ∀ x ∈ l', p x) :
    (l ++ l').rdropWhile p = l.rdropWhile p := by
  unfold rdropWhile
  rw [reverse_append, dropWhile_append_of_pos fun x hx => h x (mem_reverse.mp hx)]

/-- A list of groups, each with one end and at its end, is cut anywhere after a head. What comes after
the last end is dropped: whole groups are left, all of those that lie before the cut. -/
theorem rdropWhile_take_flatten {hd : List α} {gs : List (List α)}
    (hgs : ∀ g ∈ gs, ∃ body x, g = body ++ [x] ∧ (∀ y ∈ body, p y) ∧ ¬ p x) {j : ℕ}
    (hj : hd.length ≤ j) :
    ∃ m ≤ gs.length, ((hd ++ gs.flatten).take j).rdropWhile p =
        (if m = 0 then hd.rdropWhile p else hd ++ (gs.take m).flatten) ∧
      ∀ i ≤ gs.length, hd.length + (gs.take i).flatten.length ≤ j → i ≤ m := by
  induction gs generalizing hd with
  | nil =>
    refine ⟨0, le_rfl, ?_, fun i hi _ => hi⟩
    rw [flatten_nil, append_nil, take_of_length_le hj, if_pos rfl]
  | cons g gs ih =>
    obtain ⟨body, x, rfl, hbody, hx⟩ := hgs g mem_cons_self
    by_cases hcut : (hd ++ (body ++ [x])).length ≤ j
    · obtain ⟨m, hm, heq, hmax⟩ := ih (fun g hg => hgs g (mem_cons_of_mem _ hg)) hcut
      refine ⟨m + 1, by simpa using hm, ?_, fun i hi hle => ?_⟩
      · rw [flatten_cons, ← append_assoc hd, heq, if_neg (succ_ne_zero m),
          take_succ_cons, flatten_cons, ← append_assoc hd (body ++ [x])]
        split_ifs with h0
        · rw [h0, ← append_assoc, rdropWhile_concat_neg _ _ _ hx]
          simp
        · rfl
      · cases i with
        | zero => exact zero_le _
        | succ i =>
          refine succ_le_succ (hmax i (by simpa using hi) ?_)
          rw [take_succ_cons, flatten_cons, length_append] at hle
          rw [length_append]
          omega
    · refine ⟨0, zero_le _, ?_, fun i hi hle => ?_⟩
      · -- The cut is inside of the first group, before its end.
        rw [if_pos rfl, flatten_cons, take_append, take_of_length_le hj]
        refine rdropWhile_append_of_pos fun y hy => hbody y ?_
        have hlt : j - hd.length ≤ body.length := by
          simp only [length_append, length_singleton] at hcut
          omega
        rw [append_assoc, take_append_of_le_length hlt] at hy
        exact mem_of_mem_take hy
      · cases i with
        | zero => exact le_rfl
        | succ i =>
          rw [take_succ_cons, flatten_cons, length_append] at hle
          rw [length_append] at hcut
          omega

end

end Rift.Engine
