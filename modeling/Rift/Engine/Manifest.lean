import Mathlib.Data.Finset.Basic
import Mathlib.Data.List.Sublists
import Rift.Engine.Groups
import Rift.Lib.OrderedMap

/-!
# The manifest

`engine-cpp/src/sst/manifest.cc`: a log of edits to the set of live files. `AppendGroup` writes the
edits of one change and then the end of the group; `Replay` applies the edits of the groups that have
their end. Nothing but the end marks a group, so what a failed group has left in the file belongs to
the next group that is appended.
-/

namespace Rift.Engine

open List

/-! ### Edits -/

def kMaxLevel : ℕ := 1

structure TableMeta where
  number : ℕ := 0
  fileBytes : ℕ := 0
  smallest : Slice := []
  largest : Slice := []
  largestSeq : ℕ := 0
  level : ℕ := 0
  deriving DecidableEq, Repr

/-- The kinds of edits. The fourth one is reserved: it is decoded, and it changes nothing. -/
inductive ManifestEdit
  | addTable (table : TableMeta)
  | deleteTable (number : ℕ)
  | nextFileNumber (number : ℕ)
  | setLogNumber (number : ℕ)
  | addWal (number : ℕ)
  | deleteWal (number : ℕ)
  deriving DecidableEq, Repr

def encodeTable (t : TableMeta) : Slice :=
  putLE 8 t.number ++ (putLE 8 t.fileBytes ++ (putLE 8 t.largestSeq ++ (putSlice t.smallest ++
    (putSlice t.largest ++ putLE 1 t.level))))

def encodeEdit : ManifestEdit → Slice
  | .addTable t => RecordKind.manifestEdit.toByte :: 1 :: encodeTable t
  | .deleteTable n => RecordKind.manifestEdit.toByte :: 2 :: putLE 8 n
  | .nextFileNumber n => RecordKind.manifestEdit.toByte :: 3 :: putLE 8 n
  | .setLogNumber n => RecordKind.manifestEdit.toByte :: 4 :: putLE 8 n
  | .addWal n => RecordKind.manifestEdit.toByte :: 5 :: putLE 8 n
  | .deleteWal n => RecordKind.manifestEdit.toByte :: 6 :: putLE 8 n

def takeTable (p : Slice) : Option (TableMeta × Slice) := do
  let (number, p) ← takeLE 8 p
  let (fileBytes, p) ← takeLE 8 p
  let (largestSeq, p) ← takeLE 8 p
  let (smallest, p) ← takeSlice p
  let (largest, p) ← takeSlice p
  let (level, p) ← takeLE 1 p
  return ({ number, fileBytes, smallest, largest, largestSeq, level }, p)

/-- The fields of an edit, by its kind, and what is left of the payload. -/
def decodeFields (kind : ℕ) (p : Slice) : Except String (ManifestEdit × Slice) :=
  let numbered (make : ℕ → ManifestEdit) (why : String) : Except String (ManifestEdit × Slice) :=
    match takeLE 8 p with
    | none => .error why
    | some (n, p) => .ok (make n, p)
  match kind with
  | 1 =>
    match takeTable p with
    | none => .error "truncated add-table edit"
    | some (t, p) =>
      if kMaxLevel < t.level then
        .error ("table " ++ toString t.number ++ " is at level " ++ toString t.level ++
          "; this build has " ++ toString (kMaxLevel + 1) ++ " levels")
      else .ok (.addTable t, p)
  | 2 => numbered .deleteTable "truncated delete-table edit"
  | 3 => numbered .nextFileNumber "truncated next-file-number edit"
  | 4 => numbered .setLogNumber "truncated log-number edit"
  | 5 => numbered .addWal "truncated add-wal edit"
  | 6 => numbered .deleteWal "truncated delete-wal edit"
  | _ => .error ("unknown edit kind " ++ toString kind)

def decodeEdit (payload : Slice) : Except String ManifestEdit :=
  match payload with
  | recordKind :: editKind :: p =>
    if recordKind ≠ RecordKind.manifestEdit.toByte then .error "payload is not a manifest edit"
    else
      match decodeFields editKind.toNat p with
      | .error why => .error why
      | .ok (edit, p) => if p ≠ [] then .error "trailing bytes after a complete edit" else .ok edit
  | _ => .error "edit payload is too short to carry its kinds"

/-- Numbers fit the types the source has for them, and the lengths of keys their field. -/
structure TableMeta.Fits (t : TableMeta) : Prop where
  number : t.number < 2 ^ 64
  fileBytes : t.fileBytes < 2 ^ 64
  largestSeq : t.largestSeq < 2 ^ 64
  level : t.level < 2 ^ 8
  smallest : t.smallest.length < 2 ^ 32
  largest : t.largest.length < 2 ^ 32

def ManifestEdit.Fits : ManifestEdit → Prop
  | .addTable t => t.Fits
  | .deleteTable n | .nextFileNumber n | .setLogNumber n | .addWal n | .deleteWal n => n < 2 ^ 64

theorem takeTable_encodeTable {t : TableMeta} (h : t.Fits) :
    takeTable (encodeTable t) = some (t, []) := by
  have h64 : (2 : ℕ) ^ 64 = 256 ^ 8 := by norm_num
  have h8 : (2 : ℕ) ^ 8 = 256 ^ 1 := by norm_num
  obtain ⟨hn, hf, hs, hl, hsm, hla⟩ := h
  rw [h64] at hn hf hs
  rw [h8] at hl
  have hlevel := takeLE_putLE hl []
  rw [append_nil] at hlevel
  simp [takeTable, encodeTable, takeLE_putLE hn, takeLE_putLE hf, takeLE_putLE hs,
    takeSlice_putSlice hsm, takeSlice_putSlice hla, hlevel]

/-- A table is at a level that there is. -/
def ManifestEdit.Placed : ManifestEdit → Prop
  | .addTable t => t.level ≤ kMaxLevel
  | _ => True

/-- An edit reads back as it was written, unless its table is at a level that there is not. -/
theorem decodeEdit_encodeEdit {e e' : ManifestEdit} (h : e.Fits) :
    decodeEdit (encodeEdit e) = .ok e' ↔ e.Placed ∧ e = e' := by
  have hnumber : ∀ n, n < 2 ^ 64 → takeLE 8 (putLE 8 n) = some (n, []) := by
    intro n hn
    have hn : n < 256 ^ 8 := hn.trans_eq (by norm_num)
    simpa using takeLE_putLE hn []
  cases e with
  | addTable t =>
    simp only [decodeEdit, encodeEdit, decodeFields, ManifestEdit.Placed, UInt8.toNat_one,
      takeTable_encodeTable h]
    split_ifs <;> simp_all
  | _ n => simp [decodeEdit, encodeEdit, decodeFields, ManifestEdit.Placed, hnumber n h]

/-! ### The other records -/

def kMagic : Slice := [82, 73, 70, 84, 87, 65, 76, 0]

def kFormatVersion : ℕ := 1

def encodeFileHeader (number : ℕ) : Slice :=
  RecordKind.fileHeader.toByte :: (kMagic ++ (putLE 4 kFormatVersion ++ putLE 8 number))

def encodeGroupEnd (highSeq batchCount : ℕ) : Slice :=
  RecordKind.groupEnd.toByte :: (putLE 8 highSeq ++ putLE 4 batchCount)

structure DecodedFileHeader where
  formatVersion : ℕ
  fileNumber : ℕ
  deriving DecidableEq, Repr

def decodeFileHeader (payload : Slice) : Option DecodedFileHeader := do
  let (kind, p) ← takeLE 1 payload
  if kind ≠ RecordKind.fileHeader.toByte.toNat then none
  if p.take kMagic.length ≠ kMagic then none
  let (formatVersion, p) ← takeLE 4 (p.drop kMagic.length)
  let (fileNumber, p) ← takeLE 8 p
  if p ≠ [] then none
  return { formatVersion, fileNumber }

structure DecodedGroupEnd where
  highSeq : ℕ
  batchCount : ℕ
  deriving DecidableEq, Repr

def decodeGroupEnd (payload : Slice) : Option DecodedGroupEnd := do
  let (kind, p) ← takeLE 1 payload
  if kind ≠ RecordKind.groupEnd.toByte.toNat then none
  let (highSeq, p) ← takeLE 8 p
  let (batchCount, p) ← takeLE 4 p
  if p ≠ [] then none
  return { highSeq, batchCount }

variable {number : ℕ}

theorem decodeFileHeader_encodeFileHeader (h : number < 2 ^ 64) :
    decodeFileHeader (encodeFileHeader number) = some ⟨kFormatVersion, number⟩ := by
  have hn : number < 256 ^ 8 := h.trans_eq (by norm_num)
  have hv : kFormatVersion < 256 ^ 4 := by decide
  have hlast := takeLE_putLE hn []
  rw [append_nil] at hlast
  simp [decodeFileHeader, encodeFileHeader, takeLE_byte, takeLE_putLE hv, hlast]

/-- The end of a group carries a zero sequence, whatever its count. -/
theorem decodeGroupEnd_encodeGroupEnd (n : ℕ) :
    ∃ g, decodeGroupEnd (encodeGroupEnd 0 n) = some g ∧ g.highSeq = 0 := by
  refine ⟨⟨0, getLE (putLE 4 n)⟩, ?_, rfl⟩
  have hz : takeLE 8 (putLE 8 0 ++ putLE 4 n) = some (0, putLE 4 n) := takeLE_putLE (by norm_num) _
  have hc : takeLE 4 (putLE 4 n) = some (getLE (putLE 4 n), []) := by
    simp [takeLE, take_of_length_le]
  simp [decodeGroupEnd, encodeGroupEnd, takeLE_byte, hz, hc]

/-! ### Replay -/

/-- The live tables by number, the counter, and the live logs. -/
structure ManifestState where
  tables : OrderedMap ℕ TableMeta := .empty
  nextFileNumber : ℕ := 1
  wals : Finset ℕ := ∅

instance : DecidableEq ManifestState := fun a b =>
  decidable_of_iff (a.tables = b.tables ∧ a.nextFileNumber = b.nextFileNumber ∧ a.wals = b.wals)
    (by cases a; cases b; simp)

def ManifestEdit.apply (s : ManifestState) : ManifestEdit → ManifestState
  | .addTable t => { s with tables := s.tables.set t.number t }
  | .deleteTable n => { s with tables := s.tables.erase n }
  | .nextFileNumber n => { s with nextFileNumber := n }
  | .setLogNumber _ => s
  | .addWal n => { s with wals := insert n s.wals }
  | .deleteWal n => { s with wals := s.wals.erase n }

/-- One committed record of a manifest. -/
def replayRecord (path : String) (expected : ℕ) (s : Bool × ManifestState) (kind : RecordKind)
    (payload : Slice) : Except String (Bool × ManifestState) :=
  match kind with
  | .fileHeader =>
    if s.1 then .error (path ++ ": a second file header")
    else
      match decodeFileHeader payload with
      | none => .error (path ++ ": malformed file header")
      | some h =>
        if h.fileNumber ≠ expected then
          .error (path ++ ": file header says number " ++ toString h.fileNumber)
        else .ok (true, s.2)
  | .batch => .error (path ++ ": a WAL batch record in a manifest")
  | .groupEnd =>
    match decodeGroupEnd payload with
    | none => .error (path ++ ": malformed group terminator")
    | some g =>
      if g.highSeq ≠ 0 then
        .error (path ++ ": a manifest group terminator carries sequence " ++ toString g.highSeq ++
          "; the manifest may not record a durable sequence")
      else .ok s
  | .manifestEdit =>
    if !s.1 then .error (path ++ ": an edit before the file header")
    else
      match decodeEdit payload with
      | .error why => .error (path ++ ": " ++ why)
      | .ok edit => .ok (true, edit.apply s.2)

/-- The state that a manifest file stands for, or why it is refused. -/
def replay (path : String) (expected : ℕ) (image : Slice) (state : ManifestState) :
    Except String ManifestState :=
  let scan := scanLog image
  if scan.outcome = .interiorCorruption then
    .error (path ++ ": interior corruption at block " ++ toString scan.failureBlock ++
      ", byte offset " ++ toString scan.failureOffset ++ " (" ++ scan.failureReason ++
      "); a structurally valid record follows at offset " ++ toString scan.resyncOffset)
  else
    match (scan.records.take scan.committedCount).foldlM
      (fun s x => replayRecord path expected s x.kind x.payload) (false, state) with
    | .error why => .error why
    | .ok (sawHeader, state) =>
      if !sawHeader then .error (path ++ ": no file header") else .ok state

/-! ### Appending -/

/-- How an append of a group ends: with success, or with the status of the call that failed. -/
inductive GroupStatus
  | ok
  | appendFailed
  | syncFailed
  | syncTorn
  deriving DecidableEq, Repr

/-- The call may have left a part of its group behind the others. -/
def GroupStatus.Spoils (status : GroupStatus) : Prop := status = .appendFailed ∨ status = .syncTorn

instance : DecidablePred GroupStatus.Spoils := fun status =>
  inferInstanceAs (Decidable (status = .appendFailed ∨ status = .syncTorn))

structure Manifest where
  number : ℕ
  writer : LogWriter := {}
  deriving DecidableEq, Repr

/-- The records of a group: its edits, and the end with a zero sequence. -/
def groupRecords (edits : List ManifestEdit) : List Slice :=
  edits.map encodeEdit ++ [encodeGroupEnd 0 edits.length]

namespace Manifest

/-- A manifest as `Open` makes it: the header has been appended. The faults are those of the calls to
come. -/
def create (number : ℕ) (faults : List (Option ℕ)) : Manifest :=
  let w := (({} : LogWriter).addRecord (encodeFileHeader number)).1
  { number := number, writer := { w with file := { w.file with faults := faults } } }

/-- Append the edits of one change and sync. A group of no edits is a failed assertion. -/
def appendGroup (m : Manifest) (edits : List ManifestEdit) : Option (Manifest × GroupStatus) :=
  if edits.isEmpty then none
  else
    match m.writer.addRecords (groupRecords edits) with
    | (w, false) => some ({ m with writer := w }, .appendFailed)
    | (w, true) =>
      match w.file.sync with
      | (f, .ok) => some ({ m with writer := { w with file := f } }, .ok)
      | (f, .failed) => some ({ m with writer := { w with file := f } }, .syncFailed)
      | (f, .torn) => some ({ m with writer := { w with file := f } }, .syncTorn)

/-- Groups one after the other, whatever becomes of each. -/
def appendGroups (m : Manifest) : List (List ManifestEdit) → Option (Manifest × List GroupStatus)
  | [] => some (m, [])
  | g :: gs => do
    let (m, status) ← m.appendGroup g
    let (m, statuses) ← m.appendGroups gs
    return (m, status :: statuses)

end Manifest

/-! ### What a replay applies -/

theorem peek_encodeEdit (e : ManifestEdit) :
    peekKindAndSeq (encodeEdit e) = some (.manifestEdit, 0) := by
  cases e <;> rfl

theorem peek_encodeFileHeader (n : ℕ) :
    peekKindAndSeq (encodeFileHeader n) = some (.fileHeader, 0) := rfl

variable {kind : RecordKind} {seq : ℕ}

theorem peek_of_seq (hkind : kind = .batch ∨ kind = .groupEnd) (hseq : seq < 2 ^ 64)
    (rest : Slice) : peekKindAndSeq (kind.toByte :: (putLE 8 seq ++ rest)) = some (kind, seq) := by
  have hfield : ((kind.toByte :: (putLE 8 seq ++ rest)).drop 1).take 8 = putLE 8 seq :=
    take_left' (length_putLE 8 seq)
  have hlen : ¬ (kind.toByte :: (putLE 8 seq ++ rest)).length < 9 := by simp
  unfold peekKindAndSeq
  rw [hfield, getLE_putLE (by simpa using hseq)]
  rcases hkind with rfl | rfl
  · exact if_neg hlen
  · exact if_neg hlen

theorem peek_encodeGroupEnd (n : ℕ) : peekKindAndSeq (encodeGroupEnd 0 n) = some (.groupEnd, 0) :=
  peek_of_seq (.inr rfl) (by norm_num) _

variable {gs : List (List ManifestEdit)} {state : ManifestState}

section

variable {path : String} {expected : ℕ} {xs : List LogicalRecord} {s' s : Bool × ManifestState}
  {st : ManifestState} {x : LogicalRecord}

/-- The replay of records one after the other. -/
abbrev replayRecords (path : String) (expected : ℕ) (s : Bool × ManifestState)
    (records : List LogicalRecord) : Except String (Bool × ManifestState) :=
  records.foldlM (fun s x => replayRecord path expected s x.kind x.payload) s

theorem replayRecords_cons (h : replayRecords path expected s (x :: xs) = .ok s') :
    ∃ t, replayRecord path expected s x.kind x.payload = .ok t ∧
      replayRecords path expected t xs = .ok s' := by
  rw [replayRecords, foldlM_cons] at h
  cases ht : replayRecord path expected s x.kind x.payload with
  | error why =>
    rw [ht] at h
    cases h
  | ok t =>
    rw [ht] at h
    exact ⟨t, rfl, h⟩

theorem replayRecords_append {ys : List LogicalRecord}
    (h : replayRecords path expected s (xs ++ ys) = .ok s') :
    ∃ t, replayRecords path expected s xs = .ok t ∧ replayRecords path expected t ys = .ok s' := by
  rw [replayRecords, foldlM_append] at h
  cases ht : replayRecords path expected s xs with
  | error why =>
    rw [replayRecords] at ht
    rw [ht] at h
    cases h
  | ok t =>
    rw [replayRecords] at ht
    rw [ht] at h
    exact ⟨t, rfl, h⟩

/-- The kinds of records are those of their payloads. -/
def Kinded (xs : List LogicalRecord) : Prop :=
  ∀ x ∈ xs, (peekKindAndSeq x.payload).map Prod.fst = some x.kind

theorem Kinded.head (h : Kinded (x :: xs)) (hp : peekKindAndSeq x.payload = some (kind, seq)) :
    x.kind = kind := by
  have := h x mem_cons_self
  rw [hp] at this
  exact (Option.some.inj this).symm

theorem replayRecords_edits {edits : List ManifestEdit} (hfits : ∀ e ∈ edits, e.Fits)
    (hxs : xs.map (·.payload) = edits.map encodeEdit) (hk : Kinded xs)
    (h : replayRecords path expected (true, st) xs = .ok s') :
    s' = (true, edits.foldl ManifestEdit.apply st) := by
  induction edits generalizing xs st with
  | nil =>
    obtain rfl := map_eq_nil_iff.mp hxs
    exact (Except.ok.inj h).symm
  | cons e edits ih =>
    obtain ⟨x, xs, rfl, hx, hxs⟩ := map_eq_cons_iff.mp hxs
    obtain ⟨t, ht, hrest⟩ := replayRecords_cons h
    have hkind := hk.head (hx ▸ peek_encodeEdit e)
    rw [hkind, hx, replayRecord] at ht
    simp only [Bool.not_true, Bool.false_eq_true, if_false] at ht
    split at ht
    · cases ht
    · next e' he' =>
      obtain ⟨-, rfl⟩ := (decodeEdit_encodeEdit (hfits e mem_cons_self)).mp he'
      cases ht
      exact ih (fun e he => hfits e (mem_cons_of_mem _ he)) hxs
        (fun y hy => hk y (mem_cons_of_mem _ hy)) hrest

theorem replayRecord_groupEnd (s : Bool × ManifestState) (n : ℕ) :
    replayRecord path expected s .groupEnd (encodeGroupEnd 0 n) = .ok s := by
  obtain ⟨g, hg, hz⟩ := decodeGroupEnd_encodeGroupEnd n
  simp [replayRecord, hg, hz]

theorem replayRecords_groups (hfits : ∀ g ∈ gs, ∀ e ∈ g, e.Fits)
    (hxs : xs.map (·.payload) = (gs.map groupRecords).flatten) (hk : Kinded xs)
    (h : replayRecords path expected (true, st) xs = .ok s') :
    s' = (true, gs.flatten.foldl ManifestEdit.apply st) := by
  induction gs generalizing xs st with
  | nil =>
    obtain rfl := map_eq_nil_iff.mp hxs
    exact (Except.ok.inj h).symm
  | cons g gs ih =>
    rw [map_cons, flatten_cons, groupRecords, append_assoc] at hxs
    obtain ⟨ys, zs, rfl, hys, hzs⟩ := map_eq_append_iff.mp hxs
    obtain ⟨x, zs, rfl, hx, hzs⟩ := map_eq_cons_iff.mp hzs
    obtain ⟨t, ht, hrest⟩ := replayRecords_append h
    have hkz : Kinded (x :: zs) := fun y hy => hk y (mem_append_right _ hy)
    obtain rfl := replayRecords_edits (hfits g mem_cons_self) hys
      (fun y hy => hk y (mem_append_left _ hy)) ht
    obtain ⟨t, ht, hrest⟩ := replayRecords_cons hrest
    rw [hkz.head (hx ▸ peek_encodeGroupEnd g.length), hx, replayRecord_groupEnd] at ht
    cases ht
    rw [flatten_cons, foldl_append]
    exact ih (fun g hg => hfits g (mem_cons_of_mem _ hg)) hzs
      (fun y hy => hkz y (mem_cons_of_mem _ hy)) hrest

end

/-- The records of a manifest: its header, and its groups. -/
def manifestRecords (number : ℕ) (gs : List (List ManifestEdit)) : List Slice :=
  encodeFileHeader number :: (gs.map groupRecords).flatten

/-- However a manifest is cut, a replay that succeeds has applied a number of whole groups, all of
those that lie before the cut. -/
theorem replay_cut {path : String} (hnumber : number < 2 ^ 64) (hfits : ∀ g ∈ gs, ∀ e ∈ g, e.Fits)
    {image : Slice} (hpre : image <+: logBytes 0 (manifestRecords number gs))
    (h : replay path number image {} = .ok state) :
    ∃ m ≤ gs.length, state = (gs.take m).flatten.foldl ManifestEdit.apply {} ∧
      ∀ i ≤ gs.length, (logBytes 0 (manifestRecords number (gs.take i))).length ≤ image.length →
        i ≤ m := by
  have hgroups : ∀ g ∈ gs.map groupRecords, IsGroup .manifestEdit g := by
    intro g hg
    obtain ⟨edits, -, rfl⟩ := mem_map.mp hg
    refine ⟨_, _, rfl, fun y hy => ?_, by simp [kindOf, peek_encodeGroupEnd]⟩
    obtain ⟨e, -, rfl⟩ := mem_map.mp hy
    simp [kindOf, peek_encodeEdit]
  obtain ⟨hout, hkinds, m, hm, hcommitted, hiff⟩ := committed_cut
    (by simp [kindOf, peek_encodeFileHeader]) (by simp) hgroups hpre
  set r := scanLog image
  have hkinded : Kinded (r.records.take r.committedCount) :=
    fun x hx => hkinds x (mem_of_mem_take hx)
  rw [length_map] at hm
  -- a replay that succeeds has seen a group
  have hm0 : m ≠ 0 := by
    rintro rfl
    unfold replay at h
    rw [if_neg hout, map_eq_nil_iff.mp hcommitted] at h
    cases h
  rw [if_neg hm0, ← map_take] at hcommitted
  obtain ⟨x, xs, hxs, hx, hrest⟩ := map_eq_cons_iff.mp hcommitted
  refine ⟨m, hm, ?_, fun i hi hle => ?_⟩
  · unfold replay at h
    rw [if_neg hout] at h
    split at h
    · cases h
    · next sawHeader st hst =>
      rw [hxs] at hst hkinded
      obtain ⟨t, ht, hgo⟩ := replayRecords_cons hst
      rw [hkinded.head (hx ▸ peek_encodeFileHeader number), hx] at ht
      simp only [replayRecord, decodeFileHeader_encodeFileHeader hnumber] at ht
      rw [if_neg (by simp), if_neg (by simp)] at ht
      cases ht
      obtain ⟨rfl, rfl⟩ := Prod.mk.inj (replayRecords_groups
        (fun g hg => hfits g (mem_of_mem_take hg)) hrest
        (fun y hy => hkinded y (mem_cons_of_mem _ hy)) hgo)
      exact (Except.ok.inj h).symm
  · rcases Nat.eq_zero_or_pos i with rfl | hpos
    · exact Nat.zero_le _
    · refine (hiff i hpos (by simpa using hi)).mpr ?_
      rwa [← map_take]

/-! ### Runs -/

namespace Manifest

variable {m m' : Manifest} {status : GroupStatus} {statuses : List GroupStatus} {ps : List Slice}

/-- What one call does: the file holds a part of the log with the group, all of the group has been
appended unless the call spoils the file, and it is synced if the call reports success. -/
theorem appendGroup_spec (hw : m.writer.Wrote ps) {g : List ManifestEdit}
    (h : m.appendGroup g = some (m', status)) :
    m.writer.file.synced ≤ m'.writer.file.synced ∧
      m'.writer.file.synced ≤ m'.writer.file.bytes.length ∧
      m'.writer.file.bytes <+: logBytes 0 (ps ++ groupRecords g) ∧
      (¬ status.Spoils → m'.writer.Wrote (ps ++ groupRecords g)) ∧
      (status = .ok → m'.writer.file.synced = (logBytes 0 (ps ++ groupRecords g)).length) := by
  unfold appendGroup at h
  split_ifs at h
  split at h
  · next w hadd =>
    obtain ⟨hfile, -⟩ := LogWriter.addRecords_spec hadd
    cases h
    refine ⟨hfile.synced.ge, ?_, ?_, fun hs => absurd (.inl rfl) hs, by simp⟩
    · rw [hfile.synced, hfile.bytes]
      exact hw.synced
    · rw [hfile.bytes, logBytes_append, ← hw.appended, WritableFile.appended, append_assoc]
      exact prefix_append _ _
  · next w hadd =>
    obtain ⟨hfile, -⟩ := LogWriter.addRecords_spec hadd
    have hwrote := hw.addRecords hadd
    rw [← hfile.synced, ← hwrote.appended]
    obtain ⟨f, how, hsync⟩ : ∃ f how, w.file.sync = (f, how) := ⟨_, _, rfl⟩
    obtain ⟨hmono, hle, hpre, hkeep, hall⟩ := WritableFile.sync_spec hwrote.synced hsync
    have hgo (hhow : how ≠ .torn) :
        LogWriter.Wrote { w with file := f } (ps ++ groupRecords g) :=
      ⟨(hkeep hhow).trans hwrote.appended, by rw [hkeep hhow]; exact hwrote.offset, hle⟩
    rw [hsync] at h
    cases how with
    | ok =>
      cases h
      exact ⟨hmono, hle, hpre, fun _ => hgo (by simp), fun _ => hall rfl⟩
    | failed =>
      cases h
      exact ⟨hmono, hle, hpre, fun _ => hgo (by simp), by simp⟩
    | torn =>
      cases h
      exact ⟨hmono, hle, hpre, fun hs => absurd (.inr rfl) hs, by simp⟩

/-- A run in which no call but the last spoils the file leaves a part of the log of all groups, and
what was synced covers every group reported as written. -/
theorem appendGroups_spec (hw : m.writer.Wrote ps) (h : m.appendGroups gs = some (m', statuses))
    (hwhole : ∀ s ∈ statuses.dropLast, ¬ s.Spoils) :
    m.writer.file.synced ≤ m'.writer.file.synced ∧
      m'.writer.file.synced ≤ m'.writer.file.bytes.length ∧
      m'.writer.file.bytes <+: logBytes 0 (ps ++ (gs.map groupRecords).flatten) ∧
      ∀ i, statuses[i]? = some .ok →
        (logBytes 0 (ps ++ ((gs.take (i + 1)).map groupRecords).flatten)).length ≤
          m'.writer.file.synced := by
  induction gs generalizing m ps statuses with
  | nil =>
    cases h
    refine ⟨le_rfl, hw.synced, ?_, by simp⟩
    rw [map_nil, flatten_nil, append_nil, ← hw.appended]
    exact prefix_append _ _
  | cons g gs ih =>
    unfold appendGroups at h
    obtain ⟨⟨m₁, status⟩, hm₁, h⟩ := Option.bind_eq_some_iff.mp h
    obtain ⟨⟨m₂, rest⟩, hm₂, h⟩ := Option.bind_eq_some_iff.mp h
    cases h
    obtain ⟨hsync, hle, hpre, hgo, hok⟩ := appendGroup_spec hw hm₁
    by_cases hfail : status.Spoils
    · -- The failed group is the last one.
      have hnil : rest = [] := by
        by_contra hne
        rw [dropLast_cons_of_ne_nil hne] at hwhole
        exact hwhole _ mem_cons_self hfail
      subst hnil
      obtain rfl : gs = [] := by
        cases gs with
        | nil => rfl
        | cons g' gs =>
          unfold appendGroups at hm₂
          obtain ⟨_, -, hm₂⟩ := Option.bind_eq_some_iff.mp hm₂
          obtain ⟨_, -, hm₂⟩ := Option.bind_eq_some_iff.mp hm₂
          cases hm₂
      cases hm₂
      refine ⟨hsync, hle, by simpa using hpre, fun i hi => ?_⟩
      cases i with
      | zero =>
        obtain rfl : status = .ok := by simpa using hi
        rcases hfail with hfail | hfail <;> cases hfail
      | succ i => simp at hi
    · have hw₁ := hgo hfail
      have hwhole' : ∀ s ∈ rest.dropLast, ¬ s.Spoils := by
        intro s hs
        cases rest with
        | nil => simp at hs
        | cons t rest => exact hwhole s (mem_cons_of_mem _ hs)
      obtain ⟨hsync', hle', hpre', hoks⟩ := ih hw₁ hm₂ hwhole'
      refine ⟨hsync.trans hsync', hle', by simpa using hpre', fun i hi => ?_⟩
      cases i with
      | zero =>
        have hstatus : status = .ok := by simpa using hi
        rw [take_succ_cons, take_zero, map_singleton, flatten_singleton, ← hok hstatus]
        exact hsync'
      | succ i => simpa using hoks i (by simpa using hi)

theorem length_of_appendGroups (h : m.appendGroups gs = some (m', statuses)) :
    statuses.length = gs.length := by
  induction gs generalizing m m' statuses with
  | nil =>
    cases h
    rfl
  | cons g gs ih =>
    unfold appendGroups at h
    obtain ⟨_, -, h⟩ := Option.bind_eq_some_iff.mp h
    obtain ⟨⟨m₁, rest⟩, hrest, h⟩ := Option.bind_eq_some_iff.mp h
    cases h
    simp [ih hrest]

theorem create_wrote (number : ℕ) (faults : List (Option ℕ)) :
    (create number faults).writer.Wrote [encodeFileHeader number] := by
  have hempty : ({} : LogWriter).Wrote [] := ⟨rfl, rfl, le_rfl⟩
  obtain ⟨hok, -⟩ := @LogWriter.addRecord_ok {} (encodeFileHeader number) rfl
  have hwrote := hempty.addRecord (Prod.ext rfl hok)
  exact ⟨hwrote.appended, hwrote.offset, hwrote.synced⟩

/-- If no call but the last has a failed append or tears the file, then whatever a crash keeps stands
for a number of whole groups, and every group reported as written is among them. -/
theorem replay_appendGroups (hnumber : number < 2 ^ 64) {faults : List (Option ℕ)}
    (hfits : ∀ g ∈ gs, ∀ e ∈ g, e.Fits)
    (hrun : (create number faults).appendGroups gs = some (m, statuses))
    (hwhole : ∀ s ∈ statuses.dropLast, ¬ s.Spoils) {kept : ℕ}
    (hkept : m.writer.file.synced ≤ kept) {path : String}
    (hreplay : replay path number (m.writer.file.bytes.take kept) {} = .ok state) :
    ∃ n ≤ gs.length, state = (gs.take n).flatten.foldl ManifestEdit.apply {} ∧
      ∀ i, statuses[i]? = some .ok → i < n := by
  obtain ⟨-, hsynced, hpre, hoks⟩ := appendGroups_spec (create_wrote number faults) hrun hwhole
  obtain ⟨n, hn, hstate, hmax⟩ := replay_cut hnumber hfits
    ((List.take_prefix _ _).trans hpre) hreplay
  refine ⟨n, hn, hstate, fun i hi => ?_⟩
  have hlen := length_of_appendGroups hrun
  have hi' := (List.getElem?_eq_some_iff.mp hi).1
  refine hmax (i + 1) (by omega) ((hoks i hi).trans ?_)
  rw [length_take]
  exact le_min hkept hsynced

/-- Three groups: the first is written, the sync of the second writes all and then fails, and in the
third an append fails, three bytes into a record. -/
def sampleGroups : List (List ManifestEdit) :=
  [[.nextFileNumber 5, .addWal 4], [.addWal 3], [.deleteWal 4, .deleteWal 3]]

def sampleFaults : List (Option ℕ) :=
  [none, none, none, none, none, none, none] ++ [none, none, none, none, some 100] ++ [none, some 3]

def sampleRun : Manifest :=
  (((create 2 sampleFaults).appendGroups sampleGroups).getD ({ number := 2 }, [])).1

theorem replay_sampleRun :
    replay "MANIFEST-000002" 2 (sampleRun.writer.file.bytes.take 110) {} =
        .ok { nextFileNumber := 5, wals := {4} } ∧
      ∃ n ≤ 3, ({ nextFileNumber := 5, wals := {4} } : ManifestState) =
          (sampleGroups.take n).flatten.foldl ManifestEdit.apply {} ∧
        ∀ i, [GroupStatus.ok, .syncFailed, .appendFailed][i]? = some .ok → i < n := by
  have hrun : (create 2 sampleFaults).appendGroups sampleGroups =
      some (sampleRun, [.ok, .syncFailed, .appendFailed]) := by decide +kernel
  have hfits : ∀ g ∈ sampleGroups, ∀ e ∈ g, e.Fits := by
    simp [sampleGroups, ManifestEdit.Fits]
  have hreplay : replay "MANIFEST-000002" 2 (sampleRun.writer.file.bytes.take 110) {} =
      .ok { nextFileNumber := 5, wals := {4} } := by decide +kernel
  exact ⟨hreplay, replay_appendGroups (by norm_num) hfits hrun (by decide) (by decide +kernel) hreplay⟩

theorem eq_ok_of_toOption {ε α : Type*} {x : Except ε α} {a : α} (h : x.toOption = some a) :
    x = .ok a := by
  cases x with
  | error => cases h
  | ok b => rw [Option.some.inj h]

/-- The first edit of a group is in the file when the append of the second fails without a byte. The
next group is written, and its end commits that edit as well: no choice of whole groups gives the state
that is replayed. -/
theorem replay_of_leftovers :
    ∃ m, (create 1 [none, none, some 0]).appendGroups [[.addWal 1, .addWal 2], [.addWal 3]] =
        some (m, [.appendFailed, .ok]) ∧
      replay "MANIFEST-000001" 1 m.writer.file.bytes {} = .ok { wals := {1, 3} } ∧
      ∀ gs : List (List ManifestEdit), gs.Sublist [[.addWal 1, .addWal 2], [.addWal 3]] →
        gs.flatten.foldl ManifestEdit.apply {} ≠ { wals := {1, 3} } := by
  refine ⟨(((create 1 [none, none, some 0]).appendGroups
    [[.addWal 1, .addWal 2], [.addWal 3]]).getD ({ number := 1 }, [])).1, by decide +kernel,
    eq_ok_of_toOption (by decide +kernel), fun gs hgs => ?_⟩
  have hall : ∀ gs ∈ List.sublists [[ManifestEdit.addWal 1, .addWal 2], [.addWal 3]],
      gs.flatten.foldl ManifestEdit.apply {} ≠ { wals := {1, 3} } := by decide +kernel
  exact hall gs (mem_sublists.mpr hgs)

-- A sync that tears the file spoils it for the next group: three bytes stand in front of both, and
-- the last group is lost though its call reported success.
example :
    ((create 1 [none, none, none, none, none, none, none, none, none, some 3]).appendGroups
        [[.nextFileNumber 2], [.addWal 1], [.addWal 2]]).map
      (fun run => (run.2, (replay "MANIFEST-000001" 1 run.1.writer.file.bytes {}).toOption)) =
    some ([.ok, .syncTorn, .ok], some { nextFileNumber := 2 }) := by
  decide +kernel

end Manifest

end Rift.Engine
