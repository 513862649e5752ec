import Rift.Engine.Batch

/-!
# The write-ahead log

A batch becomes one BATCH record of `engine-cpp/src/wal/format.cc`: a kind byte, the sequence, and
the operations with length-prefixed keys and values. Before it is encoded, `Wal::Apply` collapses the
operations once more, to the last one for each key.
-/

namespace Rift.Engine

open List

/-! ### Little-endian integers -/

/-- The `w` low bytes of a number, least significant first. -/
def putLE : ℕ → ℕ → Slice
  | 0, _ => []
  | w + 1, n => UInt8.ofNat n :: putLE w (n / 256)

/-- Fold bytes back into a number. -/
def getLE : Slice → ℕ := foldr (fun b n => b.toNat + 256 * n) 0

@[simp] theorem length_putLE (w n : ℕ) : (putLE w n).length = w := by
  induction w generalizing n with
  | zero => rfl
  | succ w ih => simp [putLE, ih]

theorem getLE_putLE {w n : ℕ} (h : n < 256 ^ w) : getLE (putLE w n) = n := by
  induction w generalizing n with
  | zero =>
    obtain rfl : n = 0 := by simpa using h
    rfl
  | succ w ih =>
    have hdiv : n / 256 < 256 ^ w := Nat.div_lt_of_lt_mul (by rwa [Nat.mul_comm, ← Nat.pow_succ])
    change (UInt8.ofNat n).toNat + 256 * getLE (putLE w (n / 256)) = n
    rw [ih hdiv, UInt8.toNat_ofNat']
    omega

/-! ### The BATCH record -/

def OpKind.toByte : OpKind → UInt8
  | .set => 0
  | .delete => 1
  | .deleteRange => 2

def OpKind.ofByte (b : UInt8) : Option OpKind :=
  if b = 0 then some .set else if b = 1 then some .delete else if b = 2 then some .deleteRange
  else none

/-- The operation carries a value. -/
def OpKind.valued : OpKind → Bool
  | .set | .deleteRange => true
  | .delete => false

/-- The record kind of a batch. -/
def kBatch : UInt8 := 1

/-- A length-prefixed byte string. -/
def putSlice (s : Slice) : Slice := putLE 4 s.length ++ s

def encodeOp (op : Op) : Slice :=
  op.kind.toByte :: (putSlice op.key ++ if op.kind.valued then putSlice op.value else [])

def encodeBatch (seq : ℕ) (ops : List Op) : Slice :=
  kBatch :: (putLE 8 seq ++ (putLE 4 ops.length ++ ops.flatMap encodeOp))

/-- What one operation adds to a record. -/
def opBytes (op : Op) : ℕ :=
  1 + 4 + op.key.length + if op.kind.valued then 4 + op.value.length else 0

/-- The size formula of a record. -/
def batchRecordBytes (ops : List Op) : ℕ := 1 + 8 + 4 + (ops.map opBytes).sum

/-- Read a number of `w` bytes. -/
def takeLE (w : ℕ) (p : Slice) : Option (ℕ × Slice) :=
  if p.length < w then none else some (getLE (p.take w), p.drop w)

/-- Read a length-prefixed byte string. -/
def takeSlice (p : Slice) : Option (Slice × Slice) := do
  let (n, p) ← takeLE 4 p
  if p.length < n then none else some (p.take n, p.drop n)

def decodeOp (p : Slice) : Option (Op × Slice) := do
  let (k, p) ← takeLE 1 p
  let kind ← OpKind.ofByte (UInt8.ofNat k)
  let (key, p) ← takeSlice p
  if kind.valued then
    let (value, p) ← takeSlice p
    return ({ kind := kind, key := key, value := value }, p)
  else return ({ kind := kind, key := key }, p)

def decodeOps : ℕ → Slice → Option (List Op × Slice)
  | 0, p => some ([], p)
  | n + 1, p => do
    let (op, p) ← decodeOp p
    let (ops, p) ← decodeOps n p
    return (op :: ops, p)

structure DecodedBatch where
  seq : ℕ
  ops : List Op
  deriving DecidableEq, Repr

/-- Read a BATCH record; `none` on any malformation. -/
def decodeBatch (payload : Slice) : Option DecodedBatch := do
  let (kind, p) ← takeLE 1 payload
  if kind ≠ kBatch.toNat then none
  let (seq, p) ← takeLE 8 p
  let (count, p) ← takeLE 4 p
  let (ops, p) ← decodeOps count p
  if p ≠ [] then none
  return { seq := seq, ops := ops }

/-- The lengths of an operation fit their fields, and a deletion carries no value. -/
structure Op.Fits (op : Op) : Prop where
  key : op.key.length < 2 ^ 32
  value : op.value.length < 2 ^ 32
  bare : ¬ op.kind.valued → op.value = []

theorem takeLE_putLE {w n : ℕ} (h : n < 256 ^ w) (p : Slice) :
    takeLE w (putLE w n ++ p) = some (n, p) := by
  unfold takeLE
  rw [if_neg (by simp), take_left' (length_putLE w n), drop_left' (length_putLE w n),
    getLE_putLE h]

theorem takeSlice_putSlice {s : Slice} (h : s.length < 2 ^ 32) (p : Slice) :
    takeSlice (putSlice s ++ p) = some (s, p) := by
  have hlen : s.length < 256 ^ 4 := h.trans_eq (by decide)
  unfold takeSlice putSlice
  rw [append_assoc, takeLE_putLE hlen]
  simp

theorem takeLE_byte (b : UInt8) (p : Slice) : takeLE 1 (b :: p) = some (b.toNat, p) := by
  simp [takeLE, getLE]

theorem OpKind.ofByte_toByte (k : OpKind) : OpKind.ofByte k.toByte = some k := by
  cases k <;> rfl

theorem decodeOp_encodeOp {op : Op} (h : op.Fits) (p : Slice) :
    decodeOp (encodeOp op ++ p) = some (op, p) := by
  obtain ⟨kind, key, value⟩ := op
  have hkind : OpKind.ofByte (UInt8.ofNat kind.toByte.toNat) = some kind := by
    rw [UInt8.ofNat_toNat, OpKind.ofByte_toByte]
  unfold decodeOp encodeOp
  rw [cons_append, takeLE_byte]
  simp only [Option.bind_eq_bind, Option.bind_some, hkind, append_assoc,
    takeSlice_putSlice h.key]
  by_cases hv : kind.valued
  · simp [hv, takeSlice_putSlice h.value]
  · obtain rfl : value = [] := h.bare hv
    simp [hv]

variable {ops : List Op} {seq : ℕ}

theorem decodeOps_flatMap (h : ∀ op ∈ ops, op.Fits) (p : Slice) :
    decodeOps ops.length (ops.flatMap encodeOp ++ p) = some (ops, p) := by
  induction ops with
  | nil => rfl
  | cons op ops ih =>
    have ih := ih fun x hx => h x (mem_cons_of_mem _ hx)
    simp [decodeOps, append_assoc, decodeOp_encodeOp (h op mem_cons_self), ih]

theorem decodeBatch_encodeBatch (hs : seq < 2 ^ 64) (hn : ops.length < 2 ^ 32)
    (h : ∀ op ∈ ops, op.Fits) :
    decodeBatch (encodeBatch seq ops) = some { seq := seq, ops := ops } := by
  have hs' : seq < 256 ^ 8 := hs.trans_eq (by decide)
  have hn' : ops.length < 256 ^ 4 := hn.trans_eq (by decide)
  have hops := decodeOps_flatMap h []
  rw [append_nil] at hops
  simp [decodeBatch, encodeBatch, takeLE_byte, takeLE_putLE hs', takeLE_putLE hn', hops]

/-! ### The collapse of the log -/

/-- Drop every operation that the next one has the key of. -/
def lastOfKey : List Op → List Op
  | a :: b :: ops => if a.key = b.key then lastOfKey (b :: ops) else a :: lastOfKey (b :: ops)
  | ops => ops

/-- A stable sort by key, of which the last operation for each key survives. -/
def lastOps (ops : List Op) : List Op :=
  lastOfKey (ops.insertionSort (·.key ≤ ·.key))

/-- An operation put in front of those with its key, in a sorted list, survives only where there are
none. -/
theorem lastOfKey_orderedInsert {l : List Op} (h : l.Pairwise (·.key ≤ ·.key)) (a : Op) :
    (lastOfKey (l.orderedInsert (·.key ≤ ·.key) a)).Perm
      (if a.key ∈ l.map (·.key) then lastOfKey l else a :: lastOfKey l) := by
  induction l with
  | nil => simp [lastOfKey]
  | cons b l ih =>
    obtain ⟨hfirst, hrest⟩ := pairwise_cons.mp h
    have ih := ih hrest
    by_cases hab : a.key ≤ b.key
    · rw [orderedInsert_cons, if_pos hab, lastOfKey]
      by_cases heq : a.key = b.key
      · simp [heq]
      · have hnot : a.key ∉ (b :: l).map (·.key) := by
          rw [map_cons, mem_cons, not_or]
          refine ⟨heq, fun hin => ?_⟩
          obtain ⟨x, hx, hk⟩ := mem_map.mp hin
          exact heq (le_antisymm hab (hk ▸ hfirst x hx))
        rw [if_neg heq, if_neg hnot]
    · -- What follows `b` has its key exactly when it did before the insertion.
      rw [orderedInsert_cons, if_neg hab]
      have hba : b.key ≠ a.key := fun h => hab h.ge
      cases l with
      | nil => simp [lastOfKey, hba, hba.symm, List.Perm.swap]
      | cons c l =>
        have hkeep : lastOfKey (b :: (c :: l).orderedInsert (·.key ≤ ·.key) a) =
            if b.key = c.key then lastOfKey ((c :: l).orderedInsert (·.key ≤ ·.key) a)
            else b :: lastOfKey ((c :: l).orderedInsert (·.key ≤ ·.key) a) := by
          by_cases hac : a.key ≤ c.key
          · have hbc : b.key ≠ c.key := fun h => hab (h ▸ hac)
            rw [orderedInsert_cons, if_pos hac, lastOfKey, if_neg hba, if_neg hbc]
          · rw [orderedInsert_cons, if_neg hac, lastOfKey]
        rw [hkeep, lastOfKey]
        have hmem : a.key ∈ (b :: c :: l).map (·.key) ↔ a.key ∈ (c :: l).map (·.key) := by
          rw [map_cons (l := c :: l), mem_cons, or_iff_right hba.symm]
        simp only [hmem]
        split_ifs at ih ⊢
        · exact ih
        · exact ih
        · exact ih.cons b
        · exact (ih.cons b).trans (List.Perm.swap _ _ _)

theorem lastOps_cons (a : Op) (l : List Op) : (lastOps (a :: l)).Perm
    (if a.key ∈ l.map (·.key) then lastOps l else a :: lastOps l) := by
  have hperm := (perm_insertionSort (fun a b : Op => a.key ≤ b.key) l).map (·.key)
  have h := lastOfKey_orderedInsert (pairwise_insertionSort (fun a b : Op => a.key ≤ b.key) l) a
  simp only [hperm.mem_iff] at h
  exact h

theorem lastOps_perm (h : (ops.map (·.key)).Nodup) : (lastOps ops).Perm ops := by
  induction ops with
  | nil => exact .refl []
  | cons a l ih =>
    obtain ⟨hnot, hl⟩ := nodup_cons.mp h
    have hcons := lastOps_cons a l
    rw [if_neg hnot] at hcons
    exact hcons.trans ((ih hl).cons a)

/-- Of two lists without repeated keys, the second survives, and of the first what the second has no
key of. -/
theorem lastOps_append {l₁ l₂ : List Op} (h₁ : (l₁.map (·.key)).Nodup)
    (h₂ : (l₂.map (·.key)).Nodup) :
    (lastOps (l₁ ++ l₂)).Perm (l₁.filter (fun op => op.key ∉ l₂.map (·.key)) ++ l₂) := by
  induction l₁ with
  | nil => exact lastOps_perm h₂
  | cons a l₁ ih =>
    obtain ⟨hnot, hl⟩ := nodup_cons.mp h₁
    have hmem : a.key ∈ (l₁ ++ l₂).map (·.key) ↔ a.key ∈ l₂.map (·.key) := by
      rw [map_append, mem_append, or_iff_right hnot]
    refine (lastOps_cons a (l₁ ++ l₂)).trans ?_
    by_cases hin : a.key ∈ l₂.map (·.key)
    · rw [if_pos (hmem.mpr hin), filter_cons_of_neg (by simpa using hin)]
      exact ih hl
    · rw [if_neg (mt hmem.mp hin), filter_cons_of_pos (by simpa using hin)]
      exact (ih hl).cons a

/-! ### Admission -/

/-- The sizes a log is configured with. -/
structure Caps where
  maxRecordBytes : ℕ := 64 * 1024 * 1024
  walBufferBytes : ℕ := 256 * 1024 * 1024
  /-- Zero disables backpressure. -/
  busyBytes : ℕ := 192 * 1024 * 1024
  deriving DecidableEq, Repr

/-- Why a batch is refused. -/
inductive WalError
  | recordTooLarge (bytes cap : ℕ)
  | applyAfterClose
  | walBufferFull (bytes cap : ℕ)
  | busy (bytes cap : ℕ)
  deriving DecidableEq, Repr

/-- The log: the records not yet handed to a sync, and what is charged for them and for those in
flight. -/
structure Wal where
  caps : Caps := {}
  buffered : List Slice := []
  bufferedBytes : ℕ := 0
  inFlightBytes : ℕ := 0
  highSeq : ℕ := 0
  closed : Bool := false
  deriving DecidableEq, Repr

/-- Buffer the record of a batch, or refuse it and change nothing. The charge is for the operations as
submitted; the record is of what the collapse leaves. -/
def Wal.apply (w : Wal) (seq : ℕ) (ops : List Op) : Except WalError Wal :=
  let bytes := batchRecordBytes ops
  if w.caps.maxRecordBytes < bytes then throw (.recordTooLarge bytes w.caps.maxRecordBytes)
  else if w.closed then throw .applyAfterClose
  else if w.caps.walBufferBytes < w.bufferedBytes + bytes then
    throw (.walBufferFull (w.bufferedBytes + bytes) w.caps.walBufferBytes)
  else if w.caps.busyBytes ≠ 0 ∧
      w.caps.busyBytes < w.bufferedBytes + w.inFlightBytes + bytes then
    throw (.busy (w.bufferedBytes + w.inFlightBytes + bytes) w.caps.busyBytes)
  else pure
    { w with
      buffered := w.buffered ++ [encodeBatch seq (lastOps ops)]
      bufferedBytes := w.bufferedBytes + bytes
      highSeq := seq }

theorem Wal.apply_eq {w w' : Wal} (h : w.apply seq ops = .ok w') :
    batchRecordBytes ops ≤ w.caps.maxRecordBytes ∧
      w'.buffered = w.buffered ++ [encodeBatch seq (lastOps ops)] := by
  unfold Wal.apply at h
  dsimp only at h
  split_ifs at h with h₁ h₂ h₃ h₄
  cases h
  exact ⟨not_lt.mp h₁, rfl⟩

end Rift.Engine
