import Rift.Kv.Timestamp
import Rift.Model.DB

/-!
# The key layout of the versioned store

`kv/encoding.go`: under a namespace, a record's key is a kind byte, the user key behind its length,
and for all kinds but locks an inverted timestamp. The length makes the layout prefix-free: the
records of one kind and one user key are exactly the keys with one prefix, and no other.
-/

namespace Rift.Kv

open List

/-- A user key. Its length fits the four-byte prefix of the layout, as that of every key a log entry
carries does. -/
abbrev Key := Str

abbrev dataPrefix : UInt8 := 100
abbrev lockPrefix : UInt8 := 108
abbrev writePrefix : UInt8 := 119
abbrev txnPrefix : UInt8 := 116
abbrev readPrefix : UInt8 := 114

def metaKey (ns : Bytes) (kind : UInt8) (key : Key) : Bytes := ns ++ kind :: putBytes key.1

/-- The data version of a key at a timestamp. -/
abbrev encodeKey (ns : Bytes) (key : Key) (ts : Timestamp) : Bytes :=
  metaKey ns dataPrefix key ++ invertedTS ts

/-- Every version of a key, and nothing else. -/
abbrev keyPrefix (ns : Bytes) (key : Key) : Bytes := metaKey ns dataPrefix key

/-- Where a key's lock lives. -/
abbrev lockKey (ns : Bytes) (key : Key) : Bytes := metaKey ns lockPrefix key

/-- A transaction's record, at its primary key and start timestamp. -/
abbrev txnKey (ns : Bytes) (key : Key) (startTS : Timestamp) : Bytes :=
  metaKey ns txnPrefix key ++ invertedTS startTS

/-- The commit record of a key at a timestamp. -/
abbrev writeKey (ns : Bytes) (key : Key) (commitTS : Timestamp) : Bytes :=
  metaKey ns writePrefix key ++ invertedTS commitTS

/-- Every commit record of a key, and nothing else. -/
abbrev keyWrites (ns : Bytes) (key : Key) : Bytes := metaKey ns writePrefix key

/-- The read mark of a key, at the timestamp it marks. -/
abbrev readMarkKey (ns : Bytes) (key : Key) (readTS : Timestamp) : Bytes :=
  metaKey ns readPrefix key ++ invertedTS readTS

/-- Every read mark of a key, and nothing else. -/
abbrev keyReads (ns : Bytes) (key : Key) : Bytes := metaKey ns readPrefix key

/-- Read the user key of a record of one kind, and what follows it. -/
def takeMetaKey (ns : Bytes) (kind : UInt8) (b : Bytes) : Option (Key × Bytes) :=
  if ns.isPrefixOf b then
    match b.drop ns.length with
    | k :: rest => if k = kind then takeBytes rest else none
    | [] => none
  else none

/-- Read the user key and the timestamp of a record of one kind. -/
def decodeStamped (kind : UInt8) (ns b : Bytes) : Option (Key × Timestamp) := do
  let (key, rest) ← takeMetaKey ns kind b
  let (ts, rest) ← takeInvertedTS rest
  if rest = [] then some (key, ts) else none

def decodeKey : Bytes → Bytes → Option (Key × Timestamp) := decodeStamped dataPrefix

def decodeWriteKey : Bytes → Bytes → Option (Key × Timestamp) := decodeStamped writePrefix

def decodeReadMarkKey : Bytes → Bytes → Option (Key × Timestamp) := decodeStamped readPrefix

/-- The least key after all keys with a prefix: the last byte that is not `0xFF` is incremented and
what follows it dropped. There is none when every byte is `0xFF`. -/
def prefixEnd : Bytes → Option Bytes
  | [] => none
  | b :: bs =>
    match prefixEnd bs with
    | some e => some (b :: e)
    | none => if b = 0xFF then none else some [b + 1]

/-! ### What the layout says -/

@[simp] theorem takeMetaKey_metaKey (ns : Bytes) (kind : UInt8) (key : Key) (t : Bytes) :
    takeMetaKey ns kind (metaKey ns kind key ++ t) = some (key, t) := by
  have hns : ns.isPrefixOf (metaKey ns kind key ++ t) = true := by
    simp [metaKey, append_assoc]
  rw [takeMetaKey, if_pos hns, metaKey, append_assoc, drop_left]
  simp [takeBytes_putBytes]

variable {ns t b : Bytes} {key key' : Key} {k k' : UInt8} {ts : Timestamp}

theorem eq_of_takeMetaKey {r : Bytes} {kind : UInt8} (h : takeMetaKey ns kind b = some (key, r)) :
    b = metaKey ns kind key ++ r := by
  unfold takeMetaKey at h
  split at h
  · next hpre =>
    obtain ⟨rest, rfl⟩ := isPrefixOf_iff_prefix.mp hpre
    rw [drop_left] at h
    split at h
    · split at h
      · next hkind =>
        rw [takeBytes_eq_some h, metaKey, hkind]
        simp
      · simp at h
    · simp at h
  · simp at h

/-- Whatever a user key and a timestamp were read from is the record of both. -/
theorem eq_encodeKey_of_decodeKey (h : decodeKey ns b = some (key, ts)) :
    b = encodeKey ns key ts := by
  simp only [decodeKey, decodeStamped, Option.bind_eq_bind, Option.bind_eq_some_iff, Prod.exists] at h
  obtain ⟨key', r, hmeta, ts', rest, htake, h⟩ := h
  split at h
  · next hrest =>
    cases h
    rw [eq_of_takeMetaKey hmeta, takeInvertedTS_eq_some htake, hrest, append_nil]
  · simp at h

theorem eq_of_decodeKey (h : decodeKey ns b = some (key, ts)) :
    ∃ r, b = metaKey ns dataPrefix key ++ r :=
  ⟨invertedTS ts, eq_encodeKey_of_decodeKey h⟩

@[simp] theorem decodeStamped_metaKey (ns : Bytes) (kind : UInt8) (key : Key) (ts : Timestamp) :
    decodeStamped kind ns (metaKey ns kind key ++ invertedTS ts) = some (key, ts) := by
  have h := takeInvertedTS_invertedTS ts []
  rw [append_nil] at h
  simp [decodeStamped, h]

theorem putBytes_append_inj {a b : Str} {u : Bytes} :
    putBytes a.1 ++ t = putBytes b.1 ++ u ↔ a = b ∧ t = u := by
  constructor
  · intro h
    have ht := takeBytes_putBytes a t
    rw [h, takeBytes_putBytes] at ht
    simp only [Option.some.injEq, Prod.mk.injEq] at ht
    exact ⟨ht.1.symm, ht.2.symm⟩
  · rintro ⟨rfl, rfl⟩
    rfl

@[simp] theorem metaKey_append_inj {t' : Bytes} :
    metaKey ns k key ++ t = metaKey ns k' key' ++ t' ↔ k = k' ∧ key = key' ∧ t = t' := by
  simp [metaKey, append_assoc, putBytes_append_inj]

@[simp] theorem metaKey_inj : metaKey ns k key = metaKey ns k' key' ↔ k = k' ∧ key = key' := by
  have h : metaKey ns k key ++ [] = metaKey ns k' key' ++ [] ↔ k = k' ∧ key = key' ∧ [] = [] :=
    metaKey_append_inj
  simpa using h

@[simp] theorem metaKey_eq_append :
    metaKey ns k key = metaKey ns k' key' ++ t ↔ k = k' ∧ key = key' ∧ [] = t := by
  rw [← metaKey_append_inj, append_nil]

@[simp] theorem append_eq_metaKey :
    metaKey ns k key ++ t = metaKey ns k' key' ↔ k = k' ∧ key = key' ∧ t = [] := by
  rw [← metaKey_append_inj, append_nil]

@[simp] theorem invertedTS_inj {t u : Timestamp} : invertedTS t = invertedTS u ↔ t = u :=
  invertedTS_injective.eq_iff

@[simp] theorem invertedTS_ne_nil (t : Timestamp) : invertedTS t ≠ [] := by
  intro h
  simpa using congrArg length h

@[simp] theorem kind_ne :
    (dataPrefix ≠ lockPrefix ∧ dataPrefix ≠ writePrefix ∧ dataPrefix ≠ txnPrefix ∧
      dataPrefix ≠ readPrefix) ∧
    (lockPrefix ≠ dataPrefix ∧ lockPrefix ≠ writePrefix ∧ lockPrefix ≠ txnPrefix ∧
      lockPrefix ≠ readPrefix) ∧
    (writePrefix ≠ dataPrefix ∧ writePrefix ≠ lockPrefix ∧ writePrefix ≠ txnPrefix ∧
      writePrefix ≠ readPrefix) ∧
    (txnPrefix ≠ dataPrefix ∧ txnPrefix ≠ lockPrefix ∧ txnPrefix ≠ writePrefix ∧
      txnPrefix ≠ readPrefix) ∧
    (readPrefix ≠ dataPrefix ∧ readPrefix ≠ lockPrefix ∧ readPrefix ≠ writePrefix ∧
      readPrefix ≠ txnPrefix) := by decide

theorem metaKey_invertedTS_lt {t u : Timestamp} :
    metaKey ns k key ++ invertedTS t < metaKey ns k key ++ invertedTS u ↔ u.rank < t.rank := by
  rw [append_lt_append_iff, invertedTS_lt]

theorem inRange_prefixEnd {p k : Bytes} : Model.inRange p (prefixEnd p) k ↔ p <+: k := by
  induction p generalizing k with
  | nil =>
    have hle : [] ≤ k := not_lt.mp (not_lt_nil k)
    simp [Model.inRange, prefixEnd, hle]
  | cons b bs ih =>
    cases k with
    | nil => simp [Model.inRange]
    | cons c ks =>
      have hle : b :: bs ≤ c :: ks ↔ b < c ∨ b = c ∧ bs ≤ ks := by
        rw [← not_lt, cons_lt_cons_iff, ← not_lt]
        rcases lt_trichotomy b c with h | h | h
        · simp [h, h.not_gt, h.ne']
        · simp [h]
        · simp [h, h.not_gt, h.ne']
      simp only [Model.inRange_iff] at ih ⊢
      rw [cons_prefix_cons, ← ih, hle, prefixEnd]
      -- The bound is the bound of the tail, or the next byte when the tail has none.
      cases hend : prefixEnd bs with
      | some e =>
        simp only [Option.mem_def, Option.some.injEq, forall_eq', cons_lt_cons_iff]
        constructor
        · rintro ⟨h | ⟨h, hb⟩, h' | ⟨h', he⟩⟩
          · exact absurd h h'.not_gt
          · exact absurd h' h.ne'
          · exact absurd h h'.ne'
          · exact ⟨h, hb, he⟩
        · rintro ⟨rfl, hb, he⟩
          exact ⟨.inr ⟨rfl, hb⟩, .inr ⟨rfl, he⟩⟩
      | none =>
        by_cases hff : b = 0xFF
        · subst hff
          have hmax : ¬ (0xFF : UInt8) < c := by
            have := c.toNat_lt
            rw [UInt8.lt_iff_toNat_lt]
            simp only [UInt8.reduceToNat]
            omega
          simp [hmax]
        · have hnext : c < b + 1 ↔ c ≤ b := by
            have hb := b.toNat_lt
            have hne : b.toNat ≠ 255 := fun h => hff (UInt8.toNat_inj.mp h)
            rw [UInt8.lt_iff_toNat_lt, UInt8.le_iff_toNat_le, UInt8.toNat_add]
            simp only [UInt8.reduceToNat]
            omega
          simp only [if_neg hff, Option.mem_def, Option.some.injEq, forall_eq',
            cons_lt_cons_iff, not_lt_nil, and_false, or_false, hnext, reduceCtorEq,
            IsEmpty.forall_iff, implies_true, and_true]
          constructor
          · rintro ⟨h | ⟨h, hb⟩, h'⟩
            · exact absurd h h'.not_gt
            · exact ⟨h, hb⟩
          · rintro ⟨rfl, hb⟩
            exact ⟨.inr ⟨rfl, hb⟩, le_rfl⟩

theorem scan_eq_filter (v : Model.Version) (p : Bytes) :
    Model.scan v p (prefixEnd p) = v.entries.filter fun e => p.isPrefixOf e.1 := by
  apply filter_congr
  intro e _
  rw [Bool.eq_iff_iff, inRange_prefixEnd, isPrefixOf_iff_prefix]

end Rift.Kv
