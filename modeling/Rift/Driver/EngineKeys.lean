import Rift.Driver.Persist
import Rift.Driver.Replication

/-!
# The keys of the engine

All ranges of a machine keep their records in one engine, and raft's state beside them. The keys of
`kv/encoding.go` and of `store/node.go` are told apart: by range, by kind and by user key.
-/

namespace Rift.Driver

open Kv List

/-- What a range writes to the engine. -/
inductive EngineKey
  | data (key : Key) (ts : Timestamp)
  | lock (key : Key)
  | write (key : Key) (commitTS : Timestamp)
  | txn (key : Key) (startTS : Timestamp)
  | readMark (key : Key) (readTS : Timestamp)
  | hardState
  | snapshot
  | desc
  | log (i : UInt64)

namespace EngineKey

/-- The key of a range's record. -/
def under (id : RangeID) : EngineKey → Bytes
  | .data key ts => encodeKey (rangePrefix id) key ts
  | .lock key => lockKey (rangePrefix id) key
  | .write key ts => writeKey (rangePrefix id) key ts
  | .txn key ts => txnKey (rangePrefix id) key ts
  | .readMark key ts => readMarkKey (rangePrefix id) key ts
  | .hardState => keyHardStateOf id
  | .snapshot => keySnapshotOf id
  | .desc => keyDescOf id
  | .log i => logKeyOf id i.toNat

/-- What follows the prefix of the range. -/
def suffix : EngineKey → Bytes
  | .data key ts => dataPrefix :: (putBytes key.1 ++ invertedTS ts)
  | .lock key => lockPrefix :: putBytes key.1
  | .write key ts => writePrefix :: (putBytes key.1 ++ invertedTS ts)
  | .txn key ts => txnPrefix :: (putBytes key.1 ++ invertedTS ts)
  | .readMark key ts => readPrefix :: (putBytes key.1 ++ invertedTS ts)
  | .hardState => [47, 104, 115]
  | .snapshot => [47, 115, 110, 97, 112]
  | .desc => [47, 100, 101, 115, 99]
  | .log i => [47, 101, 47] ++ putU64 i

theorem under_eq (id : RangeID) (k : EngineKey) : k.under id = rangePrefix id ++ k.suffix := by
  cases k <;> simp [under, suffix, encodeKey, writeKey, txnKey, readMarkKey, metaKey, keyHardStateOf,
    keySnapshotOf, keyDescOf, logKeyOf, logPrefixOf, putU64]

theorem kind_ne_slash :
    (dataPrefix ≠ 47 ∧ lockPrefix ≠ 47 ∧ writePrefix ≠ 47 ∧ txnPrefix ≠ 47 ∧ readPrefix ≠ 47) ∧
      47 ≠ dataPrefix ∧ 47 ≠ lockPrefix ∧ 47 ≠ writePrefix ∧ 47 ≠ txnPrefix ∧ 47 ≠ readPrefix := by
  decide

theorem suffix_injective : Function.Injective suffix := by
  intro a b h
  cases a <;> cases b <;> simp [suffix, kind_ne_slash, putBytes_append_inj] at h ⊢
  case lock.lock key key' =>
    exact (putBytes_append_inj.mp (congrArg (· ++ []) h)).1
  case log.log i j =>
    have hi := takeU64_putU64 i []
    rw [h, takeU64_putU64] at hi
    exact (Prod.mk.inj (Option.some.inj hi)).1.symm
  all_goals exact h

/-- A key begins with the prefix of a kind and a user key, if it is such a record. -/
theorem isPrefix_under {id id' : RangeID} {kind : UInt8} {key : Key} {k : EngineKey} :
    metaKey (rangePrefix id) kind key <+: k.under id' ↔
      id = id' ∧ ∃ r, kind :: (putBytes key.1 ++ r) = k.suffix := by
  rw [under_eq]
  constructor
  · rintro ⟨r, h⟩
    rw [metaKey, append_assoc, cons_append] at h
    obtain rfl := rangePrefix_inj h
    exact ⟨rfl, r, append_cancel_left h⟩
  · rintro ⟨rfl, r, h⟩
    exact ⟨r, by rw [metaKey, append_assoc, cons_append, h]⟩

/-- The layout of the keys: decoding inverts encoding; newer records of a user key sort first; the
records of one kind and user key are those that begin with their prefix, which are those between the
prefix and its end; and no two records have one key. -/
theorem keys_told_apart :
    (∀ ns key ts, decodeKey ns (encodeKey ns key ts) = some (key, ts) ∧
      decodeWriteKey ns (writeKey ns key ts) = some (key, ts) ∧
      decodeReadMarkKey ns (readMarkKey ns key ts) = some (key, ts)) ∧
    (∀ ns kind key (t u : Timestamp), t.Nonneg → u.Nonneg →
      (metaKey ns kind key ++ invertedTS t < metaKey ns kind key ++ invertedTS u ↔ u < t)) ∧
    (∀ id id' key (k : EngineKey),
      (keyPrefix (rangePrefix id) key <+: k.under id' ↔ id = id' ∧ ∃ ts, k = .data key ts) ∧
      (keyWrites (rangePrefix id) key <+: k.under id' ↔ id = id' ∧ ∃ ts, k = .write key ts) ∧
      (keyReads (rangePrefix id) key <+: k.under id' ↔ id = id' ∧ ∃ ts, k = .readMark key ts)) ∧
    (∀ p k, Model.inRange p (prefixEnd p) k ↔ p <+: k) ∧
    ∀ id id' (k k' : EngineKey), k.under id = k'.under id' → id = id' ∧ k = k' := by
  refine ⟨fun ns key ts => ⟨?_, ?_, ?_⟩, fun ns kind key t u ht hu => ?_,
    fun id id' key k => ⟨?_, ?_, ?_⟩, fun p k => inRange_prefixEnd, fun id id' k k' h => ?_⟩
  · exact decodeStamped_metaKey ns dataPrefix key ts
  · exact decodeStamped_metaKey ns writePrefix key ts
  · exact decodeStamped_metaKey ns readPrefix key ts
  · rw [metaKey_invertedTS_lt, Timestamp.rank_lt_rank hu ht]
  · rw [isPrefix_under]
    cases k <;> simp [suffix, kind_ne_slash, putBytes_append_inj, eq_comm]
  · rw [isPrefix_under]
    cases k <;> simp [suffix, kind_ne_slash, putBytes_append_inj, eq_comm]
  · rw [isPrefix_under]
    cases k <;> simp [suffix, kind_ne_slash, putBytes_append_inj, eq_comm]
  · rw [under_eq, under_eq] at h
    obtain rfl := rangePrefix_inj h
    exact ⟨rfl, suffix_injective (append_cancel_left h)⟩

end EngineKey

end Rift.Driver
