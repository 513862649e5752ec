import Rift.Driver.Commands
import Rift.Raft.Codec

/-!
# What the driver keeps of raft in the engine

A range's hard state, log entries, snapshot and descriptor, each under its own key of the range's
keyspace. `store/codec.go` and the key functions of `store/node.go`.
-/

namespace Rift.Driver

open List

/-! ### Keys -/

def keyHardStateOf (id : RangeID) : Bytes := rangePrefix id ++ [47, 104, 115]

def keySnapshotOf (id : RangeID) : Bytes := rangePrefix id ++ [47, 115, 110, 97, 112]

def keyDescOf (id : RangeID) : Bytes := rangePrefix id ++ [47, 100, 101, 115, 99]

def logPrefixOf (id : RangeID) : Bytes := rangePrefix id ++ [47, 101, 47]

def logUpperOf (id : RangeID) : Bytes := rangePrefix id ++ [47, 101, 48]

def logKeyOf (id : RangeID) (i : ℕ) : Bytes := logPrefixOf id ++ putBE 8 i

/-! ### Values -/

def encodeHardState (hs : HardState) : Bytes := putBE 8 hs.term ++ putU64 hs.vote

def decodeHardState (b : Bytes) : HardState :=
  let r : Option HardState := do
    let (t, b) ← takeBE 8 b
    let (v, _) ← takeU64 b
    return { term := t, vote := v }
  r.getD {}

def encodeEntryType : EntryType → UInt8
  | .normal => 1
  | .confChange => 2

/-- The driver writes two bytes only; the others stand for no entry of a log. -/
def decodeEntryType (b : UInt8) : EntryType := if b = 2 then .confChange else .normal

def encodeEntry (e : Entry) : Bytes :=
  encodeEntryType e.type :: (putBE 8 e.term ++ (putBE 8 e.index ++ (putU64 e.id.node ++
    (putBE 8 e.id.seq ++ putBytes e.data))))

def decodeEntry : Bytes → Option Entry
  | [] => none
  | ty :: b => do
    let (t, b) ← takeBE 8 b
    let (i, b) ← takeBE 8 b
    let (pn, b) ← takeU64 b
    let (ps, b) ← takeBE 8 b
    let (d, _) ← takeBytes b
    return { type := decodeEntryType ty, term := t, index := i, id := { node := pn, seq := ps },
             data := d.1 }

def encodeSnapshot (snap : SnapshotMeta) (data : Bytes) : Bytes :=
  putBE 8 snap.index ++ (putBE 8 snap.term ++ (putBytes (encodeConfiguration snap.conf) ++
    putBytes data))

def decodeSnapshot (b : Bytes) : Option (SnapshotMeta × Bytes) := do
  let (idx, b) ← takeBE 8 b
  let (term, b) ← takeBE 8 b
  let (confRaw, b) ← takeBytes b
  let conf ← decodeConfiguration confRaw.1
  let (data, _) ← takeBytes b
  return ({ index := idx, term := term, conf := conf }, data.1)

/-! ### Round trips -/

/-- The counters of a hard state fit eight bytes, as `uint64` counters do. -/
def HardState.Fits (hs : HardState) : Prop := hs.term < 256 ^ 8

/-- An entry's counters fit eight bytes and the length of its data four. -/
structure Entry.Fits (e : Entry) : Prop where
  term : e.term < 256 ^ 8
  index : e.index < 256 ^ 8
  seq : e.id.seq < 256 ^ 8
  data : e.data.length < 256 ^ 4

/-- A snapshot's counters fit eight bytes, the numbers of its members one, and the length of its
payload four. -/
structure SnapshotMeta.Fits (snap : SnapshotMeta) (data : Bytes) : Prop where
  index : snap.index < 256 ^ 8
  term : snap.term < 256 ^ 8
  voters : snap.conf.voters.length < 256
  learners : snap.conf.learners.length < 256
  data : data.length < 256 ^ 4

instance (hs : HardState) : Decidable (HardState.Fits hs) := inferInstanceAs (Decidable (_ < _))

instance (e : Entry) : Decidable (Entry.Fits e) :=
  decidable_of_iff (e.term < 256 ^ 8 ∧ e.index < 256 ^ 8 ∧ e.id.seq < 256 ^ 8 ∧
    e.data.length < 256 ^ 4)
    ⟨fun h => ⟨h.1, h.2.1, h.2.2.1, h.2.2.2⟩, fun h => ⟨h.1, h.2, h.3, h.4⟩⟩

instance (snap : SnapshotMeta) (data : Bytes) : Decidable (SnapshotMeta.Fits snap data) :=
  decidable_of_iff (snap.index < 256 ^ 8 ∧ snap.term < 256 ^ 8 ∧ snap.conf.voters.length < 256 ∧
    snap.conf.learners.length < 256 ∧ data.length < 256 ^ 4)
    ⟨fun h => ⟨h.1, h.2.1, h.2.2.1, h.2.2.2.1, h.2.2.2.2⟩, fun h => ⟨h.1, h.2, h.3, h.4, h.5⟩⟩

theorem decodeHardState_encodeHardState {hs : HardState} (h : HardState.Fits hs) :
    decodeHardState (encodeHardState hs) = hs := by
  have hv := takeU64_putU64 hs.vote []
  rw [append_nil] at hv
  simp [decodeHardState, encodeHardState, takeBE_putBE (show hs.term < 256 ^ 8 from h), hv]

theorem decodeEntry_encodeEntry {e : Entry} (h : Entry.Fits e) :
    decodeEntry (encodeEntry e) = some e := by
  have hd := Driver.takeBytes_putBytes_of_lt h.data []
  rw [append_nil] at hd
  have ht : decodeEntryType (encodeEntryType e.type) = e.type := by cases e.type <;> rfl
  simp [decodeEntry, encodeEntry, takeBE_putBE h.term, takeBE_putBE h.index, takeBE_putBE h.seq, hd,
    ht]

theorem length_encodeConfiguration (c : Configuration) :
    (encodeConfiguration c).length = 2 + (c.voters.length + c.learners.length) * 8 := by
  rw [encodeConfiguration, length_cons, length_cons, length_flatMap_encodeNodeID,
    length_append]
  omega

theorem decodeConfiguration_encodeConfiguration {c : Configuration} (hv : c.voters.length < 256)
    (hl : c.learners.length < 256) : decodeConfiguration (encodeConfiguration c) = some c := by
  have hlen : ((c.voters ++ c.learners).flatMap encodeNodeID).length =
      (c.voters.length + c.learners.length) * 8 := by
    rw [length_flatMap_encodeNodeID, length_append]
  have hsome : (decodeConfiguration (encodeConfiguration c)).isSome := by
    have hv' : (UInt8.ofNat c.voters.length).toNat = c.voters.length :=
      UInt8.toNat_ofNat'.trans (Nat.mod_eq_of_lt hv)
    have hl' : (UInt8.ofNat c.learners.length).toNat = c.learners.length :=
      UInt8.toNat_ofNat'.trans (Nat.mod_eq_of_lt hl)
    rw [encodeConfiguration, decodeConfiguration, hlen, hv', hl', if_neg (not_not.mpr rfl)]
    rfl
  obtain ⟨c', hc'⟩ := Option.isSome_iff_exists.mp hsome
  rw [hc', decode_encodeConfiguration hc']

theorem decodeSnapshot_encodeSnapshot {snap : SnapshotMeta} {data : Bytes}
    (h : SnapshotMeta.Fits snap data) :
    decodeSnapshot (encodeSnapshot snap data) = some (snap, data) := by
  have hd := Driver.takeBytes_putBytes_of_lt h.data []
  rw [append_nil] at hd
  have hconf : (encodeConfiguration snap.conf).length < 256 ^ 4 := by
    have hv := h.voters
    have hl := h.learners
    rw [length_encodeConfiguration]
    omega
  simp [decodeSnapshot, encodeSnapshot, takeBE_putBE h.index, takeBE_putBE h.term,
    takeBytes_putBytes_of_lt hconf, decodeConfiguration_encodeConfiguration h.voters h.learners, hd]

end Rift.Driver
