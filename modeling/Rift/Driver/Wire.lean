import Rift.Driver.Persist
import Rift.Raft.Log

/-!
# Messages on the wire, and the kinds of commands

The rest of `store/codec.go`: messages between replicas. Every format of the driver and of raft reads
back what was written, as far as the length fields carry it; the length of a nested format has to fit,
too. The commands of a log are told apart by their first byte, which for a client command is the top
byte of a length.
-/

variable {cc : ConfChangeV2} {b : Bytes}

namespace Rift.Driver

open List

/-! ### Messages -/

def encodeMessageType : MessageType → UInt8
  | .vote => 1
  | .voteResp => 2
  | .app => 3
  | .appResp => 4
  | .preVote => 5
  | .preVoteResp => 6
  | .snap => 7
  | .timeoutNow => 8
  | .readIndex => 9
  | .readIndexResp => 10

/-- Other bytes name no message that a node sends. The code decodes a message under them all the same,
and `Step` refuses it by its type, before it looks at anything else. -/
def decodeMessageType (b : UInt8) : Option MessageType :=
  if b = 1 then some .vote else if b = 2 then some .voteResp else if b = 3 then some .app
  else if b = 4 then some .appResp else if b = 5 then some .preVote
  else if b = 6 then some .preVoteResp else if b = 7 then some .snap
  else if b = 8 then some .timeoutNow else if b = 9 then some .readIndex
  else if b = 10 then some .readIndexResp else none

/-- The two answers of a message in one byte. -/
def encodeFlags (granted success : Bool) : UInt8 :=
  (if granted then 1 else 0) ||| if success then 2 else 0

def encodeMessage (m : Message) : Bytes :=
  encodeMessageType m.type :: (putU64 m.fromID ++ (putU64 m.toID ++ (putBE 8 m.term ++
    (putBE 8 m.lastLogIndex ++ (putBE 8 m.lastLogTerm ++ (putBE 8 m.prevLogIndex ++
    (putBE 8 m.prevLogTerm ++ (putBE 8 m.leaderCommit ++ (putBE 8 m.matchIndex ++
    (putBE 8 m.hint ++ (putBE 8 m.snapIndex ++ (putBE 8 m.snapTerm ++
    (putBytes m.snapData ++ (putBytes m.snapConf ++ (putBytes m.readCtx ++
    (putBE 8 m.readIndex ++ encodeFlags m.granted m.success :: (putBE 4 m.entries.length ++
      m.entries.flatMap fun e => putBytes (encodeEntry e))))))))))))))))))

/-- Read `n` entries, each behind its length. -/
def takeEntries : ℕ → Bytes → Option (List Entry)
  | 0, _ => some []
  | n + 1, b => do
    let (raw, b) ← takeBytes b
    let e ← decodeEntry raw.1
    let es ← takeEntries n b
    return e :: es

/-- Read `n` numbers of eight bytes. -/
def takeVals : ℕ → Bytes → Option (List ℕ × Bytes)
  | 0, b => some ([], b)
  | n + 1, b => do
    let (x, b) ← takeBE 8 b
    let (xs, b) ← takeVals n b
    return (x :: xs, b)

/-- What follows the numbers: byte strings, a number, the flags and the entries. -/
def decodeTail (m : Message) (b : Bytes) : Option Message := do
  let (snapData, b) ← takeBytes b
  let (snapConf, b) ← takeBytes b
  let (readCtx, b) ← takeBytes b
  let (readIndex, b) ← takeBE 8 b
  match b with
  | [] => none
  | flags :: b => do
    let (n, b) ← takeBE 4 b
    let entries ← takeEntries n b
    return { m with
      snapData := snapData.1, snapConf := snapConf.1, readCtx := readCtx.1, readIndex := readIndex
      granted := flags &&& 1 ≠ 0, success := flags &&& 2 ≠ 0, entries := entries }

def decodeMessage : Bytes → Option Message
  | [] => none
  | ty :: b => do
    let type ← decodeMessageType ty
    let (vals, b) ← takeVals 12 b
    let val := fun i => vals.getD i 0
    decodeTail
      { type := type, fromID := UInt64.ofNat (val 0), toID := UInt64.ofNat (val 1), term := val 2
        lastLogIndex := val 3, lastLogTerm := val 4, prevLogIndex := val 5, prevLogTerm := val 6
        leaderCommit := val 7, matchIndex := val 8, hint := val 9, snapIndex := val 10
        snapTerm := val 11 } b

/-- The counters of a message fit eight bytes, and the lengths of its byte strings four. -/
structure Message.FieldsFit (m : Message) : Prop where
  counters : ∀ n ∈ [m.term, m.lastLogIndex, m.lastLogTerm, m.prevLogIndex, m.prevLogTerm,
    m.leaderCommit, m.matchIndex, m.hint, m.snapIndex, m.snapTerm, m.readIndex], n < 256 ^ 8
  strings : ∀ b ∈ [m.snapData, m.snapConf, m.readCtx], b.length < 256 ^ 4
  count : m.entries.length < 256 ^ 4
  entries : ∀ e ∈ m.entries, Entry.Fits e

/-- The parts of a message fit, and its entries do with their own headers. -/
structure Message.Fits (m : Message) : Prop extends Message.FieldsFit m where
  nested : ∀ e ∈ m.entries, (encodeEntry e).length < 256 ^ 4

theorem decodeMessageType_encodeMessageType (t : MessageType) :
    decodeMessageType (encodeMessageType t) = some t := by
  cases t <;> rfl

theorem encodeFlags_granted (granted success : Bool) :
    encodeFlags granted success &&& 1 = 0 ↔ granted = false := by
  cases granted <;> cases success <;> decide

theorem encodeFlags_success (granted success : Bool) :
    encodeFlags granted success &&& 2 = 0 ↔ success = false := by
  cases granted <;> cases success <;> decide

theorem takeEntries_flatMap {es : List Entry} (hfit : ∀ e ∈ es, Entry.Fits e)
    (hlen : ∀ e ∈ es, (encodeEntry e).length < 256 ^ 4) :
    takeEntries es.length (es.flatMap fun e => putBytes (encodeEntry e)) = some es := by
  induction es with
  | nil => rfl
  | cons e es ih =>
    have hrest := ih (fun x hx => hfit x (mem_cons_of_mem _ hx))
      fun x hx => hlen x (mem_cons_of_mem _ hx)
    simp [takeEntries, takeBytes_putBytes_of_lt (hlen e mem_cons_self),
      decodeEntry_encodeEntry (hfit e mem_cons_self), hrest]

theorem takeVals_flatMap {xs : List ℕ} (h : ∀ x ∈ xs, x < 256 ^ 8) (b : Bytes) :
    takeVals xs.length (xs.flatMap (putBE 8) ++ b) = some (xs, b) := by
  induction xs with
  | nil => rfl
  | cons x xs ih =>
    have hrest := ih fun y hy => h y (mem_cons_of_mem _ hy)
    simp [takeVals, takeBE_putBE (h x mem_cons_self), hrest]

/-- The numbers of a message, in the order of the wire. -/
def Message.vals (m : Message) : List ℕ :=
  [m.fromID.toNat, m.toID.toNat, m.term, m.lastLogIndex, m.lastLogTerm, m.prevLogIndex,
    m.prevLogTerm, m.leaderCommit, m.matchIndex, m.hint, m.snapIndex, m.snapTerm]

/-- The rest of a message. -/
def Message.tail (m : Message) : Bytes :=
  putBytes m.snapData ++ (putBytes m.snapConf ++ (putBytes m.readCtx ++ (putBE 8 m.readIndex ++
    encodeFlags m.granted m.success :: (putBE 4 m.entries.length ++
      m.entries.flatMap fun e => putBytes (encodeEntry e)))))

theorem encodeMessage_eq (m : Message) :
    encodeMessage m = encodeMessageType m.type :: ((Message.vals m).flatMap (putBE 8) ++ Message.tail m) := by
  simp [encodeMessage, Message.vals, Message.tail, putU64]

theorem decodeTail_tail {m m₀ : Message} (h : Message.Fits m) :
    decodeTail m₀ (Message.tail m) = some { m₀ with
      snapData := m.snapData, snapConf := m.snapConf, readCtx := m.readCtx, readIndex := m.readIndex
      granted := m.granted, success := m.success, entries := m.entries } := by
  have hs := h.strings
  simp only [forall_mem_cons, not_mem_nil, false_imp_iff, implies_true, and_true] at hs
  obtain ⟨hdata, hconf, hctx⟩ := hs
  have hread : m.readIndex < 256 ^ 8 := h.counters _ (by simp)
  simp [decodeTail, Message.tail, takeBytes_putBytes_of_lt hdata, takeBytes_putBytes_of_lt hconf,
    takeBytes_putBytes_of_lt hctx, takeBE_putBE hread, takeBE_putBE h.count,
    takeEntries_flatMap h.entries h.nested, encodeFlags_granted, encodeFlags_success]

theorem decodeMessage_encodeMessage {m : Message} (h : Message.Fits m) :
    decodeMessage (encodeMessage m) = some m := by
  have hvals : ∀ x ∈ Message.vals m, x < 256 ^ 8 := by
    intro x hx
    rcases mem_cons.mp hx with rfl | hx
    · exact m.fromID.toNat_lt
    rcases mem_cons.mp hx with rfl | hx
    · exact m.toID.toNat_lt
    · exact h.counters x (mem_append_left [m.readIndex] hx)
  have htake := takeVals_flatMap hvals (Message.tail m)
  rw [encodeMessage_eq, decodeMessage]
  simp only [decodeMessageType_encodeMessageType, Option.bind_eq_bind, Option.bind_some]
  rw [show takeVals 12 _ = _ from htake, Option.bind_some, decodeTail_tail h]
  simp [Message.vals]

/-! ### Configuration changes -/

/-- A byte has one name: the names the source gives are not used as unknown bytes. -/
def ConfChangeV2.Named (cc : ConfChangeV2) : Prop :=
  .ofByte cc.transition.toByte = cc.transition ∧
    ∀ ch ∈ cc.changes, .ofByte ch.type.toByte = ch.type

instance (cc : ConfChangeV2) : Decidable (ConfChangeV2.Named cc) :=
  inferInstanceAs (Decidable (_ ∧ _))

theorem length_flatMap_change (chs : List ConfChangeSingle) :
    (chs.flatMap fun ch => ch.type.toByte :: encodeNodeID ch.node).length = chs.length * 9 := by
  induction chs with
  | nil => rfl
  | cons ch chs ih =>
    rw [flatMap_cons, length_append, ih, length_cons, length_cons,
      length_encodeNodeID]
    omega

theorem decodeChanges_flatMap {chs : List ConfChangeSingle}
    (h : ∀ ch ∈ chs, .ofByte ch.type.toByte = ch.type) :
    decodeChanges chs.length (chs.flatMap fun ch => ch.type.toByte :: encodeNodeID ch.node) = chs := by
  induction chs with
  | nil => rfl
  | cons ch chs ih =>
    have hrest := ih fun c hc => h c (mem_cons_of_mem _ hc)
    rw [length_cons, flatMap_cons, decodeChanges, cons_append, headD_cons,
      h ch mem_cons_self, drop_succ_cons, drop_zero,
      take_left' (length_encodeNodeID ch.node), decodeNodeID_encodeNodeID, drop_succ_cons,
      drop_left' (length_encodeNodeID ch.node), hrest]

/-- A configuration change with as many changes as a byte can count is read back. -/
theorem decodeConfChange_encodeConfChange (hlen : cc.changes.length < 256)
    (hn : ConfChangeV2.Named cc) : decodeConfChange (encodeConfChange cc) = some cc := by
  have hcount : (UInt8.ofNat cc.changes.length).toNat = cc.changes.length :=
    UInt8.toNat_ofNat'.trans (Nat.mod_eq_of_lt hlen)
  rw [encodeConfChange, decodeConfChange, hcount, length_flatMap_change, if_neg (not_not.mpr rfl),
    hn.1, decodeChanges_flatMap hn.2]

/-! ### Kinds of commands -/

/-- The first byte of a byte string behind its length is the top byte of the length. -/
theorem head_putBytes (h : b.length < 2 ^ 24) (r : Bytes) : (putBytes b ++ r).head? = some 0 := by
  have htop : b.length / 256 ^ 3 = 0 := Nat.div_eq_of_lt (by simpa using h)
  rw [putBytes, putBE, htop]
  rfl

/-- A client command with a short operation is neither a split nor a step of a transaction. -/
theorem kinds_of_cmd {c : Cmd} (hop : c.op.1.length < 2 ^ 24) :
    isSplitCommand (encodeCmd c) = false ∧ isTxnCommand (encodeCmd c) = false := by
  have hhead : (encodeCmd c).head? = some 0 := head_putBytes hop _
  exact ⟨by simp [isSplitCommand, hhead, splitMarker], by simp [isTxnCommand, hhead, txnMarker]⟩

/-- One simple change, as it is encoded, is no split, no step of a transaction, and reads as the
client command with no operation. -/
theorem kinds_of_confChange {ch : ConfChangeSingle} (ht : cc.transition = .simple)
    (hc : cc.changes = [ch]) :
    isSplitCommand (encodeConfChange cc) = false ∧ isTxnCommand (encodeConfChange cc) = false ∧
      decodeCmd (encodeConfChange cc) = {} := by
  have henc : encodeConfChange cc = 1 :: 1 :: ch.type.toByte :: encodeNodeID ch.node := by
    simp [encodeConfChange, ht, hc, ConfChangeTransition.toByte]
  rw [henc]
  refine ⟨rfl, rfl, ?_⟩
  -- the length of the operation would be more than sixteen million
  have hnone : takeBytes (1 :: 1 :: ch.type.toByte :: encodeNodeID ch.node) = none := by
    rw [Option.eq_none_iff_forall_ne_some]
    rintro ⟨s, r⟩ hs
    have heq := takeBytes_eq_some hs
    have hlen := congrArg length heq
    simp only [length_cons, length_append, length_putBytes, length_encodeNodeID] at hlen
    have hhead := head_putBytes (show s.1.length < 2 ^ 24 by omega) r
    rw [← heq] at hhead
    cases hhead
  simp [decodeCmd, hnone]

/-- Every format reads back what was written, when its parts and the formats nested in it fit their
length fields. A client command with a short operation and a configuration change are neither a split
nor a step of a transaction, and a configuration change reads as a command with no operation. -/
theorem codecs_roundtrip :
    (∀ m, Message.Fits m → decodeMessage (encodeMessage m) = some m) ∧
    (∀ e, Entry.Fits e → decodeEntry (encodeEntry e) = some e) ∧
    (∀ hs, HardState.Fits hs → decodeHardState (encodeHardState hs) = hs) ∧
    (∀ snap data, SnapshotMeta.Fits snap data →
      decodeSnapshot (encodeSnapshot snap data) = some (snap, data)) ∧
    (∀ desc mark rs, Fits desc rs →
      decodeMachine (encodeMachine desc mark rs) = some (desc, mark, rs)) ∧
    (∀ s, decodeSplitCommand (encodeSplitCommand s) = some s) ∧
    (∀ c, decodeTxnCommand (encodeTxnCommand c) = some c) ∧
    (∀ c, decodeCmd (encodeCmd c) = c) ∧
    (∀ cc : ConfChangeV2, cc.changes.length ≤ 255 → ConfChangeV2.Named cc →
      decodeConfChange (encodeConfChange cc) = some cc) ∧
    (∀ c : Cmd, c.op.1.length < 2 ^ 24 →
      isSplitCommand (encodeCmd c) = false ∧ isTxnCommand (encodeCmd c) = false) ∧
    ∀ (r r' : Raft) id cc, r.proposeConfChange id cc = .ok (.ok r') →
      ∃ e : Entry, r'.log = r.log ++ [e] ∧ e.type = .confChange ∧ isSplitCommand e.data = false ∧
        isTxnCommand e.data = false ∧ (decodeCmd e.data).op.1 = [] := by
  refine ⟨fun m => decodeMessage_encodeMessage, fun e => decodeEntry_encodeEntry,
    fun hs => decodeHardState_encodeHardState, fun snap data => decodeSnapshot_encodeSnapshot,
    fun desc mark rs h => decodeMachine_encodeMachine h mark, decodeSplitCommand_encodeSplitCommand,
    decodeTxnCommand_encodeTxnCommand, decodeCmd_encodeCmd, fun cc hlen hn =>
      decodeConfChange_encodeConfChange (Nat.lt_succ_of_le hlen) hn, fun c => kinds_of_cmd,
    fun r r' id cc h => ?_⟩
  rcases Raft.proposeConfChange_cases h with ⟨e, he⟩ | ⟨-, hr, -, ⟨ht, ch, hch⟩, r₁, happ, heq⟩
  · cases he
  · cases heq
    obtain ⟨hsplit, htxn, hcmd⟩ := kinds_of_confChange ht hch
    exact ⟨_, Raft.appendAndBroadcast_log hr happ, rfl, hsplit, htxn, by rw [hcmd]⟩

/-- A message with one entry. -/
def appendOf (e : Entry) : Message := { type := .app, fromID := 1, toID := 2, term := 1, entries := [e] }

/-- An append with one entry, a change of one server, and a put. -/
theorem codecs_roundtrip_sample :
    decodeMessage (encodeMessage (appendOf { term := 1, index := 7, data := [1, 2] })) =
      some (appendOf { term := 1, index := 7, data := [1, 2] }) ∧
    decodeConfChange (encodeConfChange ⟨[⟨.addLearner, 300⟩], .simple⟩) =
      some ⟨[⟨.addLearner, 300⟩], .simple⟩ ∧
    isSplitCommand (encodeCmd { op := opPut }) = false := by
  obtain ⟨hmessage, -, -, -, -, -, -, -, hconf, hcmd, -⟩ := codecs_roundtrip
  refine ⟨hmessage _ ⟨⟨by decide, by decide, by decide, ?_⟩, by decide⟩,
    hconf _ (by decide) (by decide), (hcmd _ (by decide)).1⟩
  intro e he
  obtain rfl := mem_singleton.mp he
  exact ⟨by decide, by decide, by decide, by decide⟩

/-! ### A nested length that does not fit -/

theorem takeBytes_of_short (h : b.length < 4) : takeBytes b = none := by
  rw [Option.eq_none_iff_forall_ne_some]
  rintro ⟨s, r⟩ hs
  have hlen := congrArg length (takeBytes_eq_some hs)
  rw [length_append, length_putBytes] at hlen
  omega

/-- The header of an entry and three bytes of the length of its data are no entry. -/
theorem decodeEntry_take (e : Entry) : decodeEntry ((encodeEntry e).take 36) = none := by
  have hshort : takeBytes ((putBytes e.data).take 3) = none := takeBytes_of_short (by simp)
  have hcut : (encodeEntry e).take 36 = encodeEntryType e.type :: (putBE 8 e.term ++
      (putBE 8 e.index ++ (putU64 e.id.node ++ (putBE 8 e.id.seq ++ (putBytes e.data).take 3)))) := by
    simp [encodeEntry, take_append, take_of_length_le]
  have htake : ∀ n b, takeBE 8 (putBE 8 n ++ b) = some (n % 256 ^ 8, b) := fun n b => by
    rw [← putBE_mod, takeBE_putBE (Nat.mod_lt n (by decide))]
  rw [hcut]
  simp [decodeEntry, htake, hshort]

/-- An entry with some zeros for its data. -/
def zerosEntry (n : ℕ) : Entry := { term := 1, index := 1, data := replicate n 0 }

variable {e : Entry}

/-- An entry whose encoding is thirty-six bytes too long for its length field ends the message. -/
theorem takeEntries_of_wrap (h : (encodeEntry e).length = 256 ^ 4 + 36) :
    takeEntries 1 (putBytes (encodeEntry e)) = none := by
  have hmod : (encodeEntry e).length % 256 ^ 4 = 36 := by
    rw [h]
    decide
  have hlen : ((encodeEntry e).take 36).length < 256 ^ 4 := by
    rw [length_take, h]
    decide
  rw [putBytes_wrap, hmod]
  simp [takeEntries, takeBytes_putBytes_of_lt hlen, decodeEntry_take]

theorem length_encodeEntry (e : Entry) : (encodeEntry e).length = 37 + e.data.length := by
  simp [encodeEntry]
  omega

theorem decodeMessage_of_wrap (h : (encodeEntry e).length = 256 ^ 4 + 36) :
    decodeMessage (encodeMessage (appendOf e)) = none := by
  have hvals := @takeVals_flatMap (Message.vals (appendOf e)) (by simp [Message.vals, appendOf])
    (Message.tail (appendOf e))
  have htail : Message.tail (appendOf e) = putBytes [] ++ (putBytes [] ++ (putBytes [] ++
      (putBE 8 0 ++ 0 :: (putBE 4 1 ++ putBytes (encodeEntry e))))) := by
    simp [Message.tail, appendOf, encodeFlags]
  have hempty := fun b => takeBytes_putBytes_of_lt (show ([] : Bytes).length < 256 ^ 4 by decide) b
  rw [encodeMessage_eq, decodeMessage]
  simp only [decodeMessageType_encodeMessageType, Option.bind_eq_bind, Option.bind_some]
  rw [show takeVals 12 _ = _ from hvals, Option.bind_some, htail]
  simp [decodeTail, hempty, takeBE_putBE (show 0 < 256 ^ 8 by decide),
    takeBE_putBE (show 1 < 256 ^ 4 by decide), takeEntries_of_wrap h]

theorem fieldsFit_appendOf (h : Entry.Fits e) : Message.FieldsFit (appendOf e) where
  counters := by simp [appendOf]
  strings := by simp [appendOf]
  count := by simp [appendOf]
  entries := fun x hx => mem_singleton.mp hx ▸ h

/-- The data of the entry fits its length field and the entry does not: the message is not read. -/
theorem message_lost :
    Message.FieldsFit (appendOf (zerosEntry (256 ^ 4 - 1))) ∧
      decodeMessage (encodeMessage (appendOf (zerosEntry (256 ^ 4 - 1)))) = none := by
  have hdata : (zerosEntry (256 ^ 4 - 1)).data.length = 256 ^ 4 - 1 := length_replicate ..
  refine ⟨fieldsFit_appendOf ⟨?_, ?_, ?_, ?_⟩, decodeMessage_of_wrap ?_⟩
  · exact Nat.one_lt_pow (by decide) (by decide)
  · exact Nat.one_lt_pow (by decide) (by decide)
  · exact Nat.pow_pos (by decide)
  · rw [hdata]
    exact Nat.sub_lt (Nat.pow_pos (by decide)) (by decide)
  · rw [length_encodeEntry, hdata]
    decide

end Rift.Driver
