import Mathlib.Data.List.Basic
import Mathlib.Data.List.Range
import Rift.Lib.Bytes

/-!
# The data model of a replica

Entries, configurations, messages and durability marks, as `raft/raft.go` declares
them. `Term`, `Index` and `PersistMark` are 64-bit counters in the source; here they are
natural numbers: indices are 1-based, and zero is before the log begins or nothing to persist. Node
identifiers keep their 64-bit type, because the configuration codecs split them into bytes.

A counter of the model does not wrap, so a run of the model is one of the code as long as no counter
passes `2 ^ 64 - 1`. It takes a single message of the largest term to get there: the next campaign of
the code starts in term zero. `Server.inRange` names the calls after which there is room for one more
step. Where one call alone reaches a wrap, as `Ready` does after the largest index was acknowledged as
applied, the definition has it.

## Main definitions

* `Entry`, `Message`, `HardState`, `Snapshot`, `SnapshotMeta` — what crosses the interface
* `Configuration` — voters and learners, with `Configuration.apply` for one change
* `ConfChangeV2` with its codec, and `applyConfEntry`, the one way a configuration
  entry turns into a configuration
-/

namespace Rift

/-- A peer. Zero is "no node", so a zero vote is an unset vote. -/
abbrev NodeID := UInt64

inductive Role | follower | candidate | leader
  deriving DecidableEq, Repr

/-- The identity of a client proposal, independent of where it lands in the log. -/
structure ProposalID where
  node : NodeID := 0
  seq : ℕ := 0
  deriving DecidableEq, Repr

/-- The identifier is unset. -/
def ProposalID.zero (p : ProposalID) : Bool := p.node = 0 && p.seq = 0

inductive EntryType | normal | confChange
  deriving DecidableEq, Repr

/-- One log entry. -/
structure Entry where
  type : EntryType := .normal
  term : ℕ
  index : ℕ
  id : ProposalID := {}
  data : Bytes := []
  deriving DecidableEq, Repr

/-! ### Configuration changes -/

/-- The kind of one server's change. A decoded byte need not name a kind: `numConfChangeTypes`
is the sentinel the source refuses, `unknown` every other byte. -/
inductive ConfChangeType
  | addVoter | addLearner | removeNode | numConfChangeTypes
  | unknown (raw : UInt8)
  deriving DecidableEq, Repr

namespace ConfChangeType

def ofByte (b : UInt8) : ConfChangeType :=
  if b = 1 then .addVoter else if b = 2 then .addLearner else if b = 3 then .removeNode
  else if b = 4 then .numConfChangeTypes else .unknown b

def toByte : ConfChangeType → UInt8
  | .addVoter => 1
  | .addLearner => 2
  | .removeNode => 3
  | .numConfChangeTypes => 4
  | .unknown b => b

end ConfChangeType

/-- How a change gets from the old configuration to the new one. Only `simple` is accepted. -/
inductive ConfChangeTransition
  | simple | jointImplicit | jointExplicit
  | unknown (raw : UInt8)
  deriving DecidableEq, Repr

namespace ConfChangeTransition

def ofByte (b : UInt8) : ConfChangeTransition :=
  if b = 1 then .simple else if b = 2 then .jointImplicit else if b = 3 then .jointExplicit
  else .unknown b

def toByte : ConfChangeTransition → UInt8
  | .simple => 1
  | .jointImplicit => 2
  | .jointExplicit => 3
  | .unknown b => b

end ConfChangeTransition

structure ConfChangeSingle where
  type : ConfChangeType
  node : NodeID
  deriving DecidableEq, Repr

/-- The frozen, joint-capable shape of a configuration change. -/
structure ConfChangeV2 where
  changes : List ConfChangeSingle
  transition : ConfChangeTransition
  deriving DecidableEq, Repr

/-- The eight bytes of a node identifier, most significant first. -/
def encodeNodeID (n : NodeID) : Bytes :=
  [(n >>> 56).toUInt8, (n >>> 48).toUInt8, (n >>> 40).toUInt8, (n >>> 32).toUInt8,
    (n >>> 24).toUInt8, (n >>> 16).toUInt8, (n >>> 8).toUInt8, n.toUInt8]

/-- Fold eight bytes back into a node identifier. -/
def decodeNodeID (b : Bytes) : NodeID :=
  b.foldl (fun n x => n <<< 8 ||| x.toUInt64) 0

/-- The wire and storage form of a configuration change. -/
def encodeConfChange (cc : ConfChangeV2) : Bytes :=
  cc.transition.toByte :: UInt8.ofNat cc.changes.length ::
    cc.changes.flatMap fun ch => ch.type.toByte :: encodeNodeID ch.node

/-- Read the `n` changes of an encoded configuration change, nine bytes each. -/
def decodeChanges : ℕ → Bytes → List ConfChangeSingle
  | 0, _ => []
  | n + 1, b =>
    { type := .ofByte (b.headD 0), node := decodeNodeID ((b.drop 1).take 8) } ::
      decodeChanges n (b.drop 9)

/-- Read a configuration change back; `none` when the length does not add up. -/
def decodeConfChange : Bytes → Option ConfChangeV2
  | t :: n :: b =>
    if b.length ≠ n.toNat * 9 then none
    else some { transition := .ofByte t, changes := decodeChanges n.toNat b }
  | _ => none

/-! ### Configurations -/

/-- Who is in the cluster. Voters vote and are counted in quorums; learners receive entries
and are counted in nothing. -/
structure Configuration where
  voters : List NodeID := []
  learners : List NodeID := []
  deriving DecidableEq, Repr

/-- Why a configuration entry or change is refused. -/
inductive ConfError
  | undecodable
  | joint (t : ConfChangeTransition)
  | servers (n : ℕ)
  | demotion (n : NodeID)
  | unknownType
  | noVoters (t : ConfChangeType)
  deriving DecidableEq, Repr

/-- Insertion into a sorted list: one round of the source's insertion sort, which stops as soon
as its left neighbour is not larger. -/
def insertSorted (x : NodeID) : List NodeID → List NodeID
  | [] => [x]
  | y :: ys => if x < y then x :: y :: ys else y :: insertSorted x ys

/-- The source's insertion sort. -/
def sortIDs (xs : List NodeID) : List NodeID := xs.foldl (fun acc x => insertSorted x acc) []

def insertID (xs : List NodeID) (n : NodeID) : List NodeID :=
  if n ∈ xs then xs else sortIDs (xs ++ [n])

def removeID (xs : List NodeID) (n : NodeID) : List NodeID := xs.filter (· ≠ n)

namespace Configuration

def isVoter (c : Configuration) (n : NodeID) : Bool := c.voters.contains n

def isLearner (c : Configuration) (n : NodeID) : Bool := c.learners.contains n

/-- Every node of the configuration, sorted. -/
def members (c : Configuration) : List NodeID := sortIDs (c.voters ++ c.learners)

/-- The configuration after one server's change, or why it is refused. -/
def apply (c : Configuration) (ch : ConfChangeSingle) : Except ConfError Configuration := do
  let out ← match ch.type with
    | .addVoter =>
      pure { learners := removeID c.learners ch.node, voters := insertID c.voters ch.node }
    | .addLearner =>
      if c.isVoter ch.node then throw (.demotion ch.node)
      else pure { c with learners := insertID c.learners ch.node }
    | .removeNode =>
      pure { voters := removeID c.voters ch.node, learners := removeID c.learners ch.node }
    | .numConfChangeTypes => throw .unknownType
    | .unknown _ => pure c
  if out.voters.isEmpty then throw (.noVoters ch.type) else pure out

end Configuration

/-- Apply a configuration entry's bytes: one simple change and nothing else. -/
def applyConfEntry (c : Configuration) (data : Bytes) : Except ConfError Configuration :=
  match decodeConfChange data with
  | none => throw .undecodable
  | some cc =>
    if cc.transition ≠ .simple then throw (.joint cc.transition)
    else match cc.changes with
      | [ch] => c.apply ch
      | chs => throw (.servers chs.length)

/-- Put a membership on the wire and in a snapshot. -/
def encodeConfiguration (c : Configuration) : Bytes :=
  UInt8.ofNat c.voters.length :: UInt8.ofNat c.learners.length ::
    (c.voters ++ c.learners).flatMap encodeNodeID

/-- Read `n` node identifiers. -/
def decodeNodeIDs : ℕ → Bytes → List NodeID
  | 0, _ => []
  | n + 1, b => decodeNodeID (b.take 8) :: decodeNodeIDs n (b.drop 8)

/-- Read a membership back; `none` when the length does not add up. -/
def decodeConfiguration : Bytes → Option Configuration
  | nv :: nl :: b =>
    if b.length ≠ (nv.toNat + nl.toNat) * 8 then none
    else some
      { voters := decodeNodeIDs nv.toNat b
        learners := decodeNodeIDs nl.toNat (b.drop (nv.toNat * 8)) }
  | _ => none

/-! ### Messages and outputs -/

inductive MessageType
  | vote | voteResp | app | appResp | preVote | preVoteResp | snap | timeoutNow
  | readIndex | readIndexResp
  deriving DecidableEq, Repr

/-- The wire form: one record for every type, with the fields a type does not use at zero. -/
structure Message where
  type : MessageType
  fromID : NodeID
  toID : NodeID
  term : ℕ
  lastLogIndex : ℕ := 0
  lastLogTerm : ℕ := 0
  granted : Bool := false
  success : Bool := false
  prevLogIndex : ℕ := 0
  prevLogTerm : ℕ := 0
  entries : List Entry := []
  leaderCommit : ℕ := 0
  matchIndex : ℕ := 0
  hint : ℕ := 0
  snapIndex : ℕ := 0
  snapTerm : ℕ := 0
  snapData : Bytes := []
  snapConf : Bytes := []
  readCtx : Bytes := []
  readIndex : ℕ := 0
  deriving DecidableEq, Repr

/-- One confirmed read index. -/
structure ReadState where
  index : ℕ
  ctx : Bytes
  deriving DecidableEq, Repr

/-- A read-index request waiting for a confirming quorum. -/
structure ReadReq where
  index : ℕ
  term : ℕ
  ctx : Bytes
  fromID : NodeID := 0
  acks : List NodeID := []
  deriving DecidableEq, Repr

/-- The state that must be durable before it may be acted on. -/
structure HardState where
  term : ℕ := 0
  vote : NodeID := 0
  deriving DecidableEq, Repr

/-- A state machine snapshot handed to the driver. -/
structure Snapshot where
  index : ℕ
  term : ℕ
  data : Bytes
  conf : Configuration
  deriving DecidableEq, Repr

/-- The snapshot a recovering node found on disk; the default is "none". -/
structure SnapshotMeta where
  index : ℕ := 0
  term : ℕ := 0
  conf : Configuration := {}
  deriving DecidableEq, Repr

/-- What recovery is told of an installed snapshot. -/
def Snapshot.meta (s : Snapshot) : SnapshotMeta := { index := s.index, term := s.term, conf := s.conf }

/-- A drain of a node's pending outputs. -/
structure Ready where
  hardState : Option HardState := none
  entries : List Entry := []
  snapshotTo : List NodeID := []
  snapshot : Option Snapshot := none
  mark : ℕ := 0
  readStates : List ReadState := []
  snapMark : ℕ := 0
  messages : List Message := []
  committed : List Entry := []
  deriving DecidableEq, Repr

/-- A node's construction parameters. -/
structure Config where
  id : NodeID
  peers : List NodeID
  electionTimeout : ℕ
  heartbeatTimeout : ℕ
  learners : List NodeID := []
  promotionLag : ℕ := 0
  preVote : Bool := false
  deriving DecidableEq, Repr

end Rift
