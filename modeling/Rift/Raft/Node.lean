import Rift.Raft.Types

/-!
# One node's state, its log and its durability marks

The state record of `raft/raft.go` and the helpers every call is built from: log
lookups, truncation, the open durability mark, the queue of withheld messages, and
the active configuration as a function of the log.

The source keeps five slices parallel to `peers`; here each peer carries its own five
values. A Go panic is an `Except` error that names the panic, so that "never panics"
can be stated; a returned Go `error` leaves the node as it was.
-/

namespace Rift

/-- The source's panics. -/
inductive Panic
  /-- `appendEntries`: the index does not follow the log. -/
  | appendGap
  /-- `truncateFrom`: the index is at or below the commit index. -/
  | truncateCommitted
  /-- `truncateFrom`: the index is at or below the snapshot. -/
  | truncateSnapshot
  /-- `suffixFrom`: the suffix starts behind the snapshot. -/
  | suffixCompacted
  /-- `marksFor`: the index is neither durable nor pending. -/
  | marksUncovered
  /-- `Ready`: an index to apply lies behind the snapshot. -/
  | applyBehindSnapshot
  /-- `send`: a gated message type through the ungated path. -/
  | sendUngated
  /-- `TransferLeadership`: the target is this node. -/
  | transferSelf
  /-- A slice is indexed by the position of this node, which is not a peer. -/
  | selfNotPeer
  deriving DecidableEq, Repr

/-- The result of code that may panic. -/
abbrev Outcome := Except Panic

/-- A tracked peer with the values of the slices parallel to `peers`. -/
structure Peer where
  id : NodeID
  nextIndex : ℕ := 0
  matchIndex : ℕ := 0
  votesGranted : Bool := false
  votesDenied : Bool := false
  preGranted : Bool := false
  deriving DecidableEq, Repr

/-- What has been handed over and what is durable. -/
structure LogTail where
  /-- The highest index acknowledged durable. -/
  persisted : ℕ := 0
  /-- The highest index given to the driver. -/
  handed : ℕ := 0
  deriving DecidableEq, Repr

/-- A withheld message and the durability points it attests to; zero is no constraint. -/
structure GatedMessage where
  msg : Message
  mark : ℕ := 0
  snapMark : ℕ := 0
  termMark : ℕ := 0
  deriving DecidableEq, Repr

/-- One node's state machine. -/
structure Raft where
  id : NodeID
  peers : List Peer
  conf : Configuration
  baseConf : Configuration
  promotionLag : ℕ
  confRefusal : Option (ℕ × ConfError) := none
  term : ℕ := 0
  vote : NodeID := 0
  /-- The entries after the snapshot: `log[0]` is entry `snapIndex + 1`. -/
  log : List Entry := []
  snapIndex : ℕ := 0
  snapTerm : ℕ := 0
  snapMark : ℕ := 0
  nextSnapMark : ℕ := 0
  persistedSnap : ℕ := 0
  pendingSnap : Option Snapshot := none
  role : Role := .follower
  commitIndex : ℕ := 0
  appliedIdx : ℕ := 0
  leader : NodeID := 0
  /-- The index of this term's no-op. -/
  termStart : ℕ := 0
  pendingReads : List ReadReq := []
  readyReads : List ReadState := []
  preVote : Bool := false
  preVoting : Bool := false
  leadTransferee : NodeID := 0
  transferElapsed : ℕ := 0
  snapTo : List NodeID := []
  electionElapsed : ℕ := 0
  heartbeatElapsed : ℕ := 0
  electionTimeout : ℕ
  randomizedElectionTimeout : ℕ
  heartbeatTimeout : ℕ
  msgs : List Message := []
  tail : LogTail := {}
  markLastIdx : ℕ := 0
  lastHandedMark : ℕ := 0
  hardStateDirty : Bool := false
  nextMark : ℕ := 0
  persisted : ℕ := 0
  gated : List GatedMessage := []
  dirtyMark : ℕ := 0
  hsMark : ℕ := 0
  markHandedOff : Bool := false
  deriving DecidableEq, Repr

namespace Raft

variable (r : Raft)

/-! ### The log -/

def lastIndex : ℕ :=
  match r.log.getLast? with
  | none => r.snapIndex
  | some e => e.index

/-- The entry at a log index; `none` behind the snapshot and past the end. -/
def entryAt (i : ℕ) : Option Entry :=
  if i ≤ r.snapIndex ∨ r.lastIndex < i then none else r.log[i - r.snapIndex - 1]?

/-- The entries from an index to the end. -/
def suffixFrom (i : ℕ) : Outcome (List Entry) :=
  if i ≤ r.snapIndex then throw .suffixCompacted
  else if r.lastIndex < i then pure []
  else pure (r.log.drop (i - r.snapIndex - 1))

/-- The term of an entry; zero when this node cannot answer. -/
def termAt (i : ℕ) : ℕ :=
  if i = 0 then 0
  else if i = r.snapIndex then r.snapTerm
  else match r.entryAt i with
    | some e => e.term
    | none => 0

def lastTerm : ℕ := r.termAt r.lastIndex

/-- The append consistency check. -/
def matchesLog (idx : ℕ) (term : ℕ) : Bool :=
  if idx = 0 then r.snapIndex = 0
  else if r.lastIndex < idx then false
  else if idx < r.snapIndex then false
  else r.termAt idx = term

/-- The candidate-log check: a later term wins, and at equal terms a longer log wins. -/
def logIsUpToDate (idx : ℕ) (term : ℕ) : Bool :=
  if term ≠ r.lastTerm then r.lastTerm < term else r.lastIndex ≤ idx

/-- The newest configuration entry still in the log, or zero. -/
def lastConfIndex : ℕ :=
  match r.log.reverse.find? (·.type = .confChange) with
  | some e => e.index
  | none => 0

/-! ### Peers and quorums -/

/-- A majority of voters. -/
def quorum : ℕ := r.conf.voters.length / 2 + 1

/-- Count the peers that are voters and satisfy `f`. -/
def countVoters (f : Peer → Bool) : ℕ :=
  r.peers.countP fun p => f p && r.conf.isVoter p.id

/-- The tracked state of a peer, by identity. -/
def peer? (id : NodeID) : Option Peer := r.peers.find? (·.id = id)

/-- Update the first peer with an identity. -/
def modifyPeer (id : NodeID) (f : Peer → Peer) : List Peer → List Peer
  | [] => []
  | p :: ps => if p.id = id then f p :: ps else p :: modifyPeer id f ps

/-- Update a peer's slot. -/
def withPeer (id : NodeID) (f : Peer → Peer) : Raft :=
  { r with peers := modifyPeer id f r.peers }

/-- Update this node's own slot; the source indexes a slice, which panics for a non-member. -/
def setSelf (f : Peer → Peer) : Outcome Raft :=
  if (r.peer? r.id).isSome then pure (r.withPeer r.id f) else throw .selfNotPeer

/-! ### The active configuration -/

/-- Install a configuration and rebuild the peers, keeping each node's progress by identity. -/
def setConf (conf : Configuration) : Raft :=
  { r with
    conf := conf
    peers := conf.members.map fun p =>
      let q := (r.peers.find? (·.id = p)).getD { id := p }
      { q with nextIndex := if q.nextIndex = 0 then r.lastIndex + 1 else q.nextIndex } }

/-- One step of the recomputation: a refused entry is latched and skipped. -/
def confStep (s : Configuration × Option (ℕ × ConfError)) (e : Entry) :
    Configuration × Option (ℕ × ConfError) :=
  if e.type ≠ .confChange then s
  else match applyConfEntry s.1 e.data with
    | .ok c => (c, s.2)
    | .error err => (s.1, s.2.or (some (e.index, err)))

/-- Rebuild the active configuration from the base configuration and the log. -/
def recomputeConf : Raft :=
  let s := r.log.foldl confStep (r.baseConf, r.confRefusal)
  { r with confRefusal := s.2 }.setConf s.1

/-! ### Durability marks -/

/-- Open (or extend) the pending durability point; a handed mark's coverage is frozen. -/
def dirty : Raft :=
  if r.dirtyMark = 0 ∨ r.markHandedOff then
    { r with nextMark := r.nextMark + 1, dirtyMark := r.nextMark + 1, markHandedOff := false }
  else r

/-- The mark that must be durable before this node's term may be revealed. -/
def termMark : ℕ :=
  if r.hardStateDirty ∧ r.hsMark < r.dirtyMark then r.dirtyMark else r.hsMark

/-- Withhold a message until every named mark, and the term's, is durable. -/
def sendGatedOn (mark snapMark : ℕ) (m : Message) : Raft :=
  if mark = 0 ∧ snapMark = 0 ∧ r.termMark = 0 then { r with msgs := r.msgs ++ [m] }
  else { r with gated := r.gated ++
    [{ msg := m, mark := mark, snapMark := snapMark, termMark := r.termMark }] }

def sendGated (m : Message) : Raft := r.sendGatedOn 0 0 m

/-- Release a message that attests to no persistent state; every other type is refused. -/
def send (m : Message) : Outcome Raft :=
  match m.type with
  | .preVote | .preVoteResp | .timeoutNow => pure { r with msgs := r.msgs ++ [m] }
  | _ => throw .sendUngated

/-- The marks that must be durable before an index may be attested to. -/
def marksFor (idx : ℕ) : Outcome (ℕ × ℕ) :=
  if idx = 0 then pure (0, 0)
  else if idx ≤ r.snapIndex then pure (0, r.snapMark)
  else if idx ≤ r.tail.persisted then pure (0, 0)
  else if r.dirtyMark = 0 then throw .marksUncovered
  else pure (r.dirtyMark, 0)

/-- Every durability point of a withheld message has landed. -/
def released (g : GatedMessage) : Bool :=
  g.mark ≤ r.persisted && g.termMark ≤ r.persisted && g.snapMark ≤ r.persistedSnap

/-- Move out every withheld message whose durability points have all landed. -/
def release : Raft :=
  { r with
    msgs := r.msgs ++ (r.gated.filter r.released).map (·.msg)
    gated := r.gated.filter fun g => !r.released g }

/-- Close every log mark up to `m`. -/
def closeThrough (m : ℕ) : Raft :=
  { r with
    persisted := if r.persisted < m then m else r.persisted
    dirtyMark := if r.dirtyMark ≠ 0 ∧ r.dirtyMark ≤ m then 0 else r.dirtyMark
    markHandedOff := if r.dirtyMark ≠ 0 ∧ r.dirtyMark ≤ m then false else r.markHandedOff }

/-- Close every log mark up to `m` and release what no longer waits. -/
def releaseThrough (m : ℕ) : Raft := (r.closeThrough m).release

/-- Strike an empty mark from whichever constraint names it. -/
def strike (m : ℕ) (g : GatedMessage) : GatedMessage :=
  { g with
    mark := if g.mark = m then 0 else g.mark
    termMark := if g.termMark = m then 0 else g.termMark }

/-- Forget a mark that covers nothing. -/
def dropMark (m : ℕ) : Raft :=
  { r with
    dirtyMark := if r.dirtyMark = m then 0 else r.dirtyMark
    markHandedOff := if r.dirtyMark = m then false else r.markHandedOff
    gated := r.gated.map (strike m) }

/-- Satisfy a mark that covers nothing, and nothing else. -/
def closeEmptyMark (m : ℕ) : Raft := (r.dropMark m).release

/-! ### Mutations of persistent state -/

def setVote (v : NodeID) : Raft :=
  if r.vote ≠ v then { r with vote := v, hardStateDirty := true }.dirty else r

def setTermAndVote (t : ℕ) (v : NodeID) : Raft :=
  if r.term ≠ t ∨ r.vote ≠ v then
    { r with term := t, vote := v, hardStateDirty := true }.dirty
  else r

/-- Append entries to the log, each at the index right after its end. -/
def appendEntries (es : List Entry) : Outcome Raft := do
  let r' ← es.foldlM (fun r e =>
    if e.index ≠ r.lastIndex + 1 then throw Panic.appendGap
    else pure { r with log := r.log ++ [e] }) r
  let r' := if es.any (·.type = .confChange) then r'.recomputeConf else r'
  pure r'.dirty

/-- A withheld success response that attests to an index from `i` on. -/
def attestsFrom (i : ℕ) (g : GatedMessage) : Bool :=
  g.msg.type = .appResp && g.msg.success && i ≤ g.msg.matchIndex

/-- The log before index `i`, without the durability facts and withheld responses about the
rest. -/
def cutFrom (i : ℕ) : Raft :=
  { r with
    log := r.log.take (i - r.snapIndex - 1)
    tail :=
      { persisted := if i ≤ r.tail.persisted then i - 1 else r.tail.persisted
        handed := if i ≤ r.tail.handed then i - 1 else r.tail.handed }
    markLastIdx := if i ≤ r.markLastIdx then i - 1 else r.markLastIdx
    gated := r.gated.filter fun g => !attestsFrom i g }.recomputeConf

/-- Drop the log from index `i` on. -/
def truncateFrom (i : ℕ) : Outcome Raft :=
  if i < 1 ∨ r.lastIndex < i then pure r
  else if i ≤ r.commitIndex then throw .truncateCommitted
  else if i ≤ r.snapIndex then throw .truncateSnapshot
  else pure (r.cutFrom i)

end Raft

end Rift
