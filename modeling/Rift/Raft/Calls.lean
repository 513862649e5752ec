import Rift.Raft.Protocol

/-!
# The interface of a node

The entry points of `raft/raft.go`: construction and recovery, the logical clock,
proposals, messages, the `Ready` drain and the acknowledgements of the driver. `Call`
collects them, and `Raft.exec` performs one call; a call that returns a Go error leaves
the node unchanged.
-/

namespace Rift

/-- The errors the entry points return. -/
inductive CallError
  | zeroProposal
  | notLeader
  | transferInProgress
  | joint (t : ConfChangeTransition)
  | servers (n : ℕ)
  | confChangeInFlight
  | learnerLagging (n : NodeID) (gap bound : ℕ)
  | conf (e : ConfError)
  | emptyCtx
  | alreadyLeader
  | misaddressed (dest : NodeID)
  | compactUnapplied (i : ℕ)
  | compactUndurable (i : ℕ)
  | compactMissing (i : ℕ)
  | confBehindSnapshot (i : ℕ)
  | confMissing (i : ℕ)
  deriving DecidableEq, Repr

/-- The errors of construction and recovery. -/
inductive BuildError
  | reservedID
  | noPeers
  | zeroPeer
  | unsortedPeers
  | notAPeer
  | timeouts
  | heartbeatNotUnderElection
  | noVoters
  | gappedLog (position : ℕ) (index : ℕ)
  deriving DecidableEq, Repr

def defaultPromotionLag : ℕ := 8

namespace Config

/-- Peers are strictly ascending. -/
def sorted : List NodeID → Bool
  | p :: q :: ps => p < q && sorted (q :: ps)
  | _ => true

/-- The configuration a node is constructed with: the listed learners, and every other peer
a voter. -/
def conf (cfg : Config) : Configuration :=
  cfg.peers.foldl (fun c p =>
    if cfg.learners.contains p then { c with learners := insertID c.learners p }
    else { c with voters := insertID c.voters p }) {}

/-- Why a node cannot be built from this configuration, if it cannot. -/
def refusal (cfg : Config) : Option BuildError :=
  if cfg.id = 0 then some .reservedID
  else if cfg.peers = [] then some .noPeers
  else if cfg.peers.contains 0 then some .zeroPeer
  else if !sorted cfg.peers then some .unsortedPeers
  else if !cfg.peers.contains cfg.id then some .notAPeer
  else if cfg.electionTimeout = 0 ∨ cfg.heartbeatTimeout = 0 then some .timeouts
  else if cfg.electionTimeout ≤ cfg.heartbeatTimeout then some .heartbeatNotUnderElection
  else if cfg.conf.voters = [] then some .noVoters
  else none

end Config

namespace Raft

/-- The node `New` returns for an accepted configuration. -/
def fresh (cfg : Config) : Raft :=
  { id := cfg.id
    peers := cfg.conf.members.map fun p => { id := p }
    conf := cfg.conf
    baseConf := cfg.conf
    promotionLag := if cfg.promotionLag = 0 then defaultPromotionLag else cfg.promotionLag
    electionTimeout := cfg.electionTimeout
    randomizedElectionTimeout := cfg.electionTimeout
    heartbeatTimeout := cfg.heartbeatTimeout
    preVote := cfg.preVote }

def new (cfg : Config) : Except BuildError Raft :=
  match cfg.refusal with
  | some e => throw e
  | none => pure (fresh cfg)

/-- The position and index of the first entry that does not continue a log ending at `last`. -/
def firstGap (last : ℕ) : ℕ → List Entry → Option (ℕ × ℕ)
  | _, [] => none
  | i, e :: es => if e.index ≠ last + i + 1 then some (i, e.index) else firstGap last (i + 1) es

/-- The node recovered from a durable hard state, snapshot and log. -/
def recovered (cfg : Config) (hs : HardState) (snap : SnapshotMeta) (entries : List Entry) :
    Raft :=
  let r := fresh cfg
  let r := recomputeConf
    { r with
      term := hs.term
      vote := hs.vote
      snapIndex := snap.index
      snapTerm := snap.term
      baseConf := if snap.conf.voters = [] then r.baseConf else snap.conf
      log := entries
      commitIndex := snap.index
      appliedIdx := snap.index }
  { r with tail := { persisted := r.lastIndex, handed := r.lastIndex }, markLastIdx := r.lastIndex }

/-- Rebuild a node from what an engine gave back after a crash. -/
def restore (cfg : Config) (hs : HardState) (snap : SnapshotMeta) (entries : List Entry) :
    Except BuildError Raft := do
  let _ ← new cfg
  match firstGap snap.index 0 entries with
  | some (i, idx) => throw (.gappedLog i idx)
  | none => pure (recovered cfg hs snap entries)

variable (r : Raft)

/-! ### Clock, proposals and messages -/

def setElectionTimeout (ticks : ℕ) : Raft :=
  if 0 < ticks then { r with randomizedElectionTimeout := ticks } else r

/-- A voter that has waited out its timeout campaigns. -/
def electionDue : Outcome Raft :=
  if r.randomizedElectionTimeout ≤ r.electionElapsed ∧ r.conf.isVoter r.id then r.campaign
  else pure r

/-- A leadership transfer that takes an election timeout is given up. -/
def tickTransfer : Raft :=
  if r.leadTransferee = 0 then r
  else if r.electionTimeout ≤ r.transferElapsed + 1 then
    { r with transferElapsed := r.transferElapsed + 1, leadTransferee := 0 }
  else { r with transferElapsed := r.transferElapsed + 1 }

def heartbeatDue : Outcome Raft :=
  if r.heartbeatTimeout ≤ r.heartbeatElapsed then broadcastAppend { r with heartbeatElapsed := 0 }
  else pure r

/-- Advance the logical clock by one. -/
def tick : Outcome Raft :=
  match r.role with
  | .follower | .candidate => electionDue { r with electionElapsed := r.electionElapsed + 1 }
  | .leader =>
    let r := r.tickTransfer
    heartbeatDue { r with heartbeatElapsed := r.heartbeatElapsed + 1 }

/-- Append an entry of this leader's term and replicate it. -/
def appendAndBroadcast (type : EntryType) (id : ProposalID) (data : Bytes) : Outcome Raft := do
  let r ← r.appendEntries
    [{ type := type, term := r.term, index := r.lastIndex + 1, id := id, data := data }]
  r.broadcastAppend

/-- Append a client command on the leader. -/
def propose (id : ProposalID) (data : Bytes) : Outcome (Except CallError Raft) :=
  if id.zero then pure (throw .zeroProposal)
  else if r.role ≠ .leader then pure (throw .notLeader)
  else if r.leadTransferee ≠ 0 then pure (throw .transferInProgress)
  else do return pure (← r.appendAndBroadcast .normal id data)

/-- How far a learner to be promoted is behind, when that exceeds the bound. One that acknowledged
more than the log holds is behind by the wrapped difference. -/
def promotionGap (ch : ConfChangeSingle) : Option ℕ :=
  if ch.type = .addVoter ∧ r.conf.isLearner ch.node then
    match r.peer? ch.node with
    | some p =>
      let gap := (r.lastIndex + 2 ^ 64 - p.matchIndex) % 2 ^ 64
      if r.promotionLag < gap then some gap else none
    | none => none
  else none

/-- Append a configuration change: one simple change, with no earlier one in flight. -/
def proposeConfChange (id : ProposalID) (cc : ConfChangeV2) : Outcome (Except CallError Raft) :=
  if id.zero then pure (throw .zeroProposal)
  else if r.role ≠ .leader then pure (throw .notLeader)
  else if r.leadTransferee ≠ 0 then pure (throw .transferInProgress)
  else if cc.transition ≠ .simple then pure (throw (.joint cc.transition))
  else match cc.changes with
    | [ch] =>
      if r.commitIndex < r.lastConfIndex then pure (throw .confChangeInFlight)
      else match r.promotionGap ch with
        | some gap => pure (throw (.learnerLagging ch.node gap r.promotionLag))
        | none =>
          match r.conf.apply ch with
          | .error e => pure (throw (.conf e))
          | .ok _ => do
            return pure (← r.appendAndBroadcast .confChange id (encodeConfChange cc))
    | chs => pure (throw (.servers chs.length))

/-- Feed one message in. -/
def step (m : Message) : Outcome (Except CallError Raft) :=
  if m.toID ≠ r.id then pure (throw (.misaddressed m.toID))
  else do return pure (← (r.observeTerm m).dispatch m)

/-- The forwarded read request of a follower. -/
def readIndexMessage (ctx : Bytes) : Message :=
  { type := .readIndex, fromID := r.id, toID := r.leader, term := r.term, readCtx := ctx }

/-- Request an index at which a linearizable read may be served. -/
def readIndex (ctx : Bytes) : Outcome (Except CallError Raft) :=
  if ctx = [] then pure (throw .emptyCtx)
  else match r.role with
    | .leader => do
      let q : ReadReq := { index := r.readFloor, term := r.term, ctx := ctx }
      return pure (← (r.recordRead q).broadcastAppend)
    | .follower =>
      if r.leader = 0 then pure (throw .notLeader)
      else pure (pure (r.sendGated (r.readIndexMessage ctx)))
    | .candidate => pure (throw .notLeader)

def startTransfer (target : NodeID) : Raft :=
  { r with leadTransferee := target, transferElapsed := 0 }

/-- Hand leadership to another voter without waiting out an election timeout. -/
def transferLeadership (target : NodeID) : Outcome Raft :=
  if target = r.id then throw .transferSelf
  else match r.peer? target with
    | none => pure r
    | some p =>
      if !r.conf.isVoter target then pure r
      else if r.role ≠ .leader ∨ r.leadTransferee ≠ 0 then pure r
      else
        let r := r.startTransfer target
        if r.lastIndex ≤ p.matchIndex then r.send (r.timeoutNowMessage target)
        else r.sendAppend target

/-- Start an election immediately. -/
def campaignNow : Outcome (Except CallError Raft) :=
  if r.role = .leader then pure (throw .alreadyLeader) else do return pure (← r.campaign)

/-! ### The drain and the acknowledgements -/

/-- The committed entries not yet applied. After the largest index the loop starts over at zero, where
no entry is. -/
def unapplied : Outcome (List Entry) :=
  let first := (r.appliedIdx + 1) % 2 ^ 64
  let last := min r.commitIndex r.lastIndex
  (List.range' first (last + 1 - first)).mapM fun i =>
    match r.entryAt i with
    | some e => pure e
    | none => throw .applyBehindSnapshot

/-- The log entries not yet handed to the driver. -/
def unhanded : Outcome (List Entry) :=
  if r.tail.handed < r.lastIndex then r.suffixFrom (r.tail.handed + 1) else pure []

/-- Take the reads, the snapshot and the snapshot targets out, and note which mark a changed hard
state travels under. -/
def takeOutputs : Raft :=
  { r with
    readyReads := []
    pendingSnap := none
    snapTo := []
    hsMark := if r.hardStateDirty then r.dirtyMark else r.hsMark }

/-- The end of a drain: the messages and the hard state are out. -/
def flushed : Raft := { r with msgs := [], hardStateDirty := false }

/-- Freeze the open mark at this handover. -/
def handOver (entries : List Entry) : Raft :=
  { r with
    markHandedOff := true
    lastHandedMark := r.dirtyMark
    tail := { r.tail with handed := (entries.getLast?.map (·.index)).getD r.tail.handed }
    markLastIdx := (entries.getLast?.map (·.index)).getD r.markLastIdx }

/-- A mark that was never handed over covers nothing and is closed. -/
def closeIdle : Raft :=
  if r.dirtyMark ≠ 0 ∧ !r.markHandedOff then r.closeEmptyMark r.dirtyMark else r

/-- The hard state to hand over, if it changed. -/
def changedHardState : Option HardState :=
  if r.hardStateDirty then some { term := r.term, vote := r.vote } else none

/-- What a drain returns when it hands something over. -/
def output (entries committed : List Entry) : Ready :=
  { hardState := r.changedHardState
    entries := entries
    snapshotTo := r.snapTo
    snapshot := r.pendingSnap
    mark := r.dirtyMark
    readStates := r.readyReads
    snapMark := if r.pendingSnap.isSome then r.snapMark else 0
    messages := r.msgs
    committed := committed }

/-- Drain the pending outputs. What closing an empty mark releases reaches nobody: the source took
`rd.Messages` before it and clears `msgs` after it. -/
def ready : Outcome (Raft × Ready) := do
  let entries ← r.unhanded
  let committed ← r.unapplied
  let rd := r.output entries committed
  if r.hardStateDirty ∨ entries ≠ [] then
    pure ((r.takeOutputs.handOver entries).flushed, rd)
  else
    pure (r.takeOutputs.closeIdle.flushed, { rd with mark := 0 })

/-- The marks up to `m` are durable, and with the newest one the log up to what it carried. -/
def landed (m : ℕ) : Raft :=
  { r with
    persisted := m
    hsMark := if r.hsMark ≠ 0 ∧ r.hsMark ≤ m then 0 else r.hsMark
    tail := if r.lastHandedMark ≠ 0 ∧ r.lastHandedMark ≤ m ∧ r.tail.persisted < r.markLastIdx then
        { r.tail with persisted := r.markLastIdx } else r.tail }

/-- The marks up to `m` have landed: what waited for them is released. -/
def landMarks (m : ℕ) : Raft := (r.landed m).releaseThrough m

/-- A leader counts its own copy only once it is durable. -/
def countSelf : Raft :=
  if r.role ≠ .leader then r
  else match r.peer? r.id with
    | none => r
    | some p =>
      if p.matchIndex < r.tail.persisted then
        (r.withPeer r.id fun p => { p with matchIndex := r.tail.persisted }).maybeCommit
      else r

/-- Everything up to mark `m` is durable. -/
def ackPersisted (m : ℕ) : Raft :=
  if m ≤ r.persisted then r else (r.landMarks m).countSelf

/-- The snapshot marks up to `m` are durable. -/
def snapLanded (m : ℕ) : Raft :=
  { r with
    persistedSnap := m
    snapMark := if r.snapMark ≠ 0 ∧ r.snapMark ≤ m then 0 else r.snapMark }

/-- The snapshot install named by mark `m` is durable. -/
def ackSnapshot (m : ℕ) : Raft :=
  if m ≤ r.persistedSnap then r else (r.snapLanded m).release

/-- Entries up to `index` have been applied. -/
def ackApplied (index : ℕ) : Raft :=
  if r.appliedIdx < index then { r with appliedIdx := index } else r

/-- The configuration in effect at an index: the base and every configuration entry through it. -/
def configurationAt (index : ℕ) : Except CallError Configuration :=
  if index < r.snapIndex then throw (.confBehindSnapshot index)
  else if index = r.snapIndex then pure r.baseConf
  else if (r.entryAt index).isNone then throw (.confMissing index)
  else pure ((r.log.takeWhile (·.index ≤ index)).foldl confStep (r.baseConf, none)).1

/-- The log after `index`, on top of the configuration in effect there. -/
def dropThrough (index term : ℕ) (conf : Configuration) : Raft :=
  recomputeConf
    { r with
      log := r.log.drop (index - r.snapIndex)
      snapIndex := index
      snapTerm := term
      baseConf := conf }

/-- Discard the log prefix through an applied and durable index. -/
def compact (index : ℕ) : Except CallError (Raft × ℕ × Configuration) :=
  if index ≤ r.snapIndex then pure (r, r.snapTerm, r.baseConf)
  else if r.appliedIdx < index then throw (.compactUnapplied index)
  else if r.tail.persisted < index then throw (.compactUndurable index)
  else match r.entryAt index with
    | none => throw (.compactMissing index)
    | some e => do
      let conf ← r.configurationAt index
      pure (r.dropThrough index e.term conf, e.term, conf)

end Raft

/-! ### Calls -/

/-- One call on a node. -/
inductive Call
  | setElectionTimeout (ticks : ℕ)
  | tick
  | campaign
  | propose (id : ProposalID) (data : Bytes)
  | proposeConfChange (id : ProposalID) (cc : ConfChangeV2)
  | step (m : Message)
  | readIndex (ctx : Bytes)
  | transferLeadership (target : NodeID)
  | ready
  | ackPersisted (m : ℕ)
  | ackSnapshot (m : ℕ)
  | ackApplied (index : ℕ)
  | compact (index : ℕ)
  deriving DecidableEq, Repr

/-- What a call returns to its caller. -/
inductive Reply
  | done
  | failed (e : CallError)
  | drained (rd : Ready)
  | compacted (term : ℕ) (conf : Configuration)
  deriving DecidableEq, Repr

namespace Raft

/-- A returned error leaves the node as it was. -/
def orUnchanged (r : Raft) : Except CallError Raft → Raft × Reply
  | .ok r' => (r', .done)
  | .error e => (r, .failed e)

/-- Perform one call. -/
def exec (r : Raft) : Call → Outcome (Raft × Reply)
  | .setElectionTimeout n => pure (r.setElectionTimeout n, .done)
  | .tick => do return (← r.tick, .done)
  | .campaign => do return r.orUnchanged (← r.campaignNow)
  | .propose id data => do return r.orUnchanged (← r.propose id data)
  | .proposeConfChange id cc => do return r.orUnchanged (← r.proposeConfChange id cc)
  | .step m => do return r.orUnchanged (← r.step m)
  | .readIndex ctx => do return r.orUnchanged (← r.readIndex ctx)
  | .transferLeadership n => do return (← r.transferLeadership n, .done)
  | .ready => do
    let (r', rd) ← r.ready
    return (r', .drained rd)
  | .ackPersisted m => pure (r.ackPersisted m, .done)
  | .ackSnapshot m => pure (r.ackSnapshot m, .done)
  | .ackApplied i => pure (r.ackApplied i, .done)
  | .compact i =>
    match r.compact i with
    | .ok (r', t, c) => pure (r', .compacted t c)
    | .error e => pure (r, .failed e)

end Raft

end Rift
