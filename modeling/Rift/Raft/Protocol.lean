import Rift.Raft.Node

/-!
# Elections, replication, snapshots and reads

The message handlers of `raft/raft.go` and what they are made of: campaigning and
becoming leader, appending and acknowledging, counting towards commitment, installing a
snapshot, and the read-index round.
-/

namespace Rift

/-- Note a peer's acknowledgement once. -/
def ReadReq.addAck (q : ReadReq) (peer : NodeID) : ReadReq :=
  if peer ∈ q.acks then q else { q with acks := q.acks ++ [peer] }

namespace Raft

variable (r : Raft)

/-! ### Replication -/

/-- Name a follower the driver must send its snapshot to. -/
def sendSnapshot (dest : NodeID) : Raft :=
  if dest ∈ r.snapTo then r
  else
    { r with
      snapTo := r.snapTo ++ [dest]
      peers := modifyPeer dest (fun p => { p with nextIndex := r.snapIndex + 1 }) r.peers }

/-- The append sent to a peer whose next index is `next`. -/
def appendMessage (dest : NodeID) (next : ℕ) (ents : List Entry) : Message :=
  { type := .app, fromID := r.id, toID := dest, term := r.term, prevLogIndex := next - 1,
    prevLogTerm := r.termAt (next - 1), entries := ents, leaderCommit := r.commitIndex }

/-- Send a peer the log from its next index on, or name it for a snapshot. -/
def sendAppend (dest : NodeID) : Outcome Raft :=
  match r.peer? dest with
  | none => pure r
  | some p =>
    let next := if p.nextIndex < 1 then 1 else p.nextIndex
    if next ≤ r.snapIndex then pure (r.sendSnapshot dest)
    else do
      let ents ← if next ≤ r.lastIndex then r.suffixFrom next else pure []
      pure (r.sendGated (r.appendMessage dest next ents))

/-- Send an append to every other peer. -/
def broadcastAppend : Outcome Raft :=
  (r.peers.map (·.id)).foldlM
    (fun r p => if p = r.id then pure r else r.sendAppend p) r

/-! ### Roles -/

/-- The follower role at the current term. -/
def demoted : Raft := { r with role := .follower, heartbeatElapsed := 0, leadTransferee := 0 }

def becomeFollower (term : ℕ) (vote : NodeID) : Raft :=
  if r.term < term then (r.setTermAndVote term vote).demoted else r.demoted

/-- The entry a new leader appends at the start of its term. -/
def noop : Entry := { type := .normal, term := r.term, index := r.lastIndex + 1 }

/-- The leader role, with every peer's progress reset. -/
def takeLead : Raft :=
  { r with
    role := .leader
    leader := r.id
    heartbeatElapsed := 0
    leadTransferee := 0
    preVoting := false
    peers := r.peers.map fun p => { p with nextIndex := r.lastIndex + 1, matchIndex := 0 } }

/-- Note where this leader's term starts and forget the reads of earlier terms. -/
def startTerm (start : ℕ) : Raft :=
  { r with termStart := start, pendingReads := [], readyReads := [] }

def becomeLeader : Outcome Raft := do
  let r₁ ← r.takeLead.setSelf fun p => { p with matchIndex := r.tail.persisted }
  let r₂ ← r₁.appendEntries [r₁.noop]
  (r₂.startTerm (r₁.lastIndex + 1)).broadcastAppend

/-- The vote request of a campaign. -/
def voteMessage (dest : NodeID) : Message :=
  { type := .vote, fromID := r.id, toID := dest, term := r.term,
    lastLogIndex := r.lastIndex, lastLogTerm := r.lastTerm }

/-- Send the vote requests of a campaign. -/
def requestVotes : Raft :=
  (r.peers.map (·.id)).foldl
    (fun r p => if p = r.id then r else r.sendGated (r.voteMessage p)) r

/-- The candidate role, with every vote forgotten. -/
def takeCandidacy : Raft :=
  { r with
    preVoting := false
    role := .candidate
    leader := 0
    electionElapsed := 0
    peers := r.peers.map fun p => { p with votesGranted := false, votesDenied := false } }

/-- Start a real election: a new term, a vote for this node, and vote requests. -/
def forceCampaign : Outcome Raft := do
  let r₁ ← (r.takeCandidacy.setTermAndVote (r.term + 1) r.id).setSelf
    fun p => { p with votesGranted := true }
  if r₁.quorum = 1 then r₁.becomeLeader else pure r₁.requestVotes

/-- The pre-vote request: it carries the term this node would use. -/
def preVoteMessage (dest : NodeID) : Message :=
  { type := .preVote, fromID := r.id, toID := dest, term := r.term + 1,
    lastLogIndex := r.lastIndex, lastLogTerm := r.lastTerm }

/-- Send the requests of a pre-vote round. -/
def requestPreVotes : Outcome Raft :=
  (r.peers.map (·.id)).foldlM
    (fun r p => if p = r.id then pure r else r.send (r.preVoteMessage p)) r

/-- Set whether a pre-vote round is in progress. -/
def setPreVoting (b : Bool) : Raft := { r with preVoting := b }

/-- A pre-candidate has no leader and no pre-votes yet. -/
def takePreCandidacy : Raft :=
  { r with
    leader := 0
    electionElapsed := 0
    peers := r.peers.map fun p => { p with preGranted := false } }

/-- Ask whether a campaign would succeed, without touching the term or the vote. -/
def preCampaign : Outcome Raft := do
  let r₁ ← (r.setPreVoting true).takePreCandidacy.setSelf fun p => { p with preGranted := true }
  if r₁.quorum = 1 then (r₁.setPreVoting false).forceCampaign else r₁.requestPreVotes

def campaign : Outcome Raft := if r.preVote then r.preCampaign else r.forceCampaign

/-! ### Commitment -/

/-- A leader stands down once its own removal is committed. -/
def stepDownIfRemoved : Raft :=
  if r.role ≠ .leader ∨ r.conf.isVoter r.id then r
  else if r.lastConfIndex ≠ 0 ∧ r.commitIndex < r.lastConfIndex then r
  else { r.becomeFollower r.term r.vote with leader := 0 }

def setCommit (i : ℕ) : Raft := { r with commitIndex := i }

/-- Scan downwards from `n` for the highest current-term index a quorum of voters holds. -/
def commitScan : ℕ → Raft
  | 0 => r
  | n + 1 =>
    if n + 1 ≤ r.commitIndex then r
    else if r.termAt (n + 1) ≠ r.term then commitScan n
    else if r.quorum ≤ r.countVoters (fun p => n + 1 ≤ p.matchIndex) then
      (r.setCommit (n + 1)).stepDownIfRemoved
    else commitScan n

/-- Advance the commit index by counting matches of current-term entries. -/
def maybeCommit : Raft := r.commitScan r.lastIndex

/-! ### Reads -/

/-- The lowest index a read served now may reflect. -/
def readFloor : ℕ := if r.commitIndex < r.termStart then r.termStart else r.commitIndex

/-- A quorum of voters has acknowledged the request. -/
def readConfirmed (q : ReadReq) : Bool :=
  r.quorum ≤ q.acks.countP fun n => r.conf.isVoter n

/-- The answer to a forwarded read. -/
def readIndexRespMessage (q : ReadReq) : Message :=
  { type := .readIndexResp, fromID := r.id, toID := q.fromID, term := r.term,
    readCtx := q.ctx, readIndex := q.index }

/-- Queue a confirmed read for the next drain. -/
def readReady (s : ReadState) : Raft := { r with readyReads := r.readyReads ++ [s] }

/-- Answer a confirmed request: locally, or to the follower that forwarded it. -/
def answerRead (q : ReadReq) : Raft :=
  if q.fromID = 0 then r.readReady { index := q.index, ctx := q.ctx }
  else r.sendGated (r.readIndexRespMessage q)

def setReads (qs : List ReadReq) : Raft := { r with pendingReads := qs }

/-- Promote every request a quorum has acknowledged. -/
def maybeConfirmReads : Raft :=
  ((r.pendingReads.filter r.readConfirmed).foldl answerRead r).setReads
    (r.pendingReads.filter fun q => !r.readConfirmed q)

/-- File a request, acknowledged by this node itself. -/
def recordRead (q : ReadReq) : Raft :=
  (r.setReads (r.pendingReads ++ [{ q with acks := [r.id] }])).maybeConfirmReads

/-- Record a peer's acknowledgement for the requests of the current term. -/
def confirmRead (peer : NodeID) : Raft :=
  (r.setReads ((r.pendingReads.filter (·.term = r.term)).map (·.addAck peer))).maybeConfirmReads

/-! ### Message handlers -/

def resetElection : Raft := { r with electionElapsed := 0 }

def voteRespMessage (m : Message) (grant : Bool) : Message :=
  { type := .voteResp, fromID := r.id, toID := m.fromID, term := r.term, granted := grant }

/-- The vote goes to one candidate a term, and only to one whose log is up to date. -/
def grants (m : Message) : Bool :=
  r.term ≤ m.term && (r.vote = 0 || r.vote = m.fromID) &&
    r.logIsUpToDate m.lastLogIndex m.lastLogTerm

def stepVote (m : Message) : Raft :=
  if r.grants m then (r.setVote m.fromID).resetElection.sendGated (r.voteRespMessage m true)
  else r.sendGated (r.voteRespMessage m false)

/-- Count a vote or a refusal. -/
def tally (m : Message) : Raft :=
  r.withPeer m.fromID fun p =>
    if m.granted then { p with votesGranted := true } else { p with votesDenied := true }

/-- Decide the election once a majority has answered the same way. -/
def settle : Outcome Raft :=
  if r.quorum ≤ r.countVoters (·.votesGranted) then r.becomeLeader
  else if r.quorum ≤ r.countVoters (·.votesDenied) then pure (r.becomeFollower r.term r.vote)
  else pure r

def stepVoteResp (m : Message) : Outcome Raft :=
  if r.role ≠ .candidate ∨ m.term ≠ r.term then pure r
  else if (r.peer? m.fromID).isNone then pure r
  else (r.tally m).settle

/-- Store one entry of an append: skip a duplicate, cut a conflict. -/
def storeEntry (e : Entry) : Outcome Raft :=
  if e.index ≤ r.lastIndex then
    if r.termAt e.index = e.term then pure r
    else do (← r.truncateFrom e.index).appendEntries [e]
  else r.appendEntries [e]

/-- A failed append response. -/
def rejectMessage (m : Message) (hint : ℕ) : Message :=
  { type := .appResp, fromID := r.id, toID := m.fromID, term := r.term, success := false,
    hint := hint }

/-- A successful append response up to `idx`. -/
def ackMessage (m : Message) (idx : ℕ) : Message :=
  { type := .appResp, fromID := r.id, toID := m.fromID, term := r.term, success := true,
    matchIndex := idx }

/-- Acknowledge the log up to `idx`, gated on the marks that cover it. -/
def acknowledge (m : Message) (idx : ℕ) : Outcome Raft := do
  let (lm, sm) ← r.marksFor idx
  pure (r.sendGatedOn lm sm (r.ackMessage m idx))

/-- A message of the current term from its leader settles the election. -/
def followLeader (m : Message) : Raft :=
  { (r.becomeFollower m.term r.vote).resetElection with leader := m.fromID }

def stepApp (m : Message) : Outcome Raft :=
  if m.term < r.term then pure (r.sendGated (r.rejectMessage m 0))
  else
    let r := r.followLeader m
    if !r.matchesLog m.prevLogIndex m.prevLogTerm then
      pure (r.sendGated (r.rejectMessage m r.lastIndex))
    else do
      let r ← m.entries.foldlM storeEntry r
      let last := m.prevLogIndex + m.entries.length
      let r := if r.commitIndex < m.leaderCommit then r.setCommit (min m.leaderCommit last) else r
      r.acknowledge m last

def timeoutNowMessage (dest : NodeID) : Message :=
  { type := .timeoutNow, fromID := r.id, toID := dest, term := r.term }

/-- The next index after a rejected append: the hint, or one step back. -/
def backUp (next hint : ℕ) : ℕ :=
  let n := if hint + 1 < next then hint + 1 else if 1 < next then next - 1 else next
  if n < 1 then 1 else n

/-- A peer's progress after an acknowledgement up to `mi`. -/
def advanced (mi : ℕ) (p : Peer) : Peer :=
  { p with matchIndex := mi, nextIndex := if p.nextIndex < mi + 1 then mi + 1 else p.nextIndex }

/-- A transfer target that has caught up is told to campaign. -/
def nudgeTransferee (peer : NodeID) (mi : ℕ) : Outcome Raft :=
  if r.leadTransferee = peer ∧ r.lastIndex ≤ mi then r.send (r.timeoutNowMessage peer)
  else pure r

/-- Count an acknowledgement of a known peer. -/
def recordAck (m : Message) (p : Peer) : Outcome Raft := do
  let mi := if p.matchIndex < m.matchIndex then m.matchIndex else p.matchIndex
  let r ← (r.withPeer m.fromID (advanced mi)).nudgeTransferee m.fromID mi
  pure r.maybeCommit

def stepAppResp (m : Message) : Outcome Raft :=
  if r.role ≠ .leader ∨ m.term ≠ r.term then pure r
  else match r.peer? m.fromID with
    | none => pure r
    | some p =>
      if m.success then r.recordAck m p
      else (r.withPeer m.fromID fun p =>
        { p with nextIndex := backUp p.nextIndex m.hint }).sendAppend m.fromID

/-- The answer to a pre-vote echoes the proposed term. -/
def preVoteRespMessage (m : Message) (grant : Bool) : Message :=
  { type := .preVoteResp, fromID := r.id, toID := m.fromID, term := m.term, granted := grant }

def stepPreVote (m : Message) : Outcome Raft :=
  let grant : Bool := r.term < m.term &&
    !(r.leader ≠ 0 && r.electionElapsed < r.randomizedElectionTimeout) &&
    r.logIsUpToDate m.lastLogIndex m.lastLogTerm
  r.send (r.preVoteRespMessage m grant)

def stepPreVoteResp (m : Message) : Outcome Raft :=
  if !r.preVoting then pure r
  else if m.term ≠ r.term + 1 then pure r
  else if (r.peer? m.fromID).isNone ∨ !m.granted then pure r
  else
    let r := r.withPeer m.fromID fun p => { p with preGranted := true }
    if r.quorum ≤ r.countVoters (·.preGranted) then (r.setPreVoting false).forceCampaign
    else pure r

def stepTimeoutNow (m : Message) : Outcome Raft :=
  if m.term < r.term ∨ r.role = .leader then pure r else r.forceCampaign

/-- A withheld success response, which a replaced log turns into a lie. -/
def isAck (g : GatedMessage) : Bool := g.msg.type = .appResp && g.msg.success

/-- Drop the withheld success responses. -/
def dropAcks : Raft := { r with gated := r.gated.filter fun g => !isAck g }

/-- Put the log on top of a snapshot that replaces it. -/
def replaceLog (m : Message) : Raft :=
  { r with
    snapIndex := m.snapIndex
    snapTerm := m.snapTerm
    commitIndex := m.snapIndex
    appliedIdx := m.snapIndex
    tail := { persisted := m.snapIndex, handed := m.snapIndex }
    markLastIdx := m.snapIndex }

/-- Open the durability point of a snapshot install and queue it for the driver. -/
def openSnapMark (snap : Snapshot) : Raft :=
  { r with
    nextSnapMark := r.nextSnapMark + 1
    snapMark := r.nextSnapMark + 1
    pendingSnap := some snap }

/-- Replace the log by a snapshot. -/
def installSnapshot (m : Message) (conf : Configuration) : Raft :=
  (recomputeConf { r with log := [], baseConf := conf } |>.replaceLog m).dirty.openSnapMark
    { index := m.snapIndex, term := m.snapTerm, data := m.snapData, conf := conf }

def stepSnap (m : Message) : Outcome Raft :=
  if m.term < r.term then pure (r.sendGated (r.rejectMessage m 0))
  else
    let r := r.followLeader m
    if m.snapIndex ≤ r.commitIndex then r.acknowledge m r.lastIndex
    else
      let r := r.dropAcks
      match decodeConfiguration m.snapConf with
      | none => pure (r.sendGated (r.rejectMessage m 0))
      | some conf =>
        let r := r.installSnapshot m conf
        pure (r.sendGatedOn r.dirtyMark r.snapMark (r.ackMessage m m.snapIndex))

/-- Demote on a higher term; the pre-vote types carry a term nobody adopts. -/
def observeTerm (m : Message) : Raft :=
  if r.term < m.term ∧ m.type ≠ .preVote ∧ m.type ≠ .preVoteResp then r.becomeFollower m.term 0
  else r

/-- The type-specific part of `Step`. -/
def dispatch (m : Message) : Outcome Raft :=
  match m.type with
  | .vote => pure (r.stepVote m)
  | .voteResp => r.stepVoteResp m
  | .app => r.stepApp m
  | .appResp => do
    let r ← r.stepAppResp m
    pure (if r.role = .leader ∧ m.success then r.confirmRead m.fromID else r)
  | .readIndex =>
    let q : ReadReq :=
      { index := r.readFloor, term := r.term, ctx := m.readCtx, fromID := m.fromID }
    if r.role = .leader then (r.recordRead q).broadcastAppend else pure r
  | .readIndexResp =>
    pure (r.readReady { index := m.readIndex, ctx := m.readCtx })
  | .preVote => r.stepPreVote m
  | .preVoteResp => r.stepPreVoteResp m
  | .snap => r.stepSnap m
  | .timeoutNow => r.stepTimeoutNow m

end Raft

end Rift
