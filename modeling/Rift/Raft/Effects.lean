import Mathlib.Logic.Relation
import Rift.Lib.Runs
import Rift.Raft.Calls

/-!
# What a call can do

Every call of a node is a sequence of the elementary effects collected in `Micro`. An
invariant of a node is proved once for each effect instead of once for each handler; the
handlers are analysed here and nowhere else.

Bookkeeping that no safety argument reads (timers, the known leader, the next index of a
peer, denied votes, a transfer in progress, snapshot targets) is *soft*: `Raft.erase`
forgets it, and `Soft` relates two states that differ in nothing else.
-/

namespace Rift

open List

/-- Forget the soft part of a peer. -/
def Peer.hard (p : Peer) : Peer :=
  { p with nextIndex := 0, votesDenied := false, preGranted := false }

namespace Raft

/-- Forget the soft part of a node. -/
def erase (r : Raft) : Raft :=
  { r with
    peers := r.peers.map Peer.hard
    confRefusal := none
    leader := 0
    leadTransferee := 0
    transferElapsed := 0
    snapTo := []
    electionElapsed := 0
    heartbeatElapsed := 0
    randomizedElectionTimeout := 0 }

/-- Two states that differ in soft bookkeeping only. -/
def Soft (r r' : Raft) : Prop := r'.erase = r.erase

/-- A new term observed in a message. -/
def bumped (r : Raft) (t : ℕ) : Raft := (r.setTermAndVote t 0).demoted

/-- The start of a real election, before any vote request is sent. -/
def campaigned (r : Raft) : Raft :=
  (r.takeCandidacy.setTermAndVote (r.term + 1) r.id).withPeer r.id
    fun p => { p with votesGranted := true }

/-- The start of a leadership, before the no-op is appended. -/
def led (r : Raft) : Raft :=
  (r.takeLead.withPeer r.id fun p => { p with matchIndex := r.tail.persisted }).startTerm
    (r.lastIndex + 1)

/-- The log with one more entry. -/
def pushEntry (r : Raft) (e : Entry) : Raft := { r with log := r.log ++ [e] }

/-- The log with one more entry, its configuration in effect and the change marked dirty. -/
def extend (r : Raft) (e : Entry) : Raft :=
  if e.type = .confChange then (r.pushEntry e).recomputeConf.dirty else (r.pushEntry e).dirty

/-- A message released at once. -/
def emit (r : Raft) (m : Message) : Raft := { r with msgs := r.msgs ++ [m] }

/-- The entries an append with next index `next` carries. -/
def suffix (r : Raft) (next : ℕ) : List Entry :=
  if next ≤ r.lastIndex then r.log.drop (next - r.snapIndex - 1) else []

/-- The commit index an append leaves behind. -/
def commitUpTo (r : Raft) (leaderCommit last : ℕ) : Raft :=
  if r.commitIndex < leaderCommit then r.setCommit (min leaderCommit last) else r

/-- A campaign of this node cannot elect it on a majority it does not belong to. -/
def CanCampaign (r : Raft) : Prop := r.conf.isVoter r.id ∨ r.quorum ≠ 1

/-- The calls that may start an election: a campaign that is asked for, an election timer that is due,
and an answer to a pre-vote round that is open. -/
def Elects (r : Raft) : Call → Prop
  | .campaign => True
  | .tick => r.randomizedElectionTimeout ≤ r.electionElapsed + 1 ∧ r.conf.isVoter r.id
  | .step m => m.type = .timeoutNow ∨ m.type = .preVoteResp ∧ r.preVoting
  | _ => False

/-- Forget the term, the role, the open mark and the soft part of a node, and what it withholds. -/
def steady (r : Raft) : Raft :=
  { r.erase with
    term := 0, vote := 0, role := .follower, preVoting := false, hardStateDirty := false
    nextMark := 0, dirtyMark := 0, markHandedOff := false, gated := [] }

/-- Two states that agree on the log, the configuration and everything else a change of term or
role leaves alone. -/
def Steady (o r : Raft) : Prop := r.steady = o.steady

/-- What the code leaves to the caller: the calls on which the safety of a cluster needs more
than the code checks.

A campaign of a learner is decided by the size of the quorum alone; a configuration change may
be appended before an entry of the leader's own term is committed; a snapshot below the commit
index acknowledges the whole log, and an installed one drops a log that already holds it. -/
def Sound (r : Raft) : Call → Prop
  | .campaign => r.CanCampaign
  | .proposeConfChange _ _ => r.termStart ≤ r.commitIndex
  | .step m =>
    match m.type with
    | .timeoutNow | .preVoteResp => r.CanCampaign
    | .snap =>
      (m.snapIndex ≤ r.commitIndex → r.lastIndex ≤ r.commitIndex ∨ r.lastTerm = m.term) ∧
      (r.commitIndex < m.snapIndex → r.matchesLog m.snapIndex m.snapTerm →
        r.lastIndex ≤ m.snapIndex)
    | _ => True
  | _ => True

/-- The messages that reveal the term and promise nothing else of this node's state, except a
vote request, which promises a vote for the sender. -/
inductive Reveals (c : Call) (r : Raft) : Message → Prop
  | vote (dest) (h : r.role = .candidate) (hv : r.vote = r.id) : Reveals c r (r.voteMessage dest)
  | refuse (m) : Reveals c r (r.voteRespMessage m false)
  | app (dest next) (h : r.role = .leader) (hn : r.snapIndex < next) :
    Reveals c r (r.appendMessage dest next (r.suffix next))
  | reject (m hint) : Reveals c r (r.rejectMessage m hint)
  | readIndex (ctx) (hc : c = .readIndex ctx) : Reveals c r (r.readIndexMessage ctx)
  | readIndexResp (q) (hq : q ∈ r.pendingReads) (hc : r.readConfirmed q) (hf : q.fromID ≠ 0) :
    Reveals c r (r.readIndexRespMessage q)

/-- The messages that attest to no persistent state. -/
inductive Ungated (r : Raft) : Message → Prop
  | preVote (dest) : Ungated r (r.preVoteMessage dest)
  | preVoteResp (m grant) : Ungated r (r.preVoteRespMessage m grant)
  | timeoutNow (dest) : Ungated r (r.timeoutNowMessage dest)

end Raft

open Raft

/-- The calls that append an entry of the caller. -/
def Call.proposes : Call → Bool
  | .propose _ _ | .proposeConfChange _ _ => true
  | _ => false

/-- One elementary effect of the call `c` on a node that was in state `o` when it was called. An
effect on the log itself happens while the node is still as it was called, its term, its role and
its open mark apart. -/
inductive Micro (c : Call) (o : Raft) : Raft → Raft → Prop
  | soft {r r'} (h : Soft r r') : Micro c o r r'
  | demote (r) : Micro c o r r.demoted
  | bump (r m) (hc : c = .step m) (h : r.term < m.term)
      (ht : m.type ≠ .preVote ∧ m.type ≠ .preVoteResp) : Micro c o r (r.bumped m.term)
  | preAsk (r) (h : r.quorum ≠ 1) (he : o.Elects c) : Micro c o r (r.setPreVoting true)
  | preEnd (r) : Micro c o r (r.setPreVoting false)
  | campaign (r) (h : (r.peer? r.id).isSome) (hs : o.Sound c → r.CanCampaign) (he : o.Elects c) :
    Micro c o r r.campaigned
  | grant (r m) (hc : c = .step m) (ht : m.type = .vote) (hterm : m.term = r.term)
      (hv : r.vote = 0 ∨ r.vote = m.fromID)
      (hl : r.logIsUpToDate m.lastLogIndex m.lastLogTerm) :
    Micro c o r ((r.setVote m.fromID).resetElection.sendGated (r.voteRespMessage m true))
  | reveal (r msg) (h : Reveals c r msg) : Micro c o r (r.sendGated msg)
  | ungated (r msg) (h : Ungated r msg) : Micro c o r (r.emit msg)
  | count (r m) (hc : c = .step m) (ht : m.type = .voteResp) (hg : m.granted)
      (hr : r.role = .candidate) (hterm : m.term = r.term) :
    Micro c o r (r.withPeer m.fromID fun p => { p with votesGranted := true })
  | lead (r) (hr : r.role = .candidate) (hp : (r.peer? r.id).isSome)
      (hq : o.Sound c → r.quorum ≤ r.countVoters (·.votesGranted)) :
    Micro c o r r.led
  | append (r e) (hr : r.role = .leader) (ht : e.term = r.term) (hi : e.index = r.lastIndex + 1)
      (hc : e.type = .confChange → (∃ id cc, c = .proposeConfChange id cc) ∧
        r.lastConfIndex ≤ r.commitIndex ∧ (o.Sound c → r.termStart ≤ r.commitIndex))
      (hid : e = r.noop ∨ c.proposes) :
    Micro c o r (r.extend e)
  | accept (r r₁ r' m) (h₀ : Steady o r) (hc : c = .step m) (ht : m.type = .app)
      (hterm : m.term = r.term)
      (hr : r.role = .follower) (hm : r.matchesLog m.prevLogIndex m.prevLogTerm)
      (hs : m.entries.foldlM storeEntry r = .ok r₁)
      (ha : (r₁.commitUpTo m.leaderCommit (m.prevLogIndex + m.entries.length)).acknowledge m
        (m.prevLogIndex + m.entries.length) = .ok r') :
    Micro c o r r'
  | progress (r m p) (hc : c = .step m) (ht : m.type = .appResp) (hs : m.success)
      (hr : r.role = .leader) (hterm : m.term = r.term) (hp : r.peer? m.fromID = some p) :
    Micro c o r (r.withPeer m.fromID
      (advanced (if p.matchIndex < m.matchIndex then m.matchIndex else p.matchIndex)))
  | selfMatch (r p) (hr : r.role = .leader) (hp : r.peer? r.id = some p)
      (hlt : p.matchIndex < r.tail.persisted) :
    Micro c o r (r.withPeer r.id fun p => { p with matchIndex := r.tail.persisted })
  | commit (r n) (hr : r.role = .leader) (hlt : r.commitIndex < n) (hle : n ≤ r.lastIndex)
      (ht : r.termAt n = r.term)
      (hq : r.quorum ≤ r.countVoters (fun p => n ≤ p.matchIndex)) :
    Micro c o r (r.setCommit n)
  | covered (r r' m) (h₀ : Steady o r) (hc : c = .step m) (ht : m.type = .snap)
      (hterm : m.term = r.term)
      (hr : r.role = .follower) (hle : m.snapIndex ≤ r.commitIndex)
      (hs : o.Sound c → r.lastIndex ≤ r.commitIndex ∨ r.lastTerm = r.term)
      (ha : r.acknowledge m r.lastIndex = .ok r') :
    Micro c o r r'
  | dropAcks (r) : Micro c o r r.dropAcks
  | install (r r' m conf) (h₀ : Steady o r) (hc : c = .step m) (ht : m.type = .snap)
      (hterm : m.term = r.term)
      (hr : r.role = .follower) (hlt : r.commitIndex < m.snapIndex)
      (hg : ∀ g ∈ r.gated, isAck g = false)
      (hs : o.Sound c → r.matchesLog m.snapIndex m.snapTerm → r.lastIndex ≤ m.snapIndex)
      (hd : decodeConfiguration m.snapConf = some conf) (hr' : r' = r.installSnapshot m conf) :
    Micro c o r (r'.sendGatedOn r'.dirtyMark r'.snapMark (r'.ackMessage m m.snapIndex))
  | recordReq (r q) (hr : r.role = .leader) (hx : q.index = r.readFloor) (ht : q.term = r.term)
      (ha : q.acks = [r.id])
      (hf : (c = .readIndex q.ctx ∧ q.fromID = 0) ∨ ∃ m, c = .step m ∧ m.type = .readIndex ∧
        q.fromID = m.fromID ∧ q.ctx = m.readCtx) :
    Micro c o r (r.setReads (r.pendingReads ++ [q]))
  | ackReads (r m) (hc : c = .step m) (ht : m.type = .appResp) (hs : m.success)
      (hr : r.role = .leader) :
    Micro c o r
      (r.setReads ((r.pendingReads.filter (·.term = r.term)).map (·.addAck m.fromID)))
  | answer (r q) (hq : q ∈ r.pendingReads) (hc : r.readConfirmed q) (hf : q.fromID = 0) :
    Micro c o r (r.readReady { index := q.index, ctx := q.ctx })
  | dropReads (r kept) (h : kept.Sublist r.pendingReads) : Micro c o r (r.setReads kept)
  | readResp (r m) (hc : c = .step m) (ht : m.type = .readIndexResp) :
    Micro c o r (r.readReady { index := m.readIndex, ctx := m.readCtx })
  | ackApplied (r i) (hc : c = .ackApplied i) : Micro c o r (r.ackApplied i)

/-- A sequence of effects. -/
abbrev Micros (c : Call) (o : Raft) : Raft → Raft → Prop :=
  Relation.ReflTransGen (Micro c o)

namespace Raft

variable {r r' o r₁ : Raft} {c : Call} {res : Except CallError Raft} {m : Message} {β α : Type}
  {id : ProposalID} {data : Bytes} {cc : ConfChangeV2} {e : Entry} {dest : NodeID}

/-! ### Explicit forms of the helpers -/

theorem pure_eq_ok {a b : α} : (pure a : Outcome α) = .ok b ↔ a = b :=
  ⟨fun h => by injection h, fun h => h ▸ rfl⟩

theorem Soft.refl (r : Raft) : Soft r r := rfl

theorem Soft.micros (h : Soft r r') : Micros c o r r' := .single (.soft h)

theorem micros_of_soft (h : Micros c o r₁ r') (hs : Soft r r₁) : Micros c o r r' :=
  .head (.soft hs) h

theorem Soft.proj (h : Soft r r') (f : Raft → β) (hf : ∀ r, f r.erase = f r) : f r' = f r := by
  rw [← hf r', ← hf r, h]

theorem Steady.trans (h₁ : Steady o r) (h₂ : Steady r r₁) : Steady o r₁ :=
  Eq.trans h₂ h₁

/-- A projection that does not read what a change of term or role touches is unchanged. -/
theorem Steady.proj (h : Steady o r) (f : Raft → β) (hf : ∀ r, f r.steady = f r) : f r = f o := by
  rw [← hf r, ← hf o, h]

theorem Sound.of_steady (h : Steady o r) (hs : o.Sound c) : r.Sound c := by
  have hiff := h.proj (fun r => r.Sound c) fun r => by cases c <;> rfl
  exact hiff ▸ hs

theorem suffixFrom_eq {next : ℕ} (h : r.snapIndex < next) (hle : next ≤ r.lastIndex) :
    r.suffixFrom next = .ok (r.suffix next) := by
  unfold suffix suffixFrom
  rw [if_neg (Nat.not_le.mpr h), if_neg (Nat.not_lt.mpr hle), if_pos hle]
  rfl

theorem appendEntries_singleton (r : Raft) (e : Entry) :
    r.appendEntries [e] =
      if e.index = r.lastIndex + 1 then .ok (r.extend e) else .error .appendGap := by
  by_cases h : e.index = r.lastIndex + 1
  · rw [if_pos h]
    simp only [appendEntries, foldlM_cons, foldlM_nil, h, ne_eq, not_true, if_false,
      any_cons, any_nil, Bool.or_false, decide_eq_true_eq, extend, ← apply_ite dirty]
    rfl
  · rw [if_neg h]
    simp only [appendEntries, foldlM_cons, ne_eq, h, not_false_eq_true, if_true]
    rfl

theorem appendEntries_next (h : e.index = r.lastIndex + 1) :
    r.appendEntries [e] = .ok (r.extend e) := by
  rw [appendEntries_singleton, if_pos h]

theorem truncateFrom_cases {i : ℕ} (h : r.truncateFrom i = .ok r') :
    ((i < 1 ∨ r.lastIndex < i) ∧ r' = r) ∨
      (1 ≤ i ∧ i ≤ r.lastIndex ∧ r.commitIndex < i ∧ r.snapIndex < i ∧ r' = r.cutFrom i) := by
  unfold truncateFrom at h
  split_ifs at h with h₁ h₂ h₃
  · exact .inl ⟨h₁, (pure_eq_ok.mp h).symm⟩
  · push Not at h₁ h₂ h₃
    exact .inr ⟨h₁.1, h₁.2, h₂, h₃, (pure_eq_ok.mp h).symm⟩

/-- What storing one entry of an append does: it skips a duplicate, replaces a conflicting
suffix, or extends the log. -/
theorem storeEntry_cases (h : r.storeEntry e = .ok r') :
    (e.index ≤ r.lastIndex ∧ r.termAt e.index = e.term ∧ r' = r) ∨
      (e.index ≤ r.lastIndex ∧ r.termAt e.index ≠ e.term ∧ r.commitIndex < e.index ∧
        r.snapIndex < e.index ∧ r' = (r.cutFrom e.index).extend e) ∨
      (e.index = r.lastIndex + 1 ∧ r' = r.extend e) := by
  have happ : ∀ {r₁ : Raft}, r₁.appendEntries [e] = .ok r' →
      e.index = r₁.lastIndex + 1 ∧ r' = r₁.extend e := by
    intro r₁ h
    rw [appendEntries_singleton] at h
    split_ifs at h with hi
    exact ⟨hi, (pure_eq_ok.mp h).symm⟩
  unfold storeEntry at h
  split_ifs at h with hle ht
  · exact .inl ⟨hle, ht, (pure_eq_ok.mp h).symm⟩
  · obtain ⟨r₁, h₁, h⟩ := bind_eq_ok.mp h
    obtain ⟨hi, rfl⟩ := happ h
    rcases truncateFrom_cases h₁ with ⟨-, rfl⟩ | ⟨-, -, hc, hs, rfl⟩
    · omega
    · exact .inr (.inl ⟨hle, ht, hc, hs, rfl⟩)
  · exact .inr (.inr (happ h))

theorem map_hard_modifyPeer (id : NodeID) (f : Peer → Peer) (hf : ∀ p, (f p).hard = p.hard)
    (ps : List Peer) : (modifyPeer id f ps).map Peer.hard = ps.map Peer.hard := by
  induction ps with
  | nil => rfl
  | cons p ps ih =>
    unfold modifyPeer
    split
    · simp [hf]
    · simp [ih]

/-- Soft bookkeeping of peers: it is enough that the hard parts of the peers agree. -/
theorem Soft.of_peers (h : Soft r { r' with peers := r.peers })
    (hp : r'.peers.map Peer.hard = r.peers.map Peer.hard) : Soft r r' := by
  unfold Soft erase at h ⊢
  rw [hp]
  exact h

theorem withPeer_soft (r : Raft) (id : NodeID) (f : Peer → Peer)
    (hf : ∀ p, (f p).hard = p.hard) : Soft r (r.withPeer id f) :=
  .of_peers rfl (map_hard_modifyPeer id f hf r.peers)

theorem sendSnapshot_soft (r : Raft) (dest : NodeID) : Soft r (r.sendSnapshot dest) := by
  unfold sendSnapshot
  split
  · exact Soft.refl r
  · exact .of_peers rfl (map_hard_modifyPeer dest _ (fun p => by rfl) r.peers)

theorem sendGatedOn_eq (r : Raft) (mark snapMark : ℕ) (m : Message) :
    ∃ ms gs, r.sendGatedOn mark snapMark m = { r with msgs := ms, gated := gs } := by
  unfold sendGatedOn
  split
  · exact ⟨_, r.gated, rfl⟩
  · exact ⟨r.msgs, _, rfl⟩

theorem sendGatedOn_proj (r : Raft) (mark snapMark : ℕ) (m : Message) (f : Raft → β)
    (hf : ∀ (r : Raft) ms gs, f { r with msgs := ms, gated := gs } = f r) :
    f (r.sendGatedOn mark snapMark m) = f r := by
  obtain ⟨ms, gs, h⟩ := r.sendGatedOn_eq mark snapMark m
  rw [h, hf]

theorem sendGated_proj (r : Raft) (m : Message) (f : Raft → β)
    (hf : ∀ (r : Raft) ms gs, f { r with msgs := ms, gated := gs } = f r) :
    f (r.sendGated m) = f r :=
  r.sendGatedOn_proj 0 0 m f hf

theorem dirty_eq (r : Raft) : ∃ nm dm, dm ≠ 0 ∧
    r.dirty = { r with nextMark := nm, dirtyMark := dm, markHandedOff := false } := by
  unfold dirty
  split_ifs with h
  · exact ⟨_, _, Nat.succ_ne_zero _, rfl⟩
  · push Not at h
    refine ⟨r.nextMark, r.dirtyMark, h.1, ?_⟩
    rw [← Bool.not_eq_true _ |>.mp h.2]

/-- An appended entry changes the log, the configuration and the open mark. -/
theorem extend_eq (r : Raft) (e : Entry) : ∃ conf peers refusal nm dm, dm ≠ 0 ∧
    r.extend e = { r with
      log := r.log ++ [e], conf := conf, peers := peers, confRefusal := refusal, nextMark := nm,
      dirtyMark := dm, markHandedOff := false } := by
  unfold extend
  split_ifs
  · obtain ⟨nm, dm, hne, h⟩ := (r.pushEntry e).recomputeConf.dirty_eq
    exact ⟨_, _, _, nm, dm, hne, h⟩
  · obtain ⟨nm, dm, hne, h⟩ := (r.pushEntry e).dirty_eq
    exact ⟨_, _, _, nm, dm, hne, h⟩

theorem cutFrom_eq (r : Raft) (i : ℕ) : ∃ conf peers refusal, r.cutFrom i =
    { r with
      log := r.log.take (i - r.snapIndex - 1)
      tail :=
        { persisted := if i ≤ r.tail.persisted then i - 1 else r.tail.persisted
          handed := if i ≤ r.tail.handed then i - 1 else r.tail.handed }
      markLastIdx := if i ≤ r.markLastIdx then i - 1 else r.markLastIdx
      gated := r.gated.filter fun g => !attestsFrom i g
      conf := conf, peers := peers, confRefusal := refusal } :=
  ⟨_, _, _, rfl⟩

/-- An installed snapshot replaces the log and opens a mark on either stream. -/
theorem installSnapshot_eq (r : Raft) (m : Message) (conf : Configuration) :
    ∃ peers refusal nm dm, dm ≠ 0 ∧ r.installSnapshot m conf =
    { r with
      log := [], snapIndex := m.snapIndex, snapTerm := m.snapTerm, commitIndex := m.snapIndex
      appliedIdx := m.snapIndex, tail := { persisted := m.snapIndex, handed := m.snapIndex }
      markLastIdx := m.snapIndex, baseConf := conf, conf := conf, peers := peers
      confRefusal := refusal, nextMark := nm, dirtyMark := dm, markHandedOff := false
      nextSnapMark := r.nextSnapMark + 1, snapMark := r.nextSnapMark + 1
      pendingSnap := some
        { index := m.snapIndex, term := m.snapTerm, data := m.snapData, conf := conf } } := by
  obtain ⟨nm, dm, hne, h⟩ :=
    (recomputeConf { r with log := [], baseConf := conf } |>.replaceLog m).dirty_eq
  unfold installSnapshot
  rw [h]
  exact ⟨_, _, nm, dm, hne, rfl⟩

theorem send_eq (h : r.send m = .ok r') : r' = r.emit m := by
  unfold send at h
  split at h
  all_goals first
    | exact (pure_eq_ok.mp h).symm
    | cases h

/-! ### Folds -/

theorem foldlM_inv {P : α → Prop} {f : α → β → Outcome α} {bs : List β} {a a' : α}
    (hf : ∀ a, ∀ b ∈ bs, ∀ a', P a → f a b = .ok a' → P a') (hp : P a)
    (h : bs.foldlM f a = .ok a') : P a' := by
  induction bs generalizing a with
  | nil =>
    cases h
    exact hp
  | cons b bs ih =>
    rw [foldlM_cons] at h
    obtain ⟨a₁, hb, h⟩ := bind_eq_ok.mp h
    exact ih (fun a b' hb' => hf a b' (mem_cons_of_mem _ hb'))
      (hf a b mem_cons_self a₁ hp hb) h

/-- A fold of effects that keep a property is a sequence of effects. -/
theorem foldlM_micros (P : Raft → Prop) (f : Raft → β → Outcome Raft)
    (hf : ∀ r b r', P r → f r b = .ok r' → Micros c o r r' ∧ P r') (bs : List β) (hp : P r)
    (h : bs.foldlM f r = .ok r') : Micros c o r r' ∧ P r' := by
  refine foldlM_inv (P := fun r' => Micros c o r r' ∧ P r') ?_ ⟨.refl, hp⟩ h
  rintro r₁ b - r₂ ⟨hm, hp⟩ h
  obtain ⟨hm', hp'⟩ := hf r₁ b r₂ hp h
  exact ⟨hm.trans hm', hp'⟩

theorem foldl_micros (P : Raft → Prop) (f : Raft → β → Raft) (bs : List β)
    (hf : ∀ r, ∀ b ∈ bs, P r → Micros c o r (f r b) ∧ P (f r b)) (hp : P r) :
    Micros c o r (bs.foldl f r) ∧ P (bs.foldl f r) := by
  induction bs generalizing r with
  | nil => exact ⟨.refl, hp⟩
  | cons b bs ih =>
    obtain ⟨h₁, hp₁⟩ := hf r b (by simp) hp
    obtain ⟨h₂, hp₂⟩ := ih (fun r b' hb' => hf r b' (by simp [hb'])) hp₁
    exact ⟨h₁.trans h₂, hp₂⟩

/-! ### Replication -/

theorem sendAppend_cases (hr : r.role = .leader) (h : r.sendAppend dest = .ok r') :
    Soft r r' ∨ ∃ msg, Reveals c r msg ∧ r' = r.sendGated msg := by
  unfold sendAppend at h
  split at h
  · exact .inl (pure_eq_ok.mp h ▸ Soft.refl r)
  · rename_i p hp
    dsimp only at h
    generalize (if p.nextIndex < 1 then 1 else p.nextIndex) = next at h
    split_ifs at h with hs hl
    · exact .inl (pure_eq_ok.mp h ▸ sendSnapshot_soft r dest)
    · rw [suffixFrom_eq (Nat.not_le.mp hs) hl] at h
      exact .inr ⟨_, .app dest next hr (Nat.not_le.mp hs), (pure_eq_ok.mp h).symm⟩
    · have hsuf : r.suffix next = [] := if_neg hl
      refine .inr ⟨_, .app dest next hr (Nat.not_le.mp hs), ?_⟩
      rw [hsuf, ← pure_eq_ok.mp h]

theorem sendAppend_micros (hr : r.role = .leader) (h : r.sendAppend dest = .ok r') :
    Micros c o r r' ∧ r'.role = .leader := by
  rcases sendAppend_cases (c := c) hr h with hs | ⟨msg, hm, rfl⟩
  · exact ⟨hs.micros, (hs.proj Raft.role fun _ => rfl).trans hr⟩
  · exact ⟨.single (.reveal r msg hm), (r.sendGated_proj msg Raft.role fun _ _ _ => rfl).trans hr⟩

theorem broadcastAppend_micros (hr : r.role = .leader) (h : r.broadcastAppend = .ok r') :
    Micros c o r r' ∧ r'.role = .leader := by
  refine foldlM_micros (fun r => r.role = .leader) _ ?_ _ hr h
  intro r p r' hr h
  split at h
  · cases h
    exact ⟨.refl, hr⟩
  · exact sendAppend_micros hr h

/-! ### Roles and elections -/

theorem becomeFollower_eq {t : ℕ} (v : NodeID) (h : t ≤ r.term) :
    r.becomeFollower t v = r.demoted := by
  unfold becomeFollower
  rw [if_neg (Nat.not_lt.mpr h)]

theorem find?_map_isSome (f : Peer → Peer) (hf : ∀ p, (f p).id = p.id) (n : NodeID)
    (ps : List Peer) :
    ((ps.map f).find? (·.id = n)).isSome = (ps.find? (·.id = n)).isSome := by
  have hcomp : (fun p : Peer => decide (p.id = n)) ∘ f = fun p => decide (p.id = n) := by
    funext p
    simp [hf]
  rw [find?_map, Option.isSome_map, hcomp]

theorem setSelf_eq {f : Peer → Peer} (h : r.setSelf f = .ok r') :
    (r.peer? r.id).isSome ∧ r' = r.withPeer r.id f := by
  unfold setSelf at h
  split at h
  · exact ⟨‹_›, (pure_eq_ok.mp h).symm⟩
  · cases h

theorem extend_startTerm (he : e.type = .normal) (i : ℕ) :
    (r.extend e).startTerm i = (r.startTerm i).extend e := by
  unfold extend dirty pushEntry startTerm
  simp only [he, reduceCtorEq, if_false]
  split <;> rfl

theorem becomeLeader_micros (hr : r.role = .candidate)
    (hq : o.Sound c → r.quorum ≤ r.countVoters (·.votesGranted)) (h : r.becomeLeader = .ok r') :
    Micros c o r r' := by
  obtain ⟨r₁, hs, h⟩ := bind_eq_ok.mp h
  obtain ⟨hp, rfl⟩ := setSelf_eq hs
  obtain ⟨r₂, h₂, h⟩ := bind_eq_ok.mp h
  rw [appendEntries_next (by rfl)] at h₂
  cases h₂
  rw [extend_startTerm rfl] at h
  have hself : (r.peer? r.id).isSome := by
    rw [← hp]
    exact (find?_map_isSome _ (fun _ => by rfl) _ _).symm
  have hlead : Micro c o r r.led := .lead r hr hself hq
  have happ : Micro c o r.led (r.led.extend r.led.noop) :=
    .append r.led r.led.noop rfl rfl rfl (fun hc => absurd hc (by rintro ⟨⟩)) (.inl rfl)
  have hrole : (r.led.extend r.led.noop).role = .leader := by
    obtain ⟨_, _, _, _, _, -, hext⟩ := r.led.extend_eq r.led.noop
    rw [hext]
    rfl
  exact .head hlead (.head happ (broadcastAppend_micros hrole h).1)

theorem requestVotes_micros (hr : r.role = .candidate) (hv : r.vote = r.id) :
    Micros c o r r.requestVotes := by
  refine (foldl_micros (fun r => r.role = .candidate ∧ r.vote = r.id) _ _ ?_ ⟨hr, hv⟩).1
  rintro r p - ⟨hr, hv⟩
  split
  · exact ⟨.refl, hr, hv⟩
  · refine ⟨.single (.reveal r _ (.vote p hr hv)), ?_, ?_⟩
    · exact (r.sendGated_proj _ Raft.role fun _ _ _ => rfl).trans hr
    · rwa [r.sendGated_proj _ Raft.vote fun _ _ _ => rfl, r.sendGated_proj _ Raft.id fun _ _ _ => rfl]

theorem requestPreVotes_micros (h : r.requestPreVotes = .ok r') : Micros c o r r' := by
  refine (foldlM_micros (fun _ => True) _ ?_ _ trivial h).1
  intro r p r' _ h
  split at h
  · cases h
    exact ⟨.refl, trivial⟩
  · obtain rfl := send_eq h
    exact ⟨.single (.ungated r _ (.preVote p)), trivial⟩

theorem one_le_countVoters_withPeer (f : Peer → Peer) (g : Peer → Bool)
    (hf : ∀ p, (f p).id = p.id) (hg : ∀ p, g (f p)) (hp : (r.peer? r.id).isSome)
    (hv : r.conf.isVoter r.id) : 1 ≤ (r.withPeer r.id f).countVoters g := by
  suffices ∀ ps : List Peer, (ps.find? (·.id = r.id)).isSome →
      0 < (modifyPeer r.id f ps).countP fun p => g p && r.conf.isVoter p.id from this r.peers hp
  intro ps hps
  induction ps with
  | nil => simp at hps
  | cons p ps ih =>
    unfold modifyPeer
    split
    · rename_i hid
      simp [hg, hf, hid, hv]
    · rename_i hid
      rw [find?_cons_of_neg (by simpa using hid)] at hps
      have := ih hps
      rw [countP_cons]
      omega

theorem setTermAndVote_cases (r : Raft) (t : ℕ) (v : NodeID) :
    (r.term = t ∧ r.vote = v ∧ r.setTermAndVote t v = r) ∨ ∃ nm dm, dm ≠ 0 ∧ r.setTermAndVote t v =
      { r with
        term := t, vote := v, hardStateDirty := true, nextMark := nm, dirtyMark := dm,
        markHandedOff := false } := by
  unfold setTermAndVote
  split_ifs with h
  · obtain ⟨nm, dm, hne, h⟩ := dirty_eq { r with term := t, vote := v, hardStateDirty := true }
    exact .inr ⟨nm, dm, hne, h⟩
  · push Not at h
    exact .inl ⟨h.1, h.2, rfl⟩

theorem setTermAndVote_eq (r : Raft) (t : ℕ) (v : NodeID) :
    ∃ nm dm mh hd, r.setTermAndVote t v =
      { r with term := t, vote := v, hardStateDirty := hd, nextMark := nm, dirtyMark := dm,
               markHandedOff := mh } := by
  rcases r.setTermAndVote_cases t v with ⟨rfl, rfl, h⟩ | ⟨nm, dm, -, h⟩
  · exact ⟨_, _, _, _, h⟩
  · exact ⟨nm, dm, false, true, h⟩

theorem setVote_eq (r : Raft) (v : NodeID) : r.setVote v = r.setTermAndVote r.term v := by
  unfold setVote setTermAndVote
  by_cases h : r.vote ≠ v
  · rw [if_pos h, if_pos (.inr h)]
  · rw [if_neg h, if_neg (by simpa using h)]

/-- A change of term and vote leaves everything else but the open mark alone. -/
theorem setTermAndVote_proj (r : Raft) (t : ℕ) (v : NodeID) (f : Raft → β)
    (hf : ∀ (r : Raft) t v hd nm dm mh, f { r with
      term := t, vote := v, hardStateDirty := hd, nextMark := nm, dirtyMark := dm,
      markHandedOff := mh } = f r) : f (r.setTermAndVote t v) = f r := by
  obtain ⟨nm, dm, mh, hd, h⟩ := r.setTermAndVote_eq t v
  rw [h, hf]

theorem campaigned_peer_isSome (r : Raft) (t : ℕ) (v : NodeID) :
    ((r.takeCandidacy.setTermAndVote t v).peer? r.id).isSome = (r.peer? r.id).isSome := by
  unfold peer?
  rw [setTermAndVote_proj _ _ _ Raft.peers (by intros; rfl)]
  exact find?_map_isSome _ (fun _ => by rfl) _ _

theorem forceCampaign_micros (hs : o.Sound c → r.CanCampaign) (he : o.Elects c)
    (h : r.forceCampaign = .ok r') : Micros c o r r' := by
  obtain ⟨r₁, hset, h⟩ := bind_eq_ok.mp h
  obtain ⟨hp, rfl⟩ := setSelf_eq hset
  have hid : (r.takeCandidacy.setTermAndVote (r.term + 1) r.id).id = r.id :=
    setTermAndVote_proj _ _ _ Raft.id (by intros; rfl)
  have hconf : (r.takeCandidacy.setTermAndVote (r.term + 1) r.id).conf = r.conf :=
    setTermAndVote_proj _ _ _ Raft.conf (by intros; rfl)
  rw [hid] at h
  change (if r.campaigned.quorum = 1 then r.campaigned.becomeLeader
    else pure r.campaigned.requestVotes) = .ok r' at h
  have hcamp : Micro c o r r.campaigned :=
    .campaign r (by rw [hid] at hp; rwa [campaigned_peer_isSome] at hp) hs he
  have hrole : r.campaigned.role = .candidate :=
    setTermAndVote_proj _ _ _ Raft.role (by intros; rfl)
  split_ifs at h with hq
  · refine .head hcamp (becomeLeader_micros hrole (fun hsound => ?_) h)
    have hquorum : r.campaigned.quorum = r.quorum := by
      show (r.takeCandidacy.setTermAndVote (r.term + 1) r.id).conf.voters.length / 2 + 1 = _
      rw [hconf]
      rfl
    have hvoter : r.conf.isVoter r.id :=
      (hs hsound).resolve_right fun hne => hne (hquorum ▸ hq)
    have hone := one_le_countVoters_withPeer (fun p => { p with votesGranted := true })
      (·.votesGranted) (fun _ => rfl) (fun _ => rfl) hp (by rw [hid, hconf]; exact hvoter)
    rw [hid] at hone
    exact hq.trans_le hone
  · cases h
    refine .head hcamp (requestVotes_micros hrole ?_)
    obtain ⟨_, _, _, _, hst⟩ := r.takeCandidacy.setTermAndVote_eq (r.term + 1) r.id
    unfold campaigned
    rw [hst]
    rfl

theorem preCampaign_micros (hs : o.Sound c → r.CanCampaign) (he : o.Elects c)
    (h : r.preCampaign = .ok r') : Micros c o r r' := by
  obtain ⟨r₁, hset, h⟩ := bind_eq_ok.mp h
  obtain ⟨-, rfl⟩ := setSelf_eq hset
  have hsoft : ∀ r : Raft, Soft r
      (r.takePreCandidacy.withPeer r.id fun p => { p with preGranted := true }) := by
    intro r
    have h₁ : Soft r r.takePreCandidacy := .of_peers rfl (by
      unfold takePreCandidacy
      rw [map_map]
      rfl)
    exact (withPeer_soft r.takePreCandidacy r.id _ fun _ => by rfl).trans h₁
  split_ifs at h with hq
  · -- The round is over before it started: its only trace is a cleared flag.
    have hsoft' : Soft (r.setPreVoting false) (((r.setPreVoting true).takePreCandidacy.withPeer
        r.id fun p => { p with preGranted := true }).setPreVoting false) :=
      (hsoft (r.setPreVoting false) :)
    exact .head (.preEnd r) (.head (.soft hsoft') (forceCampaign_micros hs he h))
  · exact .head (.preAsk r hq he) (.head (.soft (hsoft _)) (requestPreVotes_micros h))

theorem campaign_micros (hs : o.Sound c → r.CanCampaign) (he : o.Elects c)
    (h : r.campaign = .ok r') : Micros c o r r' := by
  unfold campaign at h
  split at h
  · exact preCampaign_micros hs he h
  · exact forceCampaign_micros hs he h

/-! ### Commitment -/

theorem stepDownIfRemoved_micros (r : Raft) : Micros c o r r.stepDownIfRemoved := by
  unfold stepDownIfRemoved
  split_ifs
  · exact .refl
  · exact .refl
  · rw [becomeFollower_eq _ le_rfl]
    exact .head (.demote r) (Soft.micros rfl)

theorem commitScan_micros (hr : r.role = .leader) (n : ℕ) (hn : n ≤ r.lastIndex) :
    Micros c o r (r.commitScan n) := by
  induction n with
  | zero => exact .refl
  | succ n ih =>
    unfold commitScan
    split_ifs with h₁ h₂ h₃
    · exact .refl
    · exact ih (by omega)
    · exact .head (.commit r (n + 1) hr (Nat.not_le.mp h₁) hn (not_not.mp h₂) h₃)
        (stepDownIfRemoved_micros _)
    · exact ih (by omega)

theorem maybeCommit_micros (hr : r.role = .leader) : Micros c o r r.maybeCommit :=
  commitScan_micros hr r.lastIndex le_rfl

/-- What an acknowledgement of durability does after its marks have landed. -/
theorem countSelf_micros (r : Raft) : Micros c o r r.countSelf := by
  unfold countSelf
  split_ifs with hr
  · exact .refl
  · split
    · exact .refl
    · rename_i p hp
      split_ifs with hlt
      · exact .head (.selfMatch r p (not_not.mp hr) hp hlt) (maybeCommit_micros (not_not.mp hr))
      · exact .refl

/-! ### Reads -/

theorem answerReads_micros (qs : List ReadReq) (hq : ∀ q ∈ qs, q ∈ r.pendingReads)
    (hc : ∀ q ∈ qs, r.readConfirmed q) :
    Micros c o r (qs.foldl answerRead r) ∧
      (qs.foldl answerRead r).pendingReads = r.pendingReads ∧
      (qs.foldl answerRead r).role = r.role := by
  have h := foldl_micros (c := c) (o := o) (r := r)
    (fun r' => r'.pendingReads = r.pendingReads ∧ r'.role = r.role ∧ r'.conf = r.conf)
    answerRead qs ?_ ⟨rfl, rfl, rfl⟩
  · exact ⟨h.1, h.2.1, h.2.2.1⟩
  · rintro r' q hmem ⟨hp, hrole, hconf⟩
    have hconfirmed : r'.readConfirmed q := by
      have := hc q hmem
      unfold readConfirmed quorum at this ⊢
      rwa [hconf]
    unfold answerRead
    split_ifs with hf
    · exact ⟨.single (.answer r' q (hp ▸ hq q hmem) hconfirmed hf), hp, hrole, hconf⟩
    · refine ⟨.single (.reveal r' _ (.readIndexResp q (hp ▸ hq q hmem) hconfirmed hf)), ?_, ?_, ?_⟩
      · exact (r'.sendGated_proj _ Raft.pendingReads fun _ _ _ => rfl).trans hp
      · exact (r'.sendGated_proj _ Raft.role fun _ _ _ => rfl).trans hrole
      · exact (r'.sendGated_proj _ Raft.conf fun _ _ _ => rfl).trans hconf

theorem maybeConfirmReads_micros (r : Raft) :
    Micros c o r r.maybeConfirmReads ∧ r.maybeConfirmReads.role = r.role := by
  obtain ⟨h, hp, hrole⟩ := answerReads_micros (c := c) (o := o) (r := r)
    (r.pendingReads.filter r.readConfirmed) (fun q hq => (mem_filter.mp hq).1)
    (fun q hq => (mem_filter.mp hq).2)
  refine ⟨h.tail (.dropReads _ _ ?_), hrole⟩
  rw [hp]
  exact filter_sublist

theorem recordRead_micros {q : ReadReq} (hr : r.role = .leader) (hx : q.index = r.readFloor)
    (ht : q.term = r.term)
    (hf : (c = .readIndex q.ctx ∧ q.fromID = 0) ∨ ∃ m, c = .step m ∧ m.type = .readIndex ∧
      q.fromID = m.fromID ∧ q.ctx = m.readCtx) :
    Micros c o r (r.recordRead q) ∧ (r.recordRead q).role = .leader := by
  obtain ⟨h, hrole⟩ := maybeConfirmReads_micros (c := c) (o := o)
    (r.setReads (r.pendingReads ++ [{ q with acks := [r.id] }]))
  exact ⟨.head (.recordReq r { q with acks := [r.id] } hr hx ht rfl hf) h, hrole.trans hr⟩

/-! ### Message handlers -/

theorem observeTerm_micros (r : Raft) (m : Message) :
    Micros (.step m) o r (r.observeTerm m) := by
  unfold observeTerm
  split_ifs with h
  · unfold becomeFollower
    rw [if_pos h.1]
    exact .single (.bump r m rfl h.1 h.2)
  · exact .refl

theorem le_observeTerm_term (h₁ : m.type ≠ .preVote) (h₂ : m.type ≠ .preVoteResp) :
    m.term ≤ (r.observeTerm m).term := by
  unfold observeTerm
  split_ifs with h
  · unfold becomeFollower
    rw [if_pos h.1]
    obtain ⟨_, _, _, _, hst⟩ := r.setTermAndVote_eq m.term 0
    rw [hst]
    exact le_rfl
  · by_contra hlt
    exact h ⟨not_le.mp hlt, h₁, h₂⟩

theorem stepVote_micros (ht : m.type = .vote) (hle : m.term ≤ r.term) :
    Micros (.step m) o r (r.stepVote m) := by
  unfold stepVote
  split_ifs with hg
  · unfold grants at hg
    simp only [Bool.and_eq_true, Bool.or_eq_true, decide_eq_true_eq] at hg
    exact .single (.grant r m rfl ht (le_antisymm hle hg.1.1) hg.1.2 hg.2)
  · exact .single (.reveal r _ (.refuse m))

theorem tally_micro (ht : m.type = .voteResp) (hr : r.role = .candidate) (hterm : m.term = r.term) :
    Micro (.step m) o r (r.tally m) := by
  unfold tally
  by_cases hg : m.granted
  · simp only [hg, if_true]
    exact .count r m rfl ht hg hr hterm
  · simp only [hg]
    exact .soft (withPeer_soft r _ _ fun _ => by rfl)

theorem settle_micros (hr : r.role = .candidate) (h : r.settle = .ok r') :
    Micros c o r r' := by
  unfold settle at h
  split_ifs at h with hq hd
  · exact becomeLeader_micros hr (fun _ => hq) h
  · cases h
    rw [becomeFollower_eq _ le_rfl]
    exact .single (.demote r)
  · exact pure_eq_ok.mp h ▸ .refl

theorem stepVoteResp_micros (ht : m.type = .voteResp) (h : r.stepVoteResp m = .ok r') :
    Micros (.step m) o r r' := by
  unfold stepVoteResp at h
  split_ifs at h with h₁ h₂
  · exact pure_eq_ok.mp h ▸ .refl
  · exact pure_eq_ok.mp h ▸ .refl
  · obtain ⟨hrole, hterm⟩ : r.role = .candidate ∧ m.term = r.term := by simpa using h₁
    exact .head (tally_micro ht hrole hterm) (settle_micros hrole h)

theorem followLeader_micros (hle : m.term ≤ r.term) : Micros c o r (r.followLeader m) := by
  unfold followLeader
  rw [becomeFollower_eq _ hle]
  exact .head (.demote r) (Soft.micros rfl)

/-- Following a leader of the current term changes the role and soft bookkeeping only. -/
theorem followLeader_proj (hle : m.term ≤ r.term) (f : Raft → β)
    (hf : ∀ (r : Raft) role hb lt ee ld, f { r with
      role := role, heartbeatElapsed := hb, leadTransferee := lt, electionElapsed := ee,
      leader := ld } = f r) : f (r.followLeader m) = f r := by
  unfold followLeader
  rw [becomeFollower_eq _ hle]
  exact hf r _ _ _ _ _

theorem followLeader_role (hle : m.term ≤ r.term) : (r.followLeader m).role = .follower := by
  unfold followLeader
  rw [becomeFollower_eq _ hle]
  rfl

/-- A message of the current term makes its sender the leader before it is handled. -/
theorem followLeader_spec (h₀ : Steady o r) (hle : m.term ≤ r.term) (hge : ¬ m.term < r.term) :
    Micros c o r (r.followLeader m) ∧
      (r.followLeader m).role = .follower ∧ m.term = (r.followLeader m).term ∧
      Steady o (r.followLeader m) := by
  refine ⟨followLeader_micros hle, followLeader_role hle, ?_,
    h₀.trans (followLeader_proj hle Raft.steady (by intros; rfl))⟩
  rw [followLeader_proj hle Raft.term (by intros; rfl)]
  exact le_antisymm hle (not_lt.mp hge)

theorem stepApp_micros (h₀ : Steady o r) (ht : m.type = .app) (hle : m.term ≤ r.term)
    (h : r.stepApp m = .ok r') : Micros (.step m) o r r' := by
  unfold stepApp at h
  split_ifs at h with h₁
  · exact pure_eq_ok.mp h ▸ .single (.reveal r _ (.reject m 0))
  · obtain ⟨hfollow, hrole, hterm, hsteady⟩ := followLeader_spec (c := .step m) h₀ hle h₁
    generalize r.followLeader m = r₁ at h hfollow hrole hterm hsteady
    dsimp only at h
    split_ifs at h with hm
    · exact pure_eq_ok.mp h ▸ hfollow.tail (.reveal r₁ _ (.reject m _))
    · obtain ⟨r₂, hs, h⟩ := bind_eq_ok.mp h
      exact hfollow.tail (.accept r₁ r₂ r' m hsteady rfl ht hterm hrole (by simpa using hm) hs h)

theorem nudgeTransferee_micros {peer : NodeID} {mi : ℕ} (h : r.nudgeTransferee peer mi = .ok r') :
    Micros c o r r' ∧ r'.role = r.role := by
  unfold nudgeTransferee at h
  split_ifs at h
  · obtain rfl := send_eq h
    exact ⟨.single (.ungated r _ (.timeoutNow peer)), rfl⟩
  · exact pure_eq_ok.mp h ▸ ⟨.refl, rfl⟩

theorem stepAppResp_micros (ht : m.type = .appResp) (h : r.stepAppResp m = .ok r') :
    Micros (.step m) o r r' := by
  unfold stepAppResp at h
  split at h
  · exact pure_eq_ok.mp h ▸ .refl
  · rename_i h₁
    obtain ⟨hrole, hterm⟩ : r.role = .leader ∧ m.term = r.term := by simpa using h₁
    split at h
    · exact pure_eq_ok.mp h ▸ .refl
    · rename_i p hp
      split_ifs at h with hs
      · obtain ⟨r₁, h₁, h⟩ := bind_eq_ok.mp h
        cases h
        obtain ⟨hn, hrole₁⟩ := nudgeTransferee_micros (c := .step m) (o := o) h₁
        have hprog := Micro.progress (o := o) r m p rfl ht hs hrole hterm hp
        exact .head hprog (hn.trans (maybeCommit_micros (hrole₁.trans hrole)))
      · have hsoft : Soft r (r.withPeer m.fromID fun p =>
          { p with nextIndex := backUp p.nextIndex m.hint }) :=
          withPeer_soft r _ _ fun _ => by rfl
        exact .head (.soft hsoft) (sendAppend_micros (r := r.withPeer _ _) hrole h).1

theorem stepPreVoteResp_micros (ht : m.type = .preVoteResp) (hpre : r.preVoting = o.preVoting)
    (hs : o.Sound (.step m) → r.CanCampaign) (h : r.stepPreVoteResp m = .ok r') :
    Micros (.step m) o r r' := by
  unfold stepPreVoteResp at h
  split_ifs at h with h₁ h₂ h₃
  · exact pure_eq_ok.mp h ▸ .refl
  · exact pure_eq_ok.mp h ▸ .refl
  · exact pure_eq_ok.mp h ▸ .refl
  · have hsoft : Soft r (r.withPeer m.fromID fun p => { p with preGranted := true }) :=
      withPeer_soft r _ _ fun _ => by rfl
    dsimp only at h
    refine .head (.soft hsoft) ?_
    split_ifs at h with hq
    · have he : o.Elects (.step m) := .inr ⟨ht, hpre ▸ by simpa using h₁⟩
      exact .head (.preEnd _)
        (forceCampaign_micros (r := (r.withPeer _ _).setPreVoting false) hs he h)
    · exact pure_eq_ok.mp h ▸ .refl

theorem stepSnap_micros (h₀ : Steady o r) (ht : m.type = .snap) (hle : m.term ≤ r.term)
    (h : r.stepSnap m = .ok r') : Micros (.step m) o r r' := by
  unfold stepSnap at h
  split_ifs at h with h₁
  · exact pure_eq_ok.mp h ▸ .single (.reveal r _ (.reject m 0))
  · obtain ⟨hfollow, hrole, hterm, hsteady⟩ := followLeader_spec (c := .step m) h₀ hle h₁
    generalize r.followLeader m = r₁ at h hfollow hrole hterm hsteady
    have hsound : o.Sound (.step m) →
        (m.snapIndex ≤ r₁.commitIndex → r₁.lastIndex ≤ r₁.commitIndex ∨ r₁.lastTerm = m.term) ∧
        (r₁.commitIndex < m.snapIndex → r₁.matchesLog m.snapIndex m.snapTerm →
          r₁.lastIndex ≤ m.snapIndex) := by
      intro hs
      have hs₁ := Sound.of_steady hsteady hs
      simp only [Sound, ht] at hs₁
      exact hs₁
    refine hfollow.trans ?_
    dsimp only at h
    split_ifs at h with hc
    · exact .single (.covered r₁ r' m hsteady rfl ht hterm hrole hc
        (fun hs => hterm ▸ (hsound hs).1 hc) h)
    · refine .head (.dropAcks r₁) ?_
      split at h
      · exact pure_eq_ok.mp h ▸ .single (.reveal _ _ (.reject m 0))
      · rename_i conf hconf
        cases h
        refine .single (.install r₁.dropAcks _ m conf hsteady rfl ht hterm hrole
          (Nat.not_le.mp hc) ?_ (fun hs => (hsound hs).2 (Nat.not_le.mp hc)) hconf rfl)
        intro g hg
        simpa using (mem_filter.mp hg).2

theorem dispatch_micros (h₀ : Steady o r) (hpre : r.preVoting = o.preVoting)
    (hle : m.type ≠ .preVote → m.type ≠ .preVoteResp → m.term ≤ r.term)
    (h : r.dispatch m = .ok r') : Micros (.step m) o r r' := by
  have hcan : m.type = .timeoutNow ∨ m.type = .preVoteResp → o.Sound (.step m) →
      r.CanCampaign := by
    intro ht hs
    have hs' := Sound.of_steady h₀ hs
    unfold Sound at hs'
    rcases ht with ht | ht <;> simpa only [ht] using hs'
  unfold dispatch at h
  split at h
  all_goals rename_i ht; simp only [ht, ne_eq, reduceCtorEq, not_false_eq_true,
    forall_const, not_true, false_implies] at hle
  · exact pure_eq_ok.mp h ▸ stepVote_micros ht hle
  · exact stepVoteResp_micros ht h
  · exact stepApp_micros h₀ ht hle h
  · obtain ⟨r₁, h₁, h⟩ := bind_eq_ok.mp h
    cases h
    refine (stepAppResp_micros ht h₁).trans ?_
    split_ifs with hc
    · exact .head (.ackReads r₁ m rfl ht hc.2 hc.1) (maybeConfirmReads_micros _).1
    · exact .refl
  · dsimp only at h
    split_ifs at h with hr
    · obtain ⟨hrec, hrole⟩ := recordRead_micros (c := .step m) (o := o) (r := r)
        (q := { index := r.readFloor, term := r.term, ctx := m.readCtx, fromID := m.fromID })
        hr rfl rfl (.inr ⟨m, rfl, ht, rfl, rfl⟩)
      exact hrec.trans (broadcastAppend_micros hrole h).1
    · exact pure_eq_ok.mp h ▸ .refl
  · exact pure_eq_ok.mp h ▸ .single (.readResp r m rfl ht)
  · unfold stepPreVote at h
    obtain rfl := send_eq h
    exact .single (.ungated r _ (.preVoteResp m _))
  · exact stepPreVoteResp_micros ht hpre (hcan (.inr ht)) h
  · exact stepSnap_micros h₀ ht hle h
  · unfold stepTimeoutNow at h
    split_ifs at h
    · exact pure_eq_ok.mp h ▸ .refl
    · exact forceCampaign_micros (hcan (.inl ht)) (.inl ht) h

theorem observeTerm_steady (r : Raft) (m : Message) :
    Steady r (r.observeTerm m) ∧ (r.observeTerm m).preVoting = r.preVoting := by
  unfold Raft.observeTerm becomeFollower
  split_ifs with h₁ h₂
  · exact ⟨setTermAndVote_proj r _ _ Raft.steady (by intros; rfl),
      setTermAndVote_proj r _ _ Raft.preVoting (by intros; rfl)⟩
  · exact absurd h₁.1 h₂
  · exact ⟨rfl, rfl⟩

theorem step_micros (h : r.step m = .ok res) : Micros (.step m) r r (r.orUnchanged res).1 := by
  unfold step at h
  split_ifs at h
  · exact pure_eq_ok.mp h ▸ .refl
  · obtain ⟨r₁, h₁, h⟩ := bind_eq_ok.mp h
    cases h
    exact (observeTerm_micros r m).trans
      (dispatch_micros (observeTerm_steady r m).1 (observeTerm_steady r m).2 le_observeTerm_term h₁)

/-! ### The other calls -/

theorem electionDue_micros (h : r.electionDue = .ok r')
    (he : r.randomizedElectionTimeout ≤ r.electionElapsed ∧ r.conf.isVoter r.id → o.Elects c) :
    Micros c o r r' := by
  unfold electionDue at h
  split_ifs at h with hv
  · exact campaign_micros (fun _ => .inl hv.2) (he hv) h
  · exact pure_eq_ok.mp h ▸ .refl

theorem tickTransfer_soft (r : Raft) : Soft r r.tickTransfer := by
  unfold tickTransfer
  split_ifs <;> rfl

theorem heartbeatDue_micros (hr : r.role = .leader) (h : r.heartbeatDue = .ok r') :
    Micros c o r r' := by
  unfold heartbeatDue at h
  split_ifs at h
  · exact micros_of_soft (broadcastAppend_micros (by exact hr) h).1 rfl
  · exact pure_eq_ok.mp h ▸ .refl

theorem tick_micros (h : r.tick = .ok r') : Micros .tick r r r' := by
  unfold tick at h
  split at h
  · exact micros_of_soft (electionDue_micros h fun hv => hv) rfl
  · exact micros_of_soft (electionDue_micros h fun hv => hv) rfl
  · rename_i hr
    have hsoft := r.tickTransfer_soft
    have hrole : r.tickTransfer.role = .leader := (hsoft.proj Raft.role fun _ => rfl).trans hr
    exact micros_of_soft (micros_of_soft (heartbeatDue_micros (by exact hrole) h) rfl) hsoft

theorem extend_role (r : Raft) (e : Entry) : (r.extend e).role = r.role := by
  obtain ⟨_, _, _, _, _, -, hext⟩ := r.extend_eq e
  rw [hext]

theorem appendAndBroadcast_micros {type : EntryType} (hr : r.role = .leader)
    (hc : type = .confChange → (∃ id cc, c = .proposeConfChange id cc) ∧
      r.lastConfIndex ≤ r.commitIndex ∧ (o.Sound c → r.termStart ≤ r.commitIndex))
    (hid : c.proposes) (h : r.appendAndBroadcast type id data = .ok r') : Micros c o r r' := by
  obtain ⟨r₁, h₁, h⟩ := bind_eq_ok.mp h
  rw [appendEntries_next (by rfl)] at h₁
  cases h₁
  exact .head (.append r _ hr rfl rfl hc (.inr hid))
    (broadcastAppend_micros ((extend_role r _).trans hr) h).1

theorem propose_cases (h : r.propose id data = .ok res) : (∃ e, res = throw e) ∨
      id.zero = false ∧ r.role = .leader ∧
        ∃ r₁, r.appendAndBroadcast .normal id data = .ok r₁ ∧ res = .ok r₁ := by
  unfold propose at h
  split_ifs at h with h₁ h₂ h₃
  · exact .inl ⟨_, (pure_eq_ok.mp h).symm⟩
  · exact .inl ⟨_, (pure_eq_ok.mp h).symm⟩
  · exact .inl ⟨_, (pure_eq_ok.mp h).symm⟩
  · obtain ⟨r₁, hr₁, h⟩ := bind_eq_ok.mp h
    exact .inr ⟨by simpa using h₁, not_not.mp h₂, r₁, hr₁, (pure_eq_ok.mp h).symm⟩

theorem propose_micros (h : r.propose id data = .ok res) :
    Micros (.propose id data) o r (r.orUnchanged res).1 := by
  rcases propose_cases h with ⟨e, rfl⟩ | ⟨-, hr, r₁, h₁, rfl⟩
  · exact .refl
  · exact appendAndBroadcast_micros hr (by rintro ⟨⟩) rfl h₁

/-- A configuration change is refused, or appended and sent out by the leader once the one before it
is committed. -/
theorem proposeConfChange_cases (h : r.proposeConfChange id cc = .ok res) :
    (∃ e, res = throw e) ∨ id.zero = false ∧ r.role = .leader ∧ r.lastConfIndex ≤ r.commitIndex ∧
      (cc.transition = .simple ∧ ∃ ch, cc.changes = [ch]) ∧
      ∃ r₁, r.appendAndBroadcast .confChange id (encodeConfChange cc) = .ok r₁ ∧ res = .ok r₁ := by
  have hfail : ∀ {e : CallError} {p : Prop},
      (pure (throw e) : Outcome (Except CallError Raft)) = .ok res → (∃ e, res = throw e) ∨ p :=
    fun h => .inl ⟨_, (pure_eq_ok.mp h).symm⟩
  unfold proposeConfChange at h
  split at h
  · exact hfail h
  rename_i hz
  split at h
  · exact hfail h
  rename_i hr
  split at h
  · exact hfail h
  split at h
  · exact hfail h
  rename_i ht
  split at h
  · rename_i ch hch
    split at h
    · exact hfail h
    rename_i hlast
    split at h
    · exact hfail h
    split at h
    · exact hfail h
    obtain ⟨r₁, h₁, h⟩ := bind_eq_ok.mp h
    exact .inr ⟨by simpa using hz, not_not.mp hr, not_lt.mp hlast, ⟨not_not.mp ht, ch, hch⟩, r₁, h₁,
      (pure_eq_ok.mp h).symm⟩
  · exact hfail h

theorem proposeConfChange_micros
    (hs : o.Sound (.proposeConfChange id cc) → r.termStart ≤ r.commitIndex)
    (h : r.proposeConfChange id cc = .ok res) :
    Micros (.proposeConfChange id cc) o r (r.orUnchanged res).1 := by
  rcases proposeConfChange_cases h with ⟨e, rfl⟩ | ⟨-, hr, hlast, -, r₁, h₁, rfl⟩
  · exact .refl
  · exact appendAndBroadcast_micros hr (fun _ => ⟨⟨id, cc, rfl⟩, hlast, hs⟩) rfl h₁

theorem readIndex_micros {ctx : Bytes} (h : r.readIndex ctx = .ok res) :
    Micros (.readIndex ctx) o r (r.orUnchanged res).1 := by
  unfold readIndex at h
  split at h
  · exact pure_eq_ok.mp h ▸ .refl
  · split at h
    · rename_i hr
      obtain ⟨r₁, h₁, h⟩ := bind_eq_ok.mp h
      cases h
      obtain ⟨hrec, hrole⟩ := recordRead_micros (c := .readIndex ctx) (o := o) (r := r)
        (q := { index := r.readFloor, term := r.term, ctx := ctx }) hr rfl rfl (.inl ⟨rfl, rfl⟩)
      exact hrec.trans (broadcastAppend_micros hrole h₁).1
    · split_ifs at h
      · exact pure_eq_ok.mp h ▸ .refl
      · exact pure_eq_ok.mp h ▸ .single (.reveal r _ (.readIndex ctx rfl))
    · exact pure_eq_ok.mp h ▸ .refl

theorem transferLeadership_micros {target : NodeID} (h : r.transferLeadership target = .ok r') :
    Micros c o r r' := by
  unfold transferLeadership at h
  split at h
  · cases h
  · split at h
    · exact pure_eq_ok.mp h ▸ .refl
    · split_ifs at h with h₂ h₃
      · exact pure_eq_ok.mp h ▸ .refl
      · exact pure_eq_ok.mp h ▸ .refl
      · have hr : r.role = .leader := by
          by_contra hne
          exact h₃ (.inl hne)
        have hsoft : Soft r (r.startTransfer target) := rfl
        refine micros_of_soft ?_ hsoft
        dsimp only at h
        split_ifs at h
        · obtain rfl := send_eq h
          exact .single (.ungated _ _ (.timeoutNow target))
        · exact (sendAppend_micros (by exact hr) h).1

theorem campaignNow_micros (hs : o.Sound c → r.CanCampaign) (he : o.Elects c)
    (h : r.campaignNow = .ok res) : Micros c o r (r.orUnchanged res).1 := by
  unfold campaignNow at h
  split_ifs at h
  · exact pure_eq_ok.mp h ▸ .refl
  · obtain ⟨r₁, h₁, h⟩ := bind_eq_ok.mp h
    cases h
    exact campaign_micros hs he h₁

end Raft

/-- The calls that are sequences of effects: the others drain the node, move its marks or drop
its log's prefix. -/
def Call.plain : Call → Bool
  | .ready | .ackPersisted _ | .ackSnapshot _ | .compact _ => false
  | _ => true

variable {rep : Reply} {c : Call}

/-- A call that neither drains the node nor moves its marks is a sequence of effects. -/
theorem exec_micros {r r' : Raft} (hc : c.plain) (h : r.exec c = .ok (r', rep)) :
    Micros c r r r' := by
  have hres : ∀ {x : Outcome (Except CallError Raft)},
      (x >>= fun res => pure (r.orUnchanged res)) = .ok (r', rep) →
      ∃ res, x = .ok res ∧ (r.orUnchanged res).1 = r' := by
    intro x h
    obtain ⟨res, hx, h⟩ := bind_eq_ok.mp h
    exact ⟨res, hx, congrArg Prod.fst (pure_eq_ok.mp h)⟩
  have hdone : ∀ {x : Outcome Raft}, (x >>= fun r₁ => pure (r₁, Reply.done)) = .ok (r', rep) →
      x = .ok r' := by
    intro x h
    obtain ⟨r₁, hx, h⟩ := bind_eq_ok.mp h
    obtain rfl : r₁ = r' := congrArg Prod.fst (pure_eq_ok.mp h)
    exact hx
  cases c with
  | setElectionTimeout n =>
    obtain rfl : r.setElectionTimeout n = r' := congrArg Prod.fst (pure_eq_ok.mp h)
    refine Soft.micros ?_
    unfold setElectionTimeout
    split_ifs <;> rfl
  | tick => exact tick_micros (hdone h)
  | campaign =>
    obtain ⟨res, hx, rfl⟩ := hres h
    exact campaignNow_micros id trivial hx
  | propose id data =>
    obtain ⟨res, hx, rfl⟩ := hres h
    exact propose_micros hx
  | proposeConfChange id' cc =>
    obtain ⟨res, hx, rfl⟩ := hres h
    exact proposeConfChange_micros id hx
  | step m =>
    obtain ⟨res, hx, rfl⟩ := hres h
    exact step_micros hx
  | readIndex ctx =>
    obtain ⟨res, hx, rfl⟩ := hres h
    exact readIndex_micros hx
  | transferLeadership n => exact transferLeadership_micros (hdone h)
  | ackApplied i =>
    obtain rfl : r.ackApplied i = r' := congrArg Prod.fst (pure_eq_ok.mp h)
    exact .single (.ackApplied r i rfl)
  | ready => cases hc
  | ackPersisted m => exact absurd hc (by simp [Call.plain])
  | ackSnapshot m => exact absurd hc (by simp [Call.plain])
  | compact i => exact absurd hc (by simp [Call.plain])

theorem Raft.closeIdle_eq (r : Raft) : ∃ dm mh gs ms, r.closeIdle =
    { r with dirtyMark := dm, markHandedOff := mh, gated := gs, msgs := ms } := by
  unfold closeIdle
  split_ifs
  · exact ⟨_, _, _, _, rfl⟩
  · exact ⟨_, _, _, _, rfl⟩

theorem Raft.landMarks_eq (r : Raft) (m : ℕ) : ∃ pm hsm tl dm mh gs ms, r.landMarks m =
    { r with
      persisted := pm, hsMark := hsm, tail := tl, dirtyMark := dm, markHandedOff := mh, gated := gs,
      msgs := ms } := by
  unfold landMarks releaseThrough release closeThrough landed
  exact ⟨_, _, _, _, _, _, _, rfl⟩

/-- What a call can do: a sequence of effects, a drain that hands something over or finds nothing to
hand over, an acknowledgement of one of the two streams, or a compaction. -/
inductive Executed (r : Raft) : Call → Raft → Reply → Prop
  | plain {c r' rep} (hp : c.plain) (hm : Micros c r r r') : Executed r c r' rep
  | handOver {entries committed} (hu : r.unhanded = .ok entries) (ha : r.unapplied = .ok committed)
      (hn : r.hardStateDirty = true ∨ entries ≠ []) :
    Executed r .ready (r.takeOutputs.handOver entries).flushed
      (.drained (r.output entries committed))
  | idle {committed} (hu : r.unhanded = .ok []) (ha : r.unapplied = .ok committed)
      (hn : r.hardStateDirty = false) :
    Executed r .ready r.takeOutputs.closeIdle.flushed
      (.drained { r.output [] committed with mark := 0 })
  | staleAck {m} (hm : m ≤ r.persisted) : Executed r (.ackPersisted m) r .done
  | ack {m r'} (hm : r.persisted < m) (hs : Micros (.ackPersisted m) r (r.landMarks m) r') :
    Executed r (.ackPersisted m) r' .done
  | staleSnap {m} (hm : m ≤ r.persistedSnap) : Executed r (.ackSnapshot m) r .done
  | ackSnap {m} (hm : r.persistedSnap < m) :
    Executed r (.ackSnapshot m) (r.snapLanded m).release .done
  | uncompacted {i e} : Executed r (.compact i) r (.failed e)
  | recompacted {i} (hle : i ≤ r.snapIndex) :
    Executed r (.compact i) r (.compacted r.snapTerm r.baseConf)
  | compacted {i e conf} (hs : r.snapIndex < i) (ha : i ≤ r.appliedIdx) (hp : i ≤ r.tail.persisted)
      (he : r.entryAt i = some e) (hc : r.configurationAt i = .ok conf) :
    Executed r (.compact i) (r.dropThrough i e.term conf) (.compacted e.term conf)

theorem ready_executed {r r' : Raft} {rd : Ready} (h : r.ready = .ok (r', rd)) :
    Executed r .ready r' (.drained rd) := by
  obtain ⟨entries, he, h⟩ := bind_eq_ok.mp h
  obtain ⟨committed, hc, h⟩ := bind_eq_ok.mp h
  dsimp only at h
  split_ifs at h with hh
  · cases h
    exact .handOver he hc hh
  · cases h
    push Not at hh
    obtain ⟨hd, rfl⟩ := hh
    exact .idle he hc (by simpa using hd)

theorem compact_executed {r r' : Raft} {i : ℕ} (h : r.exec (.compact i) = .ok (r', rep)) :
    Executed r (.compact i) r' rep := by
  have hkeep : ∀ {e : CallError}, (pure (r, Reply.failed e) : Outcome _) = .ok (r', rep) →
      Executed r (.compact i) r' rep := by
    intro e h
    cases h
    exact .uncompacted
  simp only [Raft.exec] at h
  unfold compact at h
  split_ifs at h with h₁ h₂ h₃
  · cases h
    exact .recompacted h₁
  · exact hkeep h
  · exact hkeep h
  · cases he : r.entryAt i with
    | none => rw [he] at h; exact hkeep h
    | some e =>
      rw [he] at h
      cases hc : r.configurationAt i with
      | error err => rw [hc] at h; exact hkeep h
      | ok conf =>
        rw [hc] at h
        cases h
        exact .compacted (not_le.mp h₁) (not_lt.mp h₂) (not_lt.mp h₃) he hc

theorem exec_executed {r r' : Raft} (h : r.exec c = .ok (r', rep)) : Executed r c r' rep := by
  by_cases hp : c.plain
  · exact .plain hp (exec_micros hp h)
  cases c with
  | ready =>
    obtain ⟨⟨r₁, rd⟩, hr, h⟩ := bind_eq_ok.mp h
    cases h
    exact ready_executed hr
  | ackPersisted m =>
    cases h
    unfold Raft.ackPersisted
    split_ifs with hm
    · exact .staleAck hm
    · exact .ack (not_le.mp hm) (countSelf_micros _)
  | ackSnapshot m =>
    cases h
    unfold Raft.ackSnapshot
    split_ifs with hm
    · exact .staleSnap hm
    · exact .ackSnap (not_le.mp hm)
  | compact i => exact compact_executed h
  | _ => exact absurd rfl hp

end Rift
