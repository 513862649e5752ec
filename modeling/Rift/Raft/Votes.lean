import Rift.Raft.FixedConf

/-!
# Election safety

With a fixed configuration, at most one node ever leads in a term, whatever the network does and
wherever a crash falls: what a node has said about its vote is durable, so that no incarnation of it
promises another vote in the same term, and two majorities share a voter.

The code needs one condition for this that it does not check: a campaign counts the size of the
quorum and not the votes when that size is one, so a learner of a single voter must not campaign.

## Main results

* `election_safety` — a term has one leader
-/

namespace Rift

open Raft List

/-! ### Votes that were handed out -/

/-- A vote of `v` for `n` in term `T` was handed out. -/
def Granted (sent : NodeID → List Message) (v : NodeID) (T : ℕ) (n : NodeID) : Prop :=
  ∃ m ∈ sent v, m.type = .voteResp ∧ m.granted = true ∧ m.toID = n ∧ m.term = T

/-- A message that promises the vote of `v` to `n` in term `T` was handed out: a granted vote, or a
vote request of `n` itself. -/
def Promised (sent : NodeID → List Message) (v : NodeID) (T : ℕ) (n : NodeID) : Prop :=
  ∃ m ∈ sent v, m.term = T ∧ m.promised = some n

/-- Why `n` may lead in term `T`: it is the only voter, or a majority has promised it its vote. -/
structure Elected (C : Configuration) (sent : NodeID → List Message) (n : NodeID) (T : ℕ) :
    Prop where
  eligible : n ∈ C.voterSet ∨ C.voterSet.card ≠ 1
  majority : 1 < C.voterSet.card →
    ∃ Q, IsMajority C.voterSet Q ∧ ∀ v ∈ Q, Promised sent v T n

section Votes

variable {C : Configuration} {sent sent' : NodeID → List Message} {n a b v : NodeID} {T : ℕ}

theorem Granted.promised (h : Granted sent v T n) : Promised sent v T n := by
  obtain ⟨m, hm, ht, hg, rfl, rfl⟩ := h
  exact ⟨m, hm, rfl, by simp [Message.promised, ht, hg]⟩

theorem Granted.mono (h : Granted sent v T n) (hs : ∀ k, sent k ⊆ sent' k) :
    Granted sent' v T n := by
  obtain ⟨m, hm, h⟩ := h
  exact ⟨m, hs v hm, h⟩

theorem Promised.mono (h : Promised sent v T n) (hs : ∀ k, sent k ⊆ sent' k) :
    Promised sent' v T n := by
  obtain ⟨m, hm, h⟩ := h
  exact ⟨m, hs v hm, h⟩

theorem Elected.mono (h : Elected C sent n T) (hs : ∀ k, sent k ⊆ sent' k) :
    Elected C sent' n T := by
  refine ⟨h.eligible, fun hc => ?_⟩
  obtain ⟨Q, hQ, hp⟩ := h.majority hc
  exact ⟨Q, hQ, fun v hv => (hp v hv).mono hs⟩

/-- Two nodes elected in one term are the same: the majorities share a voter, which promised one
vote. -/
theorem Elected.unique (ha : Elected C sent a T) (hb : Elected C sent b T)
    (hone : ∀ v, OneVote (sent v)) (hne : C.voterSet.Nonempty) (ha₀ : a ≠ 0) (hb₀ : b ≠ 0) :
    a = b := by
  rcases Nat.lt_or_ge 1 C.voterSet.card with hc | hc
  · obtain ⟨Q, hQ, hpa⟩ := ha.majority hc
    obtain ⟨R, hR, hpb⟩ := hb.majority hc
    obtain ⟨v, hvQ, hvR⟩ := hQ.inter_nonempty hR
    obtain ⟨m, hm, hmT, hma⟩ := hpa v hvQ
    obtain ⟨m', hm', hmT', hmb⟩ := hpb v hvR
    exact hone v m hm m' hm' (hmT.trans hmT'.symm) a b hma hmb ha₀ hb₀
  · have hcard : C.voterSet.card = 1 := le_antisymm hc (Finset.card_pos.mpr hne)
    have hva := ha.eligible.resolve_right fun h => h hcard
    have hvb := hb.eligible.resolve_right fun h => h hcard
    exact Finset.card_le_one.mp hc a hva b hvb

end Votes

/-! ### The account of votes of one node -/

/-- What `n` may say, given what everybody has handed out: a vote is granted only to a node that
asked for it. -/
def Message.Accounted (sent : NodeID → List Message) (n : NodeID) (m : Message) : Prop :=
  (m.fromID = n ∧ m.type ≠ .snap) ∧ (m.type = .voteResp → m.granted = true →
    ∃ q ∈ sent m.toID, q.type = .vote ∧ q.term = m.term)

/-- What a node's queues and its counted votes say, given what everybody has handed out. -/
structure VoteNode (C : Configuration) (sent : NodeID → List Message) (n : NodeID) (r : Raft) :
    Prop where
  id : r.id = n
  said : ∀ m ∈ r.queued, m.Accounted sent n
  eligible : r.role ≠ .follower → n ∈ C.voterSet ∨ C.voterSet.card ≠ 1
  granted : r.role = .candidate → ∀ p ∈ r.peers, p.votesGranted = true →
    p.id = n ∨ Granted sent p.id r.term n
  elected : r.role = .leader → Elected C sent n r.term

/-- What everybody has handed out: every message is its sender's, and a granted vote was asked for. -/
def SentInv (sent : NodeID → List Message) : Prop := ∀ n, ∀ m ∈ sent n, m.Accounted sent n

variable {m : Message}

section Node

variable {C : Configuration} {sent sent' : NodeID → List Message} {n : NodeID} {r r' o : Raft}
  {c : Call} {p : Peer}

theorem Message.Accounted.mono (h : m.Accounted sent n) (hs : ∀ k, sent k ⊆ sent' k) :
    m.Accounted sent' n := by
  refine ⟨h.1, fun ht hg => ?_⟩
  obtain ⟨q, hq, h⟩ := h.2 ht hg
  exact ⟨q, hs _ hq, h⟩

theorem VoteNode.mono (hi : VoteNode C sent n r) (hs : ∀ k, sent k ⊆ sent' k) :
    VoteNode C sent' n r where
  id := hi.id
  said m hm := (hi.said m hm).mono hs
  eligible := hi.eligible
  granted hr p hp hv := (hi.granted hr p hp hv).imp_right fun h => h.mono hs
  elected hr := (hi.elected hr).mono hs

/-- An effect that leaves the role and the counted votes alone, or ends the candidacy. -/
theorem VoteNode.keep (hi : VoteNode C sent n r) (hid : r'.id = r.id)
    (hq : ∀ m ∈ r'.queued, m.Accounted sent n)
    (hkeep : r'.role = .follower ∨ (r'.role = r.role ∧ r'.term = r.term ∧
      (r.role = .candidate → ∀ p ∈ r'.peers, p.votesGranted = true →
        ∃ q ∈ r.peers, q.votesGranted = true ∧ q.id = p.id))) : VoteNode C sent n r' := by
  refine ⟨hid.trans hi.id, hq, ?_, ?_, ?_⟩
  · intro hne
    rcases hkeep with h | ⟨h, -, -⟩
    · exact absurd h hne
    · exact hi.eligible (h ▸ hne)
  · intro hr p hp hv
    rcases hkeep with h | ⟨h, ht, hpeers⟩
    · exact absurd (h.symm.trans hr) (by simp)
    · obtain ⟨q, hq, hqv, hqid⟩ := hpeers (h ▸ hr) p hp hv
      rw [ht, ← hqid]
      exact hi.granted (h ▸ hr) q hq hqv
  · intro hr
    rcases hkeep with h | ⟨h, ht, -⟩
    · exact absurd (h.symm.trans hr) (by simp)
    · rw [ht]
      exact hi.elected (h ▸ hr)

theorem Says.vote (h : Says c r m) (hid : r.id = n) (hdel : ∀ m, c = .step m → m ∈ sent m.fromID) :
    m.Accounted sent n := by
  cases h with
  | reveals h => cases h <;> exact ⟨⟨hid, by rintro ⟨⟩⟩, by rintro ⟨⟩ <;> rintro ⟨⟩⟩
  | ungated h => cases h <;> exact ⟨⟨hid, by rintro ⟨⟩⟩, by rintro ⟨⟩⟩
  | @grant m hc ht hterm =>
    exact ⟨⟨hid, by rintro ⟨⟩⟩, fun _ _ => ⟨m, hdel m hc, ht, hterm⟩⟩
  | ack _ _ _ _ => exact ⟨⟨hid, by rintro ⟨⟩⟩, by rintro ⟨⟩⟩

theorem Raft.Soft.peers (h : Soft r r') (hp : p ∈ r'.peers) : ∃ q ∈ r.peers, q.hard = p.hard := by
  have hmap : r'.peers.map Peer.hard = r.peers.map Peer.hard := congrArg Raft.peers h
  have : p.hard ∈ r.peers.map Peer.hard := hmap ▸ mem_map_of_mem hp
  exact mem_map.mp this

theorem mem_modifyPeer {id : NodeID} {f : Peer → Peer} {ps : List Peer}
    (h : p ∈ modifyPeer id f ps) : p ∈ ps ∨ ∃ q ∈ ps, q.id = id ∧ p = f q := by
  induction ps with
  | nil => exact absurd h (by simp [modifyPeer])
  | cons q ps ih =>
    unfold modifyPeer at h
    split_ifs at h with hq
    · rcases mem_cons.mp h with rfl | h
      · exact .inr ⟨q, mem_cons_self, hq, rfl⟩
      · exact .inl (mem_cons_of_mem _ h)
    · rcases mem_cons.mp h with rfl | h
      · exact .inl mem_cons_self
      · exact (ih h).imp (mem_cons_of_mem _) fun ⟨q', hq', h'⟩ =>
          ⟨q', mem_cons_of_mem _ hq', h'⟩

theorem VoteNode.elected_of_count (hi : VoteNode C sent n r) (hf : FixedNode C r) (hw : C.WF)
    (hsent : SentInv sent) (hr : r.role = .candidate)
    (hq : r.quorum ≤ r.countVoters (·.votesGranted)) : Elected C sent n r.term := by
  have hmaj : IsMajority C.voterSet (r.votersWith (·.votesGranted)) :=
    hf.conf_eq ▸ hf.tracks.majority (hf.conf_eq ▸ hw) hq
  refine ⟨hi.eligible (by rw [hr]; simp), fun hc => ⟨_, hmaj, ?_⟩⟩
  have hvote : ∀ v ∈ r.votersWith (·.votesGranted), v = n ∨ Granted sent v r.term n := by
    intro v hv
    obtain ⟨p, hp, hg, -, rfl⟩ := mem_votersWith.mp hv
    exact hi.granted hr p hp hg
  -- Some other voter granted its vote, so the candidate's own request is out.
  obtain ⟨v, hv, hne⟩ := hmaj.exists_ne hc n
  obtain ⟨m, hmem, ht, hg, rfl, hT⟩ := (hvote v hv).resolve_left hne
  obtain ⟨q, hq, hqt, hqT⟩ := (hsent v m hmem).2 ht hg
  have hself : Promised sent m.toID r.term m.toID :=
    ⟨q, hq, hqT.trans hT, by simp [Message.promised, hqt, (hsent _ q hq).1.1]⟩
  intro w hw
  rcases hvote w hw with rfl | h
  · exact hself
  · exact h.promised

theorem Micro.voteNode (h : Micro c o r r') (hs : o.Sound c)
    (hdel : ∀ m, c = .step m → m ∈ sent m.fromID ∧ m.toID = n) (hsent : SentInv sent)
    (hw : C.WF) (hf : FixedNode C r) (hi : VoteNode C sent n r) : VoteNode C sent n r' := by
  have hid := h.id_eq
  have hq : ∀ m ∈ r'.queued, m.Accounted sent n := fun m hmem =>
    (h.voices hmem).elim (hi.said m) fun h => h.vote hi.id fun m hc => (hdel m hc).1
  have hsame : (r'.role, r'.term, r'.peers) = (r.role, r.term, r.peers) → VoteNode C sent n r' := by
    simp only [Prod.mk.injEq]
    rintro ⟨hr, ht, hp⟩
    exact hi.keep hid hq (.inr ⟨hr, ht, fun _ p hmem hv => ⟨p, hp ▸ hmem, hv, rfl⟩⟩)
  have hfollow : r'.role = .follower → VoteNode C sent n r' := fun h => hi.keep hid hq (.inl h)
  have hlead : r.role = .leader → r'.role = r.role → r'.term = r.term → VoteNode C sent n r' :=
    fun hr h₁ h₂ => hi.keep hid hq (.inr ⟨h₁, h₂, fun hc => absurd (hr.symm.trans hc) (by simp)⟩)
  cases h with
  | soft h =>
    refine hi.keep hid hq (.inr ⟨h.proj Raft.role fun _ => rfl,
      h.proj Raft.term fun _ => rfl, fun _ p hp hv => ?_⟩)
    obtain ⟨q, hq, heq⟩ := h.peers hp
    have hid : q.hard.id = p.hard.id := by rw [heq]
    have hvote : q.hard.votesGranted = p.hard.votesGranted := by rw [heq]
    exact ⟨q, hq, hvote.trans hv, hid⟩
  | demote => exact hfollow rfl
  | bump m _ _ _ => exact hfollow rfl
  | campaign _ hcan _ =>
    have hrole : r.campaigned.role = .candidate :=
      setTermAndVote_proj r.takeCandidacy _ _ Raft.role (by intros; rfl)
    refine ⟨hid.trans hi.id, hq, fun _ => ?_, ?_, fun hr => absurd (hrole.symm.trans hr) (by simp)⟩
    · have hquorum : r.quorum ≠ 1 → C.voterSet.card ≠ 1 := by
        intro hne hcard
        refine hne ?_
        unfold quorum
        rw [hf.conf_eq, ← hw.card_voterSet, hcard]
      exact (hcan hs).imp (fun hv => Configuration.mem_voterSet.mpr (hf.conf_eq ▸ hi.id ▸ hv))
        hquorum
    · intro _ p hp hv
      rcases mem_modifyPeer hp with hp | ⟨q, -, hid, rfl⟩
      · rw [setTermAndVote_proj _ _ _ Raft.peers (by intros; rfl)] at hp
        obtain ⟨q, -, rfl⟩ := mem_map.mp hp
        cases hv
      · exact .inl (hid.trans hi.id)
  | grant m _ _ _ _ _ =>
    refine hsame ((sendGatedOn_proj _ 0 0 _ (fun r => (r.role, r.term, r.peers))
      (by intros; rfl)).trans ?_)
    obtain ⟨_, _, _, _, heq⟩ := r.setTermAndVote_eq r.term m.fromID
    rw [setVote_eq, heq]
    rfl
  | reveal msg _ =>
    exact hsame (sendGatedOn_proj r 0 0 msg (fun r => (r.role, r.term, r.peers)) (by intros; rfl))
  | count m hc ht hg hr hterm =>
    refine ⟨hi.id, hq, fun _ => hi.eligible (by rw [hr]; simp), ?_, fun hr' => absurd (hr.symm.trans hr') (by simp)⟩
    intro _ p hp hv
    rcases mem_modifyPeer hp with hp | ⟨q, -, hid, rfl⟩
    · exact hi.granted hr p hp hv
    · obtain ⟨hmem, hto⟩ := hdel m hc
      exact .inr ⟨m, hid ▸ hmem, ht, hg, hto, hterm⟩
  | lead hr _ hcount =>
    exact ⟨hi.id, hq, fun _ => hi.eligible (by rw [hr]; simp), fun h => absurd h (by rintro ⟨⟩),
      fun _ => hi.elected_of_count hf hw hsent hr (hcount hs)⟩
  | append e hr _ _ _ _ =>
    obtain ⟨_, _, _, _, _, -, heq⟩ := r.extend_eq e
    exact hlead hr (r.extend_role e) (by rw [heq])
  | accept r₁ _ m _ _ _ _ hr _ hstore ha =>
    refine hfollow ?_
    rw [ledger_proj (acknowledge_ledger ha) Raft.role fun _ => rfl,
      commitUpTo_proj _ _ _ Raft.role fun _ _ => rfl,
      storeEntries_proj Raft.role hstore (by intros; rfl), hr]
  | covered _ m _ _ _ _ hr _ _ ha =>
    exact hfollow ((ledger_proj (acknowledge_ledger ha) Raft.role fun _ => rfl).trans hr)
  | install r₁ m conf _ _ _ _ hr _ _ _ _ hr' =>
    subst hr'
    obtain ⟨_, _, _, _, -, heq⟩ := r.installSnapshot_eq m conf
    exact hfollow (by rw [sendGatedOn_proj _ _ _ _ Raft.role (by intros; rfl), heq, hr])
  | progress m p _ _ _ hr _ _ => exact hlead hr rfl rfl
  | selfMatch p hr _ _ => exact hlead hr rfl rfl
  | ackApplied i _ =>
    refine hsame ?_
    unfold Raft.ackApplied
    split_ifs <;> rfl
  | _ => exact hsame rfl

end Node

/-! ### Calls -/

variable {rep : Reply} {g' g : Cluster} {ev : Event} {c : Call} {S : Setup}

theorem Executed.voteNode {C : Configuration} {sent : NodeID → List Message} {n : NodeID}
    {r r' : Raft} (h : Executed r c r' rep) (hs : r.Sound c) (hc : c.Fixed C)
    (hdel : ∀ m, c = .step m → m ∈ sent m.fromID ∧ m.toID = n) (hsent : SentInv sent) (hw : C.WF)
    (hf : FixedNode C r) (hi : VoteNode C sent n r) : VoteNode C sent n r' := by
  -- The configuration is kept along with the votes, which are counted in it.
  refine (h.keeps (P := fun r => FixedNode C r ∧ VoteNode C sent n r)
    (fun hd => ⟨hf.drained hd, ?_⟩)
    (fun hm h₁ => ⟨hm.fixed hc h₁.1, hm.voteNode hs hdel hsent hw h₁.1 h₁.2⟩)
    (fun _ _ hat => ⟨hf.dropThrough hat _, ?_⟩) ⟨hf, hi⟩).2
  · refine hi.keep (hd.proj Raft.id fun _ => rfl)
      (fun m hm => hi.said m (hd.queued hm))
      (.inr ⟨hd.proj Raft.role fun _ => rfl, hd.proj Raft.term fun _ => rfl, fun _ p hp hv =>
        ⟨p, hd.proj Raft.peers (fun _ => rfl) ▸ hp, hv, rfl⟩⟩)
  · refine hi.keep rfl hi.said (.inr ⟨rfl, rfl, fun _ p hp hv => ?_⟩)
    rcases setConf_peer hp with ⟨q, hq, heq⟩ | hnew
    · have hid : q.hard.id = p.hard.id := by rw [heq]
      have hvote : q.hard.votesGranted = p.hard.votesGranted := by rw [heq]
      exact ⟨q, hq, hvote.trans hv, hid⟩
    · have : p.hard.votesGranted = false := by rw [hnew]
      exact absurd (this.symm.trans hv) (by simp)

theorem exec_misaddressed {r r' : Raft} (h : r.exec (.step m) = .ok (r', rep))
    (hne : m.toID ≠ r.id) : r' = r := by
  obtain ⟨res, hx, h⟩ := bind_eq_ok.mp h
  unfold Raft.step at hx
  rw [if_pos hne] at hx
  cases hx
  exact (congrArg Prod.fst (pure_eq_ok.mp h)).symm

namespace Raft

/-- Decide whether a campaign of this node is decided by a majority it belongs to. -/
def canCampaign (r : Raft) : Bool := r.conf.isVoter r.id || r.quorum ≠ 1

/-- A learner of a single voter does not campaign. -/
def campaignsSafely (r : Raft) : Call → Bool
  | .campaign => r.canCampaign
  | .step m => !(m.type = .timeoutNow || m.type = .preVoteResp) || r.canCampaign
  | _ => true

theorem sound_of_campaignsSafely {r : Raft} {c : Call} (h : r.campaignsSafely c)
    (hc : ∀ id cc, c ≠ .proposeConfChange id cc) (hs : ∀ m, c = .step m → m.type ≠ .snap) :
    r.Sound c := by
  have hcan : r.canCampaign → r.CanCampaign := by
    simp [canCampaign, CanCampaign]
  cases c with
  | campaign => exact hcan h
  | proposeConfChange id cc => exact absurd rfl (hc id cc)
  | step m =>
    have hne := hs m rfl
    unfold campaignsSafely at h
    cases ht : m.type <;> simp only [Sound, ht]
    case snap => exact absurd ht hne
    all_goals exact hcan (by simpa [ht] using h)
  | _ => trivial

end Raft

/-! ### Clusters -/

/-- What a disk may hold after a crash at any moment: a hard state that was handed over, not older
than the durable one, and entries that were handed over. -/
def Server.mayRecover (s : Server) (d : Disk) : Prop :=
  (∃ v ∈ s.disk.versions, d.hs = v.hs) ∧ ∀ e ∈ d.log, ∃ v ∈ s.disk.versions, e ∈ v.log

instance (s : Server) (d : Disk) : Decidable (s.mayRecover d) :=
  inferInstanceAs (Decidable (_ ∧ _))

/-- The call proposes a configuration change. -/
def Call.reconfigures : Call → Bool
  | .proposeConfChange _ _ => true
  | _ => false

theorem Call.ne_of_reconfigures (h : c.reconfigures = false) (id : ProposalID) (cc : ConfChangeV2) :
    c ≠ .proposeConfChange id cc := by
  rintro rfl
  exact absurd h (by simp [reconfigures])

/-- A fixed configuration: no configuration change, no snapshot, and crashes at any moment. A driver
acknowledges only what it was handed. -/
def fixedRegime : Regime := fun g ev =>
  match ev with
  | .call n c => (g n).admits c = true ∧ c.reconfigures = false
  | .crash n d _ => (g n).mayRecover d
  | .sendSnap _ _ _ => False

instance (g : Cluster) (ev : Event) : Decidable (fixedRegime g ev) :=
  match ev with
  | .call _ _ => inferInstanceAs (Decidable (_ ∧ _))
  | .crash n d _ => inferInstanceAs (Decidable ((g n).mayRecover d))
  | .sendSnap _ _ _ => inferInstanceAs (Decidable False)

/-- The events on which a learner of a single voter does not campaign. -/
def votersCampaign : Regime := fun g ev =>
  match ev with
  | .call n c => (g n).raft.campaignsSafely c = true
  | _ => True

instance (g : Cluster) (ev : Event) : Decidable (votersCampaign g ev) :=
  match ev with
  | .call _ _ => inferInstanceAs (Decidable (_ = true))
  | .crash _ _ _ | .sendSnap _ _ _ => inferInstanceAs (Decidable True)

/-- A fixed configuration in which learners of a single voter do not campaign. -/
def votesRegime : Regime := fun g ev => fixedRegime g ev ∧ votersCampaign g ev

instance (g : Cluster) (ev : Event) : Decidable (votesRegime g ev) :=
  inferInstanceAs (Decidable (_ ∧ _))

/-- The account of votes of a cluster. -/
structure VoteInv (S : Setup) (g : Cluster) : Prop where
  gate : ∀ n, (g n).GateInv
  past : ∀ n, (g n).PastInv
  fixed : ∀ n, (g n).Fixed S.conf
  node : ∀ n, VoteNode S.conf (fun k => (g k).sent) n (g n).raft
  sent : SentInv fun k => (g k).sent
  /-- Only nodes that could be built take part. -/
  inert : ∀ n, (S.cfg n).refusal ≠ none → (g n).raft.role = .follower

namespace VoteInv

variable {S : Setup} {g : Cluster} {n : NodeID}

theorem start (S : Setup) : VoteInv S S.start where
  gate n := Gate.Inv.start {}
  past n := Gate.Past.start (a := {}) (fun _ h => absurd h (by simp [Roster.start]))
    fun _ h => absurd h (by simp [Roster.start])
  fixed n := .start S n
  node n := by
    constructor
    case id => exact S.id_eq n
    all_goals simp [Roster.start, queued, fresh]
  sent := by simp [SentInv, Roster.start]
  inert _ _ := rfl

/-- One server changes: it says at least what it said before, and its own account holds. -/
theorem update (hi : VoteInv S g) (hn : (S.cfg n).refusal = none) {s : Server}
    (hg : s.GateInv) (hp : s.PastInv) (hf : s.Fixed S.conf) (hsub : (g n).sent ⊆ s.sent)
    (hnode : VoteNode S.conf (fun k => (g k).sent) n s.raft)
    (hnew : ∀ m ∈ s.sent, m ∈ (g n).sent ∨ m ∈ (g n).raft.queued) :
    VoteInv S (Function.update g n s) := by
  have hmono : ∀ k, (g k).sent ⊆ (Function.update g n s k).sent :=
    (Function.forall_update_iff g fun k s => (g k).sent ⊆ s.sent).mpr
      ⟨hsub, fun _ _ => List.Subset.refl _⟩
  have hcases : ∀ {P : NodeID → Server → Prop}, P n s → (∀ k, P k (g k)) →
      ∀ k, P k (Function.update g n s k) := fun hn hk =>
    (Function.forall_update_iff g _).mpr ⟨hn, fun k _ => hk k⟩
  exact
    { gate := hcases hg hi.gate
      past := hcases hp hi.past
      fixed := hcases hf hi.fixed
      node := hcases (P := fun k s' => VoteNode S.conf
          (fun k => (Function.update g n s k).sent) k s'.raft)
        (hnode.mono hmono) fun k => (hi.node k).mono hmono
      sent := hcases (P := fun k s' => ∀ m ∈ s'.sent,
          m.Accounted (fun k => (Function.update g n s k).sent) k)
        (fun m hm => ((hnew m hm).elim (hi.sent n m) ((hi.node n).said m)).mono hmono)
        fun k m hm => (hi.sent k m hm).mono hmono
      inert := hcases (P := fun k s => (S.cfg k).refusal ≠ none → s.raft.role = .follower)
        (fun h => absurd hn h) hi.inert }

theorem call (hi : VoteInv S g) (hn : (S.cfg n).refusal = none) {c : Call} {s' : Server}
    (hd : g.delivers c) (ha : (g n).admits c) (hc : ∀ id cc, c ≠ .proposeConfChange id cc)
    (hs : (g n).raft.campaignsSafely c) (hx : (g n).exec c = .ok (s', rep)) :
    VoteInv S (Function.update g n s') := by
  have hmark : (g n).admitsMark c := by
    cases c <;> first | exact ha | rfl
  have hdel : ∀ m, c = .step m → m ∈ (g m.fromID).sent := by
    rintro m rfl
    simpa [Cluster.delivers] using hd
  have hfix : c.Fixed S.conf := ⟨hc, fun m h => (hi.fixed _).sent m (hdel m h)⟩
  have hsound : (g n).raft.Sound c :=
    sound_of_campaignsSafely hs hc fun m h => (hi.sent _ m (hdel m h)).1.2
  have hgate := (hi.gate n).exec hmark hx
  have hpast := (hi.past n).exec (hi.gate n) hmark hx
  have hfixed := (hi.fixed n).exec hfix hx
  obtain ⟨r, hr, rfl⟩ := Server.exec_raft hx
  refine hi.update hn hgate hpast hfixed (Server.sent_subset_record _ _ _ _) ?_ fun m hm =>
    (Server.mem_sent_exec hx hm).imp_right fun h => mem_queued.mpr (.inl h)
  rw [Server.record_raft]
  by_cases hto : ∀ m, c = .step m → m.toID = n
  · exact (exec_executed hr).voteNode hsound hfix (fun m h => ⟨hdel m h, hto m h⟩) hi.sent
      (S.conf_eq n ▸ (S.cfg n).conf_wf) (hi.fixed n).node (hi.node n)
  · -- A message for somebody else is refused.
    push Not at hto
    obtain ⟨m, rfl, hne⟩ := hto
    rw [exec_misaddressed hr (by rw [(hi.node n).id]; exact hne)]
    exact hi.node n

/-- A node that comes back from a crash has no role, and stands by what it said. -/
theorem crash (hi : VoteInv S g) (hn : (S.cfg n).refusal = none) {d : Disk}
    {snap : SnapshotMeta} {r : Raft}
    (hd : (g n).mayRecover d) (hs : snap ∈ (g n).snaps)
    (hr : Raft.restore (S.cfg n) d.hs snap (d.log.filter (snap.index < ·.index)) = .ok r) :
    VoteInv S (Function.update g n ((g n).restarted r d snap)) := by
  obtain ⟨⟨v, hv, hhs⟩, hlog⟩ := hd
  have hatt : ∀ m ∈ (g n).sent, d.hs.Attests m := by
    intro m hm
    rw [hhs]
    rcases mem_cons.mp hv with rfl | hv
    · exact (hi.past n).stable m hm
    · obtain ⟨x, hx, rfl⟩ := mem_map.mp hv
      exact (hi.past n).inFlight m hm x hx
  have hnormal : Normal d.log := fun e he => by
    obtain ⟨v, hv, he⟩ := hlog e he
    exact (hi.fixed n).disk v hv e he
  have hfixed := (hi.fixed n).restarted hnormal hs hr
  obtain ⟨rfl, -, -⟩ := restore_eq hr
  refine hi.update hn (Gate.Inv.start d) (Gate.Past.start hatt ((hi.past n).oneVote.subset fun m hm =>
    mem_append_left _ hm)) hfixed (List.Subset.refl _) ?_ fun m hm => .inl hm
  have hnil : (recovered (S.cfg n) d.hs snap
      (d.log.filter (snap.index < ·.index))).queued = [] := rfl
  constructor
  case id => exact S.id_eq n
  case said => exact fun m hm => absurd (hnil ▸ hm : m ∈ []) (by simp)
  all_goals exact fun h => absurd h (by simp [Server.restarted, recovered, recomputeConf, setConf, fresh])

theorem happens (hi : VoteInv S g) (hR : votesRegime g ev) (h : Cluster.Happens S g ev g') :
    VoteInv S g' := by
  cases h with
  | call hn hd hx => exact hi.call hn hd hR.1.1 (Call.ne_of_reconfigures hR.1.2) hR.2 hx
  | crash hn hs hr => exact hi.crash hn hR.1 hs hr
  | sendSnap _ _ => exact absurd hR.1 id

end VoteInv

theorem Cluster.Happens.sent_subset (h : Happens S g ev g') (k : NodeID) :
    (g k).sent ⊆ (g' k).sent := by
  have hupdate : ∀ {n : NodeID} {s : Server}, (g n).sent ⊆ s.sent →
      (g k).sent ⊆ (Function.update g n s k).sent := fun hs =>
    (Function.forall_update_iff g fun k s => (g k).sent ⊆ s.sent).mpr
      ⟨hs, fun _ _ => List.Subset.refl _⟩ k
  cases h with
  | call _ _ hx =>
    obtain ⟨r, -, rfl⟩ := Server.exec_raft hx
    exact hupdate (Server.sent_subset_record _ _ _ _)
  | crash _ _ _ => exact hupdate (List.Subset.refl _)
  | sendSnap _ _ => exact hupdate (subset_append_left _ _)

theorem Cluster.Reaches.sent_subset {R : Regime} (h : Reaches S R g g') (k : NodeID) :
    (g k).sent ⊆ (g' k).sent :=
  Reaches.induction (P := fun g' => (g k).sent ⊆ (g' k).sent) (List.Subset.refl _)
    (fun _ _ _ hsub _ h => List.Subset.trans hsub (h.sent_subset k)) h

theorem VoteInv.reaches (hi : VoteInv S g) (h : Cluster.Reaches S votesRegime g g') :
    VoteInv S g' :=
  Cluster.Reaches.induction hi (fun _ _ _ hi hR h => hi.happens hR h) h

/-- Election safety: if a node leads in some term, now or later in the run, no other node leads in
that term. -/
theorem election_safety (S : Setup) {g₁ g₂ : Cluster} {a b : NodeID}
    (h₁ : Cluster.Reaches S votesRegime S.start g₁) (h₂ : Cluster.Reaches S votesRegime g₁ g₂)
    (ha : (g₁ a).raft.role = .leader) (hb : (g₂ b).raft.role = .leader)
    (hT : (g₁ a).raft.term = (g₂ b).raft.term) : a = b := by
  have hi₁ := (VoteInv.start S).reaches h₁
  have hi₂ := hi₁.reaches h₂
  have hea := ((hi₁.node a).elected ha).mono h₂.sent_subset
  have heb := (hi₂.node b).elected hb
  rw [hT] at hea
  have hnode : ∀ {g : Cluster} {n : NodeID}, VoteInv S g → (g n).raft.role = .leader → n ≠ 0 := by
    rintro g n hi hr rfl
    refine absurd (hi.inert 0 ?_) (by rw [hr]; simp)
    rw [Config.refusal, if_pos (S.id_eq 0)]
    simp
  refine hea.unique heb (fun v => ?_) ?_ (hnode hi₁ ha) (hnode hi₂ hb)
  · exact (hi₂.past v).oneVote.subset fun m hm => mem_append_left _ hm
  · simpa [Configuration.voterSet, toFinset_nonempty_iff] using S.voters_ne

/-- Voters 1 and 2. -/
def twoVoters : Setup where
  cfg n := { id := n, peers := [1, 2], electionTimeout := 10, heartbeatTimeout := 1 }
  conf := { voters := [1, 2] }
  id_eq _ := rfl
  conf_eq _ := rfl
  voters_ne := by simp

/-- Voter 1 and learner 2. -/
def voterAndLearner : Setup where
  cfg n :=
    { id := n, peers := [1, 2], learners := [2], electionTimeout := 10, heartbeatTimeout := 1 }
  conf := { voters := [1], learners := [2] }
  id_eq _ := rfl
  conf_eq _ := rfl
  voters_ne := by simp

/-- Node 1 asks for votes, node 2 grants its vote and crashes, and comes back from what was durable
when the vote was released; node 1 leads. -/
def electionOfOne : List Event :=
  [.call 1 .campaign, .call 1 .ready, .call 1 (.ackPersisted 1), .call 1 .ready,
    .call 2 (.step { type := .vote, fromID := 1, toID := 2, term := 1 }),
    .call 2 .ready, .call 2 (.ackPersisted 1), .call 2 .ready,
    .crash 2 { hs := { term := 1, vote := 1 } } {},
    .call 1 (.step { type := .voteResp, fromID := 2, toID := 1, term := 1, granted := true })]

theorem electionOfOne_safe : ∃ g, Cluster.Reaches twoVoters votesRegime twoVoters.start g ∧
    (g 1).raft.role = .leader ∧ (g 1).raft.term = 1 ∧
    ∀ b, (g b).raft.role = .leader → (g b).raft.term = 1 → 1 = b := by
  obtain ⟨g, hg, hq⟩ := Cluster.exists_reaches twoVoters votesRegime electionOfOne
    (fun g => (g 1).raft.role = .leader ∧ (g 1).raft.term = 1) (by decide +kernel)
  obtain ⟨hr, ht⟩ := of_decide_eq_true hq
  exact ⟨g, hg, hr, ht, fun b hb hT =>
    election_safety twoVoters hg .refl hr hb (ht.trans hT.symm)⟩

/-- A learner is elected by the size of the quorum alone, in the term of the only voter. -/
theorem two_leaders_of_learner_campaign : ∃ g,
    Cluster.Reaches voterAndLearner fixedRegime voterAndLearner.start g ∧
    (g 1).raft.role = .leader ∧ (g 2).raft.role = .leader ∧ (g 1).raft.term = (g 2).raft.term := by
  obtain ⟨g, hg, hq⟩ := Cluster.exists_reaches voterAndLearner fixedRegime
    [.call 1 .campaign, .call 2 .campaign]
    (fun g => (g 1).raft.role = .leader ∧ (g 2).raft.role = .leader ∧
      (g 1).raft.term = (g 2).raft.term) (by decide +kernel)
  exact ⟨g, hg, of_decide_eq_true hq⟩

end Rift
