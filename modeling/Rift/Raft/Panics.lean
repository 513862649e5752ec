import Rift.Raft.Membership

/-!
# Which calls cannot panic

Two panics of a node are ruled out by what the node knows about itself, not by what its caller does:
the lookup of its own slot among the peers, and the lookup of the mark that covers an index. Every
other part of a call avoids them outright, so that it is enough to look at the places where they are
raised.
-/

namespace Rift

/-- The computation does not end in the panic `p`. -/
def Avoids {α : Type} (p : Panic) (x : Outcome α) : Prop := x ≠ .error p

namespace Avoids

variable {α β : Type} {p q : Panic} {x : Outcome α}

theorem pure (a : α) : Avoids p (Pure.pure a : Outcome α) := by
  intro h
  cases h

theorem throw (h : q ≠ p) : Avoids p (MonadExcept.throw q : Outcome α) := by
  intro heq
  injection heq with heq
  exact h heq

theorem bind {f : α → Outcome β} (hx : Avoids p x) (hf : ∀ a, x = .ok a → Avoids p (f a)) :
    Avoids p (x >>= f) := by
  cases x with
  | error q =>
    intro h
    injection h with h
    exact hx (h ▸ rfl)
  | ok a => exact hf a rfl

theorem ite {c : Prop} [Decidable c] {y : Outcome α} (hx : Avoids p x) (hy : Avoids p y) :
    Avoids p (if c then x else y) := by
  split_ifs
  · exact hx
  · exact hy

theorem foldlM {f : α → β → Outcome α} (hf : ∀ a b, Avoids p (f a b)) (bs : List β) (a : α) :
    Avoids p (bs.foldlM f a) := by
  induction bs generalizing a with
  | nil => exact .pure a
  | cons b bs ih =>
    rw [List.foldlM_cons]
    exact (hf a b).bind fun a' _ => ih a'

theorem mapM {f : β → Outcome α} (hf : ∀ b, Avoids p (f b)) (bs : List β) :
    Avoids p (bs.mapM f) := by
  induction bs with
  | nil => exact .pure []
  | cons b bs ih =>
    rw [List.mapM_cons]
    exact (hf b).bind fun a _ => ih.bind fun as _ => .pure (a :: as)

end Avoids

/-- The panics that are up to what a node knows about itself. -/
def Panic.guarded : Panic → Bool
  | .selfNotPeer | .marksUncovered => true
  | _ => false

theorem Panic.guarded_ne {p q : Panic} (hp : p.guarded) (hq : q.guarded = false) : q ≠ p := by
  rintro rfl
  exact absurd (hp.symm.trans hq) (by simp)

namespace Raft

variable {r r' : Raft} {p : Panic} {m : Message}

/-! ### A node's own slot -/

/-- The node has a slot of its own among its peers. -/
def knowsSelf (r : Raft) : Bool := (r.peer? r.id).isSome

theorem peer?_isSome_iff {n : NodeID} : (r.peer? n).isSome ↔ n ∈ r.peers.map (·.id) := by
  simp [peer?, List.find?_isSome, List.mem_map]

theorem knowsSelf_of_ids (h : r.knowsSelf) (hid : r'.id = r.id)
    (hids : r'.peers.map (·.id) = r.peers.map (·.id)) : r'.knowsSelf := by
  unfold knowsSelf at h ⊢
  rw [peer?_isSome_iff] at h ⊢
  rwa [hid, hids]

theorem knowsSelf_withPeer (h : r.knowsSelf) (n : NodeID) {f : Peer → Peer}
    (hf : ∀ p, (f p).id = p.id) : (r.withPeer n f).knowsSelf :=
  knowsSelf_of_ids h rfl (withPeer_ids r n hf)

theorem setSelf_avoids (f : Peer → Peer) (h : p = .selfNotPeer → r.knowsSelf) :
    Avoids p (r.setSelf f) := by
  unfold setSelf
  split_ifs with hs
  · exact .pure _
  · exact .throw fun heq => hs (h heq.symm)

/-! ### The parts of a call -/

section Guarded

variable (hp : p.guarded)
include hp

theorem suffixFrom_avoids (r : Raft) (i : ℕ) : Avoids p (r.suffixFrom i) := by
  unfold suffixFrom
  exact .ite (.throw (Panic.guarded_ne hp rfl)) (.ite (.pure _) (.pure _))

theorem sendAppend_avoids (r : Raft) (dest : NodeID) : Avoids p (r.sendAppend dest) := by
  unfold sendAppend
  split
  · exact .pure r
  · rename_i peer _
    dsimp only
    generalize (if peer.nextIndex < 1 then 1 else peer.nextIndex) = next
    split_ifs
    · exact .pure _
    · exact (suffixFrom_avoids hp r next).bind fun _ _ => .pure _
    · exact .pure _

theorem broadcastAppend_avoids (r : Raft) : Avoids p r.broadcastAppend :=
  Avoids.foldlM (fun r n => .ite (.pure r) (sendAppend_avoids hp r n)) _ r

theorem appendEntries_avoids (r : Raft) (es : List Entry) : Avoids p (r.appendEntries es) := by
  refine (Avoids.foldlM (fun r e => ?_) es r).bind fun _ _ => .pure _
  exact .ite (.throw (Panic.guarded_ne hp rfl)) (.pure _)

theorem storeEntry_avoids (r : Raft) (e : Entry) : Avoids p (r.storeEntry e) := by
  have htrunc : Avoids p (r.truncateFrom e.index) := by
    unfold truncateFrom
    exact .ite (.pure r) (.ite (.throw (Panic.guarded_ne hp rfl))
      (.ite (.throw (Panic.guarded_ne hp rfl)) (.pure _)))
  unfold storeEntry
  split_ifs
  · exact .pure r
  · exact htrunc.bind fun r₁ _ => appendEntries_avoids hp r₁ [e]
  · exact appendEntries_avoids hp r [e]

theorem send_avoids (r : Raft) (m : Message) : Avoids p (r.send m) := by
  unfold send
  split
  · exact .pure _
  · exact .pure _
  · exact .pure _
  · exact .throw (Panic.guarded_ne hp rfl)

/-! ### Campaigns -/

section

variable (h : p = .selfNotPeer → r.knowsSelf)
include h

theorem becomeLeader_avoids : Avoids p r.becomeLeader := by
  refine (setSelf_avoids _ fun heq => ?_).bind fun r₁ _ =>
    (appendEntries_avoids hp r₁ _).bind fun r₂ _ => broadcastAppend_avoids hp _
  exact knowsSelf_of_ids (h heq) rfl (by simp [takeLead])

theorem forceCampaign_avoids : Avoids p r.forceCampaign := by
  have hcand : p = .selfNotPeer →
      (r.takeCandidacy.setTermAndVote (r.term + 1) r.id).knowsSelf := by
    intro heq
    refine knowsSelf_of_ids (h heq) (setTermAndVote_proj _ _ _ Raft.id (by intros; rfl)) ?_
    rw [setTermAndVote_proj _ _ _ Raft.peers (by intros; rfl)]
    simp [takeCandidacy]
  refine (setSelf_avoids _ hcand).bind fun r₁ h₁ => ?_
  obtain ⟨hk, rfl⟩ := setSelf_eq h₁
  split_ifs
  · exact becomeLeader_avoids hp fun _ => knowsSelf_withPeer hk _ fun _ => rfl
  · exact .pure _

theorem preCampaign_avoids : Avoids p r.preCampaign := by
  have hpre : p = .selfNotPeer → (r.setPreVoting true).takePreCandidacy.knowsSelf := fun heq =>
    knowsSelf_of_ids (h heq) rfl (by simp [takePreCandidacy, setPreVoting])
  refine (setSelf_avoids _ hpre).bind fun r₁ h₁ => ?_
  obtain ⟨hk, rfl⟩ := setSelf_eq h₁
  split_ifs
  · refine forceCampaign_avoids hp fun _ => ?_
    exact knowsSelf_of_ids (knowsSelf_withPeer hk _
      (f := fun p => { p with preGranted := true }) fun _ => rfl) rfl rfl
  · exact Avoids.foldlM (fun r n => .ite (.pure r) (send_avoids hp r _)) _ _

theorem campaign_avoids : Avoids p r.campaign := by
  unfold campaign
  split_ifs
  · exact preCampaign_avoids hp h
  · exact forceCampaign_avoids hp h

end

theorem tick_avoids (h : p = .selfNotPeer → r.conf.isVoter r.id → r.knowsSelf) :
    Avoids p r.tick := by
  have hdue : Avoids p (electionDue { r with electionElapsed := r.electionElapsed + 1 }) := by
    unfold electionDue
    split_ifs with hv
    · exact campaign_avoids hp fun heq => h heq hv.2
    · exact .pure _
  unfold tick
  split
  · exact hdue
  · exact hdue
  · unfold heartbeatDue
    dsimp only
    split_ifs
    · exact broadcastAppend_avoids hp _
    · exact .pure _

/-! ### Messages -/

theorem stepVoteResp_avoids (h : p = .selfNotPeer → r.role = .candidate → r.knowsSelf) :
    Avoids p (r.stepVoteResp m) := by
  unfold stepVoteResp
  split_ifs with hr
  · exact .pure r
  · exact .pure r
  · push Not at hr
    unfold settle
    split_ifs
    · refine becomeLeader_avoids hp fun heq => ?_
      refine knowsSelf_withPeer (h heq hr.1) _ fun _ => ?_
      split_ifs <;> rfl
    · exact .pure _
    · exact .pure _

theorem stepPreVoteResp_avoids (h : p = .selfNotPeer → r.knowsSelf) :
    Avoids p (r.stepPreVoteResp m) := by
  unfold stepPreVoteResp
  dsimp only
  split_ifs
  · exact .pure r
  · exact .pure r
  · exact .pure r
  · refine forceCampaign_avoids hp fun heq => ?_
    exact knowsSelf_of_ids (knowsSelf_withPeer (h heq) m.fromID
      (f := fun p => { p with preGranted := true }) fun _ => rfl) rfl rfl
  · exact .pure _

theorem stepAppResp_avoids (r : Raft) (m : Message) : Avoids p (r.stepAppResp m) := by
  unfold stepAppResp
  split
  · exact .pure r
  · split
    · exact .pure r
    · split
      · refine Avoids.bind ?_ fun _ _ => .pure _
        exact .ite (send_avoids hp _ _) (.pure _)
      · exact sendAppend_avoids hp _ _

theorem stepApp_avoids (hack : ∀ r₁, m.term = r.term ∨ r.term < m.term →
      (r.followLeader m).matchesLog m.prevLogIndex m.prevLogTerm →
      m.entries.foldlM storeEntry (r.followLeader m) = .ok r₁ →
      Avoids p ((r₁.commitUpTo m.leaderCommit (m.prevLogIndex + m.entries.length)).acknowledge m
        (m.prevLogIndex + m.entries.length))) : Avoids p (r.stepApp m) := by
  unfold stepApp
  split
  · exact .pure _
  · rename_i hge
    dsimp only
    split
    · exact .pure _
    · rename_i hm
      refine (Avoids.foldlM (storeEntry_avoids hp) _ _).bind fun r₁ h₁ => ?_
      exact hack r₁ (by omega) (by simpa using hm) h₁

omit hp in
/-- A snapshot avoids what the acknowledgement of a log that covers it avoids. -/
theorem stepSnap_avoids (hack : m.term = r.term ∨ r.term < m.term →
      m.snapIndex ≤ (r.followLeader m).commitIndex →
      Avoids p ((r.followLeader m).acknowledge m (r.followLeader m).lastIndex)) :
    Avoids p (r.stepSnap m) := by
  unfold stepSnap
  split
  · exact .pure _
  · rename_i hge
    dsimp only
    split
    · exact hack (by omega) ‹_›
    · split
      · exact .pure _
      · exact .pure _

theorem dispatch_avoids (happ : m.type = .app → Avoids p (r.stepApp m))
    (hsnap : m.type = .snap → Avoids p (r.stepSnap m))
    (hcand : p = .selfNotPeer → r.role = .candidate → r.knowsSelf)
    (hcamp : p = .selfNotPeer → m.type = .timeoutNow ∨ m.type = .preVoteResp → r.knowsSelf) :
    Avoids p (r.dispatch m) := by
  unfold dispatch
  split
  · exact .pure _
  · exact stepVoteResp_avoids hp hcand
  · exact happ ‹_›
  · exact (stepAppResp_avoids hp r m).bind fun _ _ => .pure _
  · dsimp only
    split_ifs
    · exact broadcastAppend_avoids hp _
    · exact .pure r
  · exact .pure _
  · unfold stepPreVote
    exact send_avoids hp r _
  · exact stepPreVoteResp_avoids hp fun heq => hcamp heq (.inr ‹_›)
  · exact hsnap ‹_›
  · unfold stepTimeoutNow
    split_ifs
    · exact .pure r
    · exact forceCampaign_avoids hp fun heq => hcamp heq (.inl ‹_›)

/-! ### Calls -/

theorem appendAndBroadcast_avoids (r : Raft) (type : EntryType) (id : ProposalID) (data : Bytes) :
    Avoids p (r.appendAndBroadcast type id data) :=
  (appendEntries_avoids hp r _).bind fun r₁ _ => broadcastAppend_avoids hp r₁

theorem propose_avoids (r : Raft) (id : ProposalID) (data : Bytes) :
    Avoids p (r.propose id data) := by
  unfold propose
  refine .ite (.pure _) (.ite (.pure _) (.ite (.pure _) ?_))
  exact (appendAndBroadcast_avoids hp r _ _ _).bind fun _ _ => .pure _

theorem proposeConfChange_avoids (r : Raft) (id : ProposalID) (cc : ConfChangeV2) :
    Avoids p (r.proposeConfChange id cc) := by
  unfold proposeConfChange
  refine .ite (.pure _) (.ite (.pure _) (.ite (.pure _) (.ite (.pure _) ?_)))
  split
  · refine .ite (.pure _) ?_
    split
    · exact .pure _
    · split
      · exact .pure _
      · exact (appendAndBroadcast_avoids hp r _ _ _).bind fun _ _ => .pure _
  · exact .pure _

theorem readIndex_avoids (r : Raft) (ctx : Bytes) : Avoids p (r.readIndex ctx) := by
  unfold readIndex
  refine .ite (.pure _) ?_
  split
  · exact (broadcastAppend_avoids hp _).bind fun _ _ => .pure _
  · exact .ite (.pure _) (.pure _)
  · exact .pure _

theorem transferLeadership_avoids (r : Raft) (target : NodeID) :
    Avoids p (r.transferLeadership target) := by
  unfold transferLeadership
  refine .ite (.throw (Panic.guarded_ne hp rfl)) ?_
  split
  · exact .pure r
  · exact .ite (.pure r) (.ite (.pure r) (.ite (send_avoids hp _ _) (sendAppend_avoids hp _ _)))

theorem ready_avoids (r : Raft) : Avoids p r.ready := by
  have hunhanded : Avoids p r.unhanded := by
    unfold unhanded
    exact .ite (suffixFrom_avoids hp r _) (.pure _)
  have hunapplied : Avoids p r.unapplied := by
    refine Avoids.mapM (fun i => ?_) _
    split
    · exact .pure _
    · exact .throw (Panic.guarded_ne hp rfl)
  refine hunhanded.bind fun _ _ => hunapplied.bind fun _ _ => ?_
  exact .ite (.pure _) (.pure _)

end Guarded

/-- The lookups of its own slot that a call makes of a node: a campaign, however it is asked for,
needs one. -/
def selfKnown (r : Raft) : Call → Bool
  | .campaign => r.knowsSelf
  | .step m => !(m.type = .timeoutNow || m.type = .preVoteResp) || r.knowsSelf
  | _ => true

/-- Noting a term leaves the identities alone, and makes nobody a candidate. -/
theorem observeTerm_ids (r : Raft) (m : Message) :
    (r.observeTerm m).id = r.id ∧ (r.observeTerm m).peers = r.peers ∧
      ((r.observeTerm m).role = r.role ∨ (r.observeTerm m).role = .follower) := by
  unfold observeTerm becomeFollower
  split_ifs
  · obtain ⟨_, _, _, _, heq⟩ := r.setTermAndVote_eq m.term 0
    rw [heq]
    exact ⟨rfl, rfl, .inr rfl⟩
  · exact ⟨rfl, rfl, .inr rfl⟩
  · exact ⟨rfl, rfl, .inl rfl⟩

/-- A call avoids a guarded panic if its append or snapshot does, and if the node has a slot of its
own where the call needs one: as a voter whose timer fires, as a candidate, or for a campaign that
is asked for. -/
theorem exec_avoids {c : Call} (hp : p.guarded)
    (happ : ∀ m, c = .step m → m.type = .app → Avoids p ((r.observeTerm m).stepApp m))
    (hsnap : ∀ m, c = .step m → m.type = .snap → Avoids p ((r.observeTerm m).stepSnap m))
    (hself : p = .selfNotPeer → r.selfKnown c ∧ (r.conf.isVoter r.id → r.knowsSelf) ∧
      (r.role = .candidate → r.knowsSelf)) : Avoids p (r.exec c) := by
  cases c with
  | setElectionTimeout n => exact .pure _
  | tick => exact (tick_avoids hp fun heq => (hself heq).2.1).bind fun _ _ => .pure _
  | campaign =>
    refine Avoids.bind ?_ fun _ _ => .pure _
    unfold campaignNow
    split_ifs
    · exact .pure _
    · exact (campaign_avoids hp fun heq => (hself heq).1).bind fun _ _ => .pure _
  | propose id data => exact (propose_avoids hp r id data).bind fun _ _ => .pure _
  | proposeConfChange id cc => exact (proposeConfChange_avoids hp r id cc).bind fun _ _ => .pure _
  | step m =>
    refine Avoids.bind ?_ fun _ _ => .pure _
    unfold Raft.step
    split_ifs
    · exact .pure _
    · refine Avoids.bind ?_ fun _ _ => .pure _
      obtain ⟨hid, hpeers, hrole⟩ := r.observeTerm_ids m
      have hknows : r.knowsSelf → (r.observeTerm m).knowsSelf := fun h =>
        knowsSelf_of_ids h hid (by rw [hpeers])
      refine dispatch_avoids hp (happ m rfl) (hsnap m rfl) (fun heq hc => hknows ?_)
        fun heq ht => hknows ?_
      · rcases hrole with hrole | hrole
        · exact (hself heq).2.2 (hrole.symm.trans hc)
        · exact absurd (hrole.symm.trans hc) (by simp)
      · have hk := (hself heq).1
        simp only [selfKnown, Bool.or_eq_true, Bool.not_eq_true', Bool.or_eq_false_iff,
          decide_eq_false_iff_not] at hk
        exact hk.resolve_left fun hne => ht.elim hne.1 hne.2
  | readIndex ctx => exact (readIndex_avoids hp r ctx).bind fun _ _ => .pure _
  | transferLeadership n => exact (transferLeadership_avoids hp r n).bind fun _ _ => .pure _
  | ready => exact (ready_avoids hp r).bind fun _ _ => .pure _
  | ackPersisted n => exact .pure _
  | ackSnapshot n => exact .pure _
  | ackApplied i => exact .pure _
  | compact i =>
    simp only [Raft.exec]
    split
    · exact .pure _
    · exact .pure _

end Raft

end Rift
