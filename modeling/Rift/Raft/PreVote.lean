import Rift.Raft.HardState

/-!
# A settled follower and the pre-votes of an abandoned round

A pre-vote round asks whether a campaign would succeed before the term is touched. The round is
opened by `preCampaign` and closed by the campaign it leads to; an append or a snapshot of a live
leader demotes the node but leaves the round open. A follower without an open round stays in its
term, whatever pre-votes arrive; one whose round was left open is pulled out of it by a late grant.
-/

namespace Rift

variable {c : Call}

namespace Raft

variable {r r' : Raft} {m : Message} {t : ℕ}

/-- The election timer does not fire, nobody asks for a campaign, and no message of a higher term
arrives; the term of a pre-vote message is one that nobody is in. -/
def undisturbed (r : Raft) : Call → Bool
  | .campaign => false
  | .tick => !(r.randomizedElectionTimeout ≤ r.electionElapsed + 1 && r.conf.isVoter r.id)
  | .step m =>
    m.type ≠ .timeoutNow && (m.term ≤ r.term || m.type = .preVote || m.type = .preVoteResp)
  | _ => true

/-- What an election changes: the role, the term and the pre-vote round. -/
def standing (r : Raft) : Role × ℕ × Bool := (r.role, r.term, r.preVoting)

/-- A follower of term `t` without a pre-vote round. -/
structure Follows (t : ℕ) (r : Raft) : Prop where
  role : r.role = .follower
  term : r.term = t
  noRound : r.preVoting = false

theorem Follows.of_eq (h : r.Follows t) (heq : r'.standing = r.standing) : r'.Follows t := by
  simp only [standing, Prod.mk.injEq] at heq
  exact ⟨heq.1.trans h.role, heq.2.1.trans h.term, heq.2.2.trans h.noRound⟩

theorem sendGatedOn_standing (r : Raft) (mark snapMark : ℕ) (m : Message) :
    (r.sendGatedOn mark snapMark m).standing = r.standing := by
  obtain ⟨_, _, heq⟩ := r.sendGatedOn_eq mark snapMark m
  rw [heq]
  rfl

theorem acknowledge_standing {i : ℕ} (h : r.acknowledge m i = .ok r') :
    r'.standing = r.standing := by
  obtain ⟨_, _, -, rfl⟩ := acknowledge_eq h
  exact sendGatedOn_standing _ _ _ _

theorem followLeader_standing (hle : m.term ≤ r.term) :
    (r.followLeader m).standing = (.follower, r.term, r.preVoting) := by
  have hrole := followLeader_role hle
  have hrest := followLeader_proj hle (fun r => (r.term, r.preVoting)) (by intros; rfl)
  simp only [Prod.mk.injEq] at hrest
  simp [standing, hrole, hrest]

/-- An append of the current term demotes the node. It does not close a pre-vote round. -/
theorem stepApp_standing (hterm : m.term = r.term) (h : r.stepApp m = .ok r') :
    r'.standing = (.follower, r.term, r.preVoting) := by
  have hfollow := followLeader_standing hterm.le
  unfold stepApp at h
  rw [if_neg hterm.not_lt] at h
  generalize r.followLeader m = r₁ at h hfollow
  dsimp only at h
  split_ifs at h
  · cases h
    exact (sendGatedOn_standing _ _ _ _).trans hfollow
  · obtain ⟨r₂, hs, h⟩ := bind_eq_ok.mp h
    have hstore : r₂.standing = r₁.standing := storeEntries_proj standing hs (by intros; rfl)
    refine (acknowledge_standing h).trans (Eq.trans ?_ (hstore.trans hfollow))
    split_ifs <;> rfl

theorem stepSnap_standing (hterm : m.term = r.term) (h : r.stepSnap m = .ok r') :
    r'.standing = (.follower, r.term, r.preVoting) := by
  have hfollow := followLeader_standing hterm.le
  unfold stepSnap at h
  rw [if_neg hterm.not_lt] at h
  generalize r.followLeader m = r₁ at h hfollow
  dsimp only at h
  split_ifs at h
  · exact (acknowledge_standing h).trans hfollow
  · split at h
    · cases h
      exact (sendGatedOn_standing _ _ _ _).trans hfollow
    · rename_i conf _
      cases h
      obtain ⟨_, _, _, _, -, heq⟩ := r₁.dropAcks.installSnapshot_eq m conf
      rw [sendGatedOn_standing, heq]
      exact hfollow

theorem observeTerm_standing (ht : m.type = .app ∨ m.type = .snap) (hle : r.term ≤ m.term) :
    (r.observeTerm m).term = m.term ∧ (r.observeTerm m).preVoting = r.preVoting := by
  rcases hle.lt_or_eq with hlt | heq
  · have hb : r.observeTerm m = r.becomeFollower m.term 0 := by
      unfold observeTerm
      rw [if_pos]
      rcases ht with ht | ht <;> simp [hlt, ht]
    rw [hb, becomeFollower, if_pos hlt]
    obtain ⟨_, _, _, _, heq⟩ := r.setTermAndVote_eq m.term 0
    rw [heq]
    exact ⟨rfl, rfl⟩
  · unfold observeTerm
    rw [if_neg fun h => absurd h.1 heq.not_lt]
    exact ⟨heq, rfl⟩

/-- Once it has handled an append or a snapshot of its term, a node without a pre-vote round follows
that term. -/
theorem follows_of_step (hto : m.toID = r.id) (ht : m.type = .app ∨ m.type = .snap)
    (hle : r.term ≤ m.term) (hv : r.preVoting = false) {rep : Reply}
    (h : r.exec (.step m) = .ok (r', rep)) : r'.Follows m.term := by
  obtain ⟨hterm, hpre⟩ := observeTerm_standing ht hle
  obtain ⟨res, hx, h⟩ := bind_eq_ok.mp h
  unfold step at hx
  rw [if_neg (by simpa using hto)] at hx
  obtain ⟨r₁, hd, hx⟩ := bind_eq_ok.mp hx
  cases hx
  obtain ⟨rfl, -⟩ := Prod.mk.inj (pure_eq_ok.mp h)
  have hstand : r₁.standing = (.follower, m.term, false) := by
    rcases ht with ht | ht <;> simp only [dispatch, ht] at hd
    · rw [stepApp_standing hterm.symm hd, hterm, hpre, hv]
    · rw [stepSnap_standing hterm.symm hd, hterm, hpre, hv]
  simp only [standing, Prod.mk.injEq] at hstand
  exact ⟨hstand.1, hstand.2.1, hstand.2.2⟩

theorem Follows.not_elects (h : r.Follows t) (hu : r.undisturbed c) : ¬ r.Elects c := by
  cases c <;> simp_all [undisturbed, Elects, h.noRound, imp_iff_not_or]

end Raft

open Raft

/-- No effect of an undisturbed call moves a follower: what it does to its role, its term and its
pre-vote round is what an election does. -/
theorem Micro.follows {o r r' : Raft} {t : ℕ} (h : Micro c o r r') (ho : o.Follows t)
    (hu : o.undisturbed c) (hr : r.Follows t) : r'.Follows t := by
  have hrole := hr.role
  cases h with
  | soft h => exact hr.of_eq (h.proj standing fun _ => rfl)
  | demote => exact ⟨rfl, hr.term, hr.noRound⟩
  | bump m hc hlt ht =>
    simp only [hc, undisturbed, ht, Bool.and_eq_true, Bool.or_eq_true, decide_eq_true_eq,
      or_false, ho.term] at hu
    have := hr.term
    omega
  | preAsk _ he => exact absurd he (ho.not_elects hu)
  | preEnd => exact ⟨hrole, hr.term, rfl⟩
  | campaign _ _ he => exact absurd he (ho.not_elects hu)
  | grant m _ _ _ _ _ =>
    rw [setVote_eq]
    refine hr.of_eq ((sendGatedOn_standing _ _ _ _).trans ?_)
    obtain ⟨_, _, _, _, heq⟩ := r.setTermAndVote_eq r.term m.fromID
    rw [heq]
    rfl
  | reveal msg _ => exact hr.of_eq (sendGatedOn_standing _ _ _ _)
  | count m _ _ _ hc _ => simp [hc] at hrole
  | lead hc _ _ => simp [hc] at hrole
  | append e hl _ _ _ _ => simp [hl] at hrole
  | accept r₁ _ m _ _ _ _ _ _ hs ha =>
    exact hr.of_eq ((acknowledge_standing ha).trans
      ((commitUpTo_proj _ _ _ standing fun _ _ => rfl).trans
        (storeEntries_proj standing hs (by intros; rfl))))
  | covered _ m _ _ _ _ _ _ _ ha => exact hr.of_eq (acknowledge_standing ha)
  | install r₁ m conf _ _ _ _ _ _ _ _ _ hr' =>
    subst hr'
    obtain ⟨_, _, _, _, -, heq⟩ := r.installSnapshot_eq m conf
    exact hr.of_eq (by rw [sendGatedOn_standing, heq]; rfl)
  | ackApplied i _ =>
    unfold Raft.ackApplied
    split_ifs <;> exact hr.of_eq rfl
  | _ => exact hr.of_eq rfl

theorem Raft.Follows.exec {r r' : Raft} {t : ℕ} {rep : Reply} (h : r.Follows t)
    (hu : r.undisturbed c) (hx : r.exec c = .ok (r', rep)) : r'.Follows t :=
  (exec_executed hx).keeps (fun hd => h.of_eq (hd.proj standing fun _ => rfl))
    (fun hm => hm.follows h hu) (fun _ _ _ => h.of_eq rfl) h

namespace Server

variable {s₀ s₁ s : Server} {m : Message} {rep : Reply}

/-- A node that handles an append or a snapshot of its term while no pre-vote round of its own is
open follows that term through every run of undisturbed calls: no pre-vote makes it a candidate or
raises its term. -/
theorem follower_stays (hto : m.toID = s₀.raft.id) (ht : m.type = .app ∨ m.type = .snap)
    (hle : s₀.raft.term ≤ m.term) (hv : s₀.raft.preVoting = false)
    (hx : s₀.exec (.step m) = .ok (s₁, rep))
    (hrun : Relation.ReflTransGen (Step fun s c => s.raft.undisturbed c) s₁ s) :
    s.raft.role = .follower ∧ s.raft.term = m.term := by
  have hfollows : s.raft.Follows m.term := by
    induction hrun with
    | refl =>
      obtain ⟨r, hr, rfl⟩ := exec_raft hx
      rw [record_raft]
      exact Raft.follows_of_step hto ht hle hv hr
    | tail _ hstep ih =>
      obtain ⟨c, rep', hu, hc⟩ := hstep
      obtain ⟨r, hr, rfl⟩ := exec_raft hc
      rw [record_raft]
      exact ih.exec hu hr
  exact ⟨hfollows.role, hfollows.term⟩

/-- The first of three voters, with pre-votes on. -/
def cautiousFollower : Server := { raft := Raft.fresh { firstOfThree with preVote := true } }

theorem cautiousFollower_starts : cautiousFollower.Starts :=
  @Starts.new { firstOfThree with preVote := true } _ rfl

/-- A granted pre-vote for a campaign in term 2. -/
def preVoteGrant (voter : NodeID) : Call :=
  .step { type := .preVoteResp, fromID := voter, toID := 1, term := 2, granted := true }

theorem follower_stays_after_grants : ∃ s₁ s : Server,
    (∃ rep, cautiousFollower.exec heartbeatOfOne = .ok (s₁, rep)) ∧
      Relation.ReflTransGen (Step fun s c => s.raft.undisturbed c) s₁ s ∧
      s.raft.role = .follower ∧ s.raft.term = 1 := by
  obtain ⟨s₁, rep, hx, hq⟩ := exists_exec heartbeatOfOne
    (fun s => (s.run (fun s c => s.raft.undisturbed c) [preVoteGrant 2, preVoteGrant 3]).any
      fun _ => true) (by decide +kernel : (cautiousFollower.run _ _).any _ = true)
  obtain ⟨s, hrun, -⟩ := exists_run _ _ hq
  exact ⟨s₁, s, ⟨rep, hx⟩, hrun,
    follower_stays rfl (.inl rfl) (by decide +kernel) rfl hx hrun⟩

/-- The election timer opens a round, an append of the leader arrives, and then one grant of the
round: the follower campaigns in the next term. -/
theorem abandoned_round_wins : ∃ (s₀ s₁ s : Server) (m : Message),
    cautiousFollower.Starts ∧
      Relation.ReflTransGen (Step fun s c => s.admits c) cautiousFollower s₀ ∧
      s₀.raft.preVote = true ∧ m.type = .app ∧ m.toID = s₀.raft.id ∧ m.term = s₀.raft.term ∧
      (∃ rep, s₀.exec (.step m) = .ok (s₁, rep)) ∧ s₁.raft.role = .follower ∧
      s₁.raft.undisturbed (preVoteGrant 3) = true ∧
      (∃ rep, s₁.exec (preVoteGrant 3) = .ok (s, rep)) ∧
      s.raft.role = .candidate ∧ s₁.raft.term < s.raft.term := by
  obtain ⟨s₀, hrun, hq⟩ := exists_run (p := admits) (s := cautiousFollower)
    (heartbeatOfOne :: List.replicate 10 .tick)
    (fun s => s.raft.preVote && 1 = s.raft.id && 1 = s.raft.term &&
      (s.run (fun _ _ => true) [heartbeatOfOne]).any fun s₁ =>
        s₁.raft.role = .follower && s₁.raft.undisturbed (preVoteGrant 3) &&
        (s₁.run (fun _ _ => true) [preVoteGrant 3]).any fun s₂ =>
          s₂.raft.role = .candidate && s₁.raft.term < s₂.raft.term) (by decide +kernel)
  simp only [Bool.and_eq_true, decide_eq_true_eq] at hq
  obtain ⟨⟨⟨hpre, hid⟩, hterm⟩, hq⟩ := hq
  obtain ⟨s₁, rep₁, hx₁, hq⟩ := exists_exec heartbeatOfOne _ hq
  simp only [Bool.and_eq_true, decide_eq_true_eq] at hq
  obtain ⟨s, rep₂, hx₂, hq₂⟩ := exists_exec (preVoteGrant 3) _ hq.2
  simp only [Bool.and_eq_true, decide_eq_true_eq] at hq₂
  exact ⟨s₀, s₁, s, _, cautiousFollower_starts, hrun, hpre, rfl, hid, hterm, ⟨rep₁, hx₁⟩, hq.1.1,
    hq.1.2, ⟨rep₂, hx₂⟩, hq₂⟩

end Server

end Rift
