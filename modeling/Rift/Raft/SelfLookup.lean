import Rift.Raft.CommitIndex
import Rift.Raft.Panics

/-!
# A node's own slot among its peers

A campaign writes to the slot of the node itself. The configuration that names the peers may have
dropped the node by then. The election timer asks first; `Campaign`, a `MsgTimeoutNow` and the last
pre-vote of a round do not. Where those reach only nodes that are still members, no node ever looks
itself up in vain: voters are peers, and a candidate's configuration does not change under it.
-/

namespace Rift

namespace Raft

variable {r r' : Raft} {c : Call} {i : ℕ}

theorem Contiguous.takeWhile_index_le (h : r.Contiguous) (hi : r.snapIndex ≤ i) :
    r.log.takeWhile (·.index ≤ i) = r.log.take (i - r.snapIndex) := by
  have hlist : ∀ (log : List Entry) (s : ℕ), s ≤ i →
      (∀ j e, log[j]? = some e → e.index = s + j + 1) →
      log.takeWhile (·.index ≤ i) = log.take (i - s) := by
    intro log
    induction log with
    | nil => simp
    | cons e log ih =>
      intro s hs hlog
      have he : e.index = s + 1 := hlog 0 e rfl
      rcases hs.eq_or_lt with rfl | hlt
      · simp [he]
      · have hrest := ih (s + 1) hlt fun j e' hj => by
          have := hlog (j + 1) e' hj
          omega
        rw [List.takeWhile_cons_of_pos (by simpa [he] using hlt), hrest,
          show i - s = (i - (s + 1)) + 1 by omega, List.take_succ_cons]
  exact hlist r.log r.snapIndex hi h

/-- A compaction keeps the configuration: what it drops of the log goes into the base. -/
theorem dropThrough_conf {conf : Configuration} (h : r.Contiguous) (ht : Tracks r)
    (hi : r.snapIndex < i) (hc : r.configurationAt i = .ok conf) (t : ℕ) :
    (r.dropThrough i t conf).conf = r.conf := by
  have hconf : conf = confOf r.baseConf (r.log.take (i - r.snapIndex)) := by
    unfold configurationAt at hc
    rw [if_neg (by omega), if_neg (by omega), h.takeWhile_index_le hi.le] at hc
    split_ifs at hc
    injection hc with hc
    exact hc.symm
  have hdrop : (r.dropThrough i t conf).conf = confOf conf (r.log.drop (i - r.snapIndex)) :=
    recomputeConf_conf _
  rw [hdrop, hconf, ← confOf_append, List.take_append_drop, ht.conf]

/-- What a node knows about itself between calls: the peers follow the configuration and that
follows the log, and a candidate is one of its own peers. -/
structure SelfHeld (r : Raft) : Prop where
  contiguous : r.Contiguous
  tracks : Tracks r
  candidate : r.role = .candidate → r.knowsSelf

theorem SelfHeld.knowsSelf_of_isVoter (h : r.SelfHeld) (hv : r.conf.isVoter r.id) :
    r.knowsSelf := by
  have hmem : r.id ∈ r.conf.members := by
    rw [Configuration.members, (sortIDs_perm _).mem_iff]
    exact List.mem_append_left _ (by simpa [Configuration.isVoter] using hv)
  unfold knowsSelf
  rwa [peer?_isSome_iff, h.tracks.peers]

/-- No call of a node looks its own slot up in vain, if it asks only members to campaign. -/
theorem SelfHeld.exec_avoids (h : r.SelfHeld) (hc : r.selfKnown c) :
    Avoids .selfNotPeer (r.exec c) := by
  have hack : ∀ (r : Raft) (m : Message) (i : ℕ), Avoids .selfNotPeer (r.acknowledge m i) := by
    intro r m i
    refine Avoids.bind ?_ fun _ _ => .pure _
    unfold marksFor
    exact .ite (.pure _) (.ite (.pure _) (.ite (.pure _) (.ite (.throw (by decide)) (.pure _))))
  exact Raft.exec_avoids rfl (fun m _ _ => stepApp_avoids rfl fun _ _ _ _ => hack _ _ _)
    (fun m _ _ => stepSnap_avoids fun _ _ => hack _ _ _)
    fun _ => ⟨hc, h.knowsSelf_of_isVoter, h.candidate⟩

end Raft

open Raft

/-- Nothing changes the configuration under a candidate: that is for followers and leaders. -/
theorem Micro.candidate_knowsSelf {c : Call} {o r r' : Raft} (hm : Micro c o r r')
    (h : r.role = .candidate → r.knowsSelf) : r'.role = .candidate → r'.knowsSelf := by
  have hof : ∀ {r₁ : Raft}, r'.ledger = r₁.ledger → (r₁.role = .candidate → r₁.knowsSelf) →
      r'.role = .candidate → r'.knowsSelf := fun heq h hc =>
    knowsSelf_of_ids (h ((ledger_proj heq Raft.role fun _ => rfl).symm.trans hc))
      (ledger_proj heq Raft.id fun _ => rfl)
      (ledger_proj heq (fun r => r.peers.map (·.id)) fun r => by simp [ledger])
  have hother : ∀ {r₁ : Raft}, r₁.role = r.role → r.role ≠ .candidate → r₁.role = .candidate →
      r₁.knowsSelf := fun heq hne hc => absurd (heq ▸ hc) hne
  cases hm.entered with
  | same heq => exact hof heq h
  | turn role heq hk => exact hof heq hk
  | append e hr _ _ _ => exact hother (r.extend_role e) (by simp [hr])
  | @accept m r₁ _ _ _ hr _ hs heq =>
    have hrole : r₁.role = r.role := storeEntries_proj _ hs (by intros; rfl)
    rw [← commitUpTo_proj r₁ m.leaderCommit (m.prevLogIndex + m.entries.length) Raft.role
      fun _ _ => rfl, ← ledger_proj heq Raft.role fun _ => rfl] at hrole
    exact hother hrole (by simp [hr])
  | @install m conf _ _ _ hr _ _ heq =>
    obtain ⟨_, _, _, _, -, hinstall⟩ := r.installSnapshot_eq m conf
    exact hother (by rw [ledger_proj heq Raft.role fun _ => rfl, hinstall]) (by simp [hr])
  | _ => exact h

namespace Server

variable {s s' : Server} {c : Call} {rep : Reply}

theorem selfHeld_exec (h : s.raft.SelfHeld) (hx : s.exec c = .ok (s', rep)) :
    s'.raft.SelfHeld := by
  have hcont := contiguous_exec h.contiguous hx
  obtain ⟨r, hr, rfl⟩ := exec_raft hx
  rw [record_raft] at hcont ⊢
  have hex := exec_executed hr
  refine ⟨hcont, hex.tracks h.tracks, hex.keeps
    (fun hd => (hd.proj (fun r => r.role = .candidate → r.knowsSelf) fun _ => rfl).mpr
      h.candidate) Micro.candidate_knowsSelf (fun {i e conf} hi _ hc hcand => ?_) h.candidate⟩
  refine knowsSelf_of_ids (h.candidate hcand) rfl ?_
  have htracks : Tracks (s.raft.dropThrough i e.term conf) := .recompute _
  rw [htracks.peers, h.tracks.peers, dropThrough_conf h.contiguous h.tracks hi hc]

theorem Starts.selfHeld (h : Starts s) : s.raft.SelfHeld := by
  refine ⟨h.contiguous, ?_, ?_⟩
  · cases h with
    | new h =>
      obtain rfl := new_eq h
      exact fresh_tracks _
    | restore h =>
      obtain ⟨rfl, -, -⟩ := restore_eq h
      exact recovered_tracks _ _ _ _
  · cases h with
    | new h =>
      obtain rfl := new_eq h
      exact fun hc => nomatch hc
    | restore h =>
      obtain ⟨rfl, -, -⟩ := restore_eq h
      exact fun hc => nomatch hc

/-- In every run of a node, from `New` or from a recovery of anything, with any calls and any messages
whatever: no call panics because the node is not one of its own peers, if the call asks only a member
to campaign. -/
theorem no_lookup_of_absent_self {P : Server → Call → Prop} {s₀ : Server} (h₀ : s₀.Starts)
    (h : Relation.ReflTransGen (Step P) s₀ s) (hc : s.raft.selfKnown c) :
    s.exec c ≠ .error .selfNotPeer := by
  have hheld : s.raft.SelfHeld := by
    clear hc
    induction h with
    | refl => exact h₀.selfHeld
    | tail _ hstep ih =>
      obtain ⟨c, rep, -, hx⟩ := hstep
      exact selfHeld_exec ih hx
  have havoid : Avoids .selfNotPeer (s.exec c) := (hheld.exec_avoids hc).bind fun _ _ => .pure _
  exact havoid

end Server

/-- Remove node 1. -/
def removalOfOne : ConfChangeV2 :=
  { changes := [{ type := .removeNode, node := 1 }], transition := .simple }

/-- An elected node removes itself. Its timer runs on, without a slot. -/
theorem no_lookup_of_absent_self_tick : ∃ s : Server,
    Relation.ReflTransGen (Server.Step fun s c => s.raft.selfKnown c) Server.askedFollower s ∧
      s.raft.knowsSelf = false ∧ s.exec .tick ≠ .error .selfNotPeer := by
  obtain ⟨s, hrun, hq⟩ := Server.exists_run (p := fun s c => s.raft.selfKnown c)
    (s := Server.askedFollower)
    [.campaign,
      .step { type := .voteResp, fromID := 2, toID := 1, term := 1, granted := true },
      .proposeConfChange { node := 1, seq := 1 } removalOfOne]
    (fun s => !s.raft.knowsSelf) (by decide +kernel)
  exact ⟨s, hrun, by simpa using hq,
    Server.no_lookup_of_absent_self Server.askedFollower_starts hrun rfl⟩

/-- Node 1 leads and removes itself, node 2 campaigns in the next term, and its vote request makes
node 1 a follower. Asked to campaign then, node 1 looks for a slot it no longer has. -/
theorem removed_leader_campaigns : ∃ g,
    Cluster.Reaches twoVoters anyRegime twoVoters.start g ∧
      (g 1).exec .campaign = .error .selfNotPeer := by
  obtain ⟨g, hg, hq⟩ := Cluster.exists_reaches twoVoters anyRegime
    (electedOne ++
      [.call 1 (.proposeConfChange { node := 1, seq := 1 } removalOfOne),
        .call 2 .campaign, .call 2 .ready, .call 2 (.ackPersisted 2), .call 2 .ready,
        .call 1 (.step { type := .vote, fromID := 2, toID := 1, term := 2 })])
    (fun g => match (g 1).exec .campaign with
      | .error p => p = .selfNotPeer
      | .ok _ => false) (by decide +kernel)
  refine ⟨g, hg, ?_⟩
  split at hq
  · rename_i p hp
    rw [hp, of_decide_eq_true hq]
  · cases hq

end Rift
