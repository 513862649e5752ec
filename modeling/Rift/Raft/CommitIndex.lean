import Rift.Raft.Acks
import Rift.Raft.Votes

/-!
# The commit index only moves forward

A follower sets its commit index to the smaller of the leader's and the last index an append
attests. For an arbitrary message that may be a step back. It is none in a cluster, because no
leader ever says more than its message attests: the leader's commit index lies inside its own log,
and an append reaches to the end of that log.
-/

namespace Rift

variable {es : List Entry}

theorem consecutive_drop {prev k : ℕ} (h : consecutive prev es) :
    consecutive (prev + k) (es.drop k) := by
  induction k generalizing prev es with
  | zero => exact h
  | succ k ih =>
    cases es with
    | nil => rfl
    | cons e es =>
      simp only [consecutive, Bool.and_eq_true] at h
      have := ih h.2
      rwa [Nat.add_right_comm, Nat.add_assoc] at this

theorem consecutive_of_getElem? {prev : ℕ} (h : ∀ j e, es[j]? = some e → e.index = prev + j + 1) :
    consecutive prev es := by
  induction es generalizing prev with
  | nil => rfl
  | cons e es ih =>
    have hhead := h 0 e rfl
    have htail : consecutive (prev + 1) es := ih fun j e' hj => by
      have := h (j + 1) e' hj
      omega
    simp [consecutive, hhead, htail]

/-- An append whose entries follow the index it builds on and reach the leader's commit index. -/
def Message.AttestsCommit (m : Message) : Prop :=
  m.type = .app → consecutive m.prevLogIndex m.entries ∧
    m.leaderCommit ≤ m.prevLogIndex + m.entries.length

namespace Raft

variable {r r' : Raft} {m : Message}

theorem Contiguous.consecutive (h : r.Contiguous) : consecutive r.snapIndex r.log :=
  consecutive_of_getElem? h

theorem le_lastIndex_of_entryAt {i : ℕ} {e : Entry} (h : r.entryAt i = some e) :
    i ≤ r.lastIndex := by
  unfold entryAt at h
  split_ifs at h with hc
  omega

/-- An append reaches to the end of the leader's log, so it attests the leader's commit index. -/
theorem appendMessage_attestsCommit (hc : r.Contiguous) (hle : r.commitIndex ≤ r.lastIndex)
    (dest : NodeID) {next : ℕ} (hn : r.snapIndex < next) :
    (r.appendMessage dest next (r.suffix next)).AttestsCommit := by
  intro _
  show Rift.consecutive (next - 1) (r.suffix next) = true ∧
    r.commitIndex ≤ next - 1 + (r.suffix next).length
  have hlast := lastIndex_eq hc
  unfold suffix
  split_ifs with hnext
  · constructor
    · have hdrop := consecutive_drop (k := next - r.snapIndex - 1) hc.consecutive
      rwa [show r.snapIndex + (next - r.snapIndex - 1) = next - 1 by omega] at hdrop
    · rw [List.length_drop]
      omega
  · exact ⟨rfl, by simp only [List.length_nil]; omega⟩

/-- The commit index lies inside the log, and every append that waits in the node attests the commit
index it carries. -/
structure CommitHeld (r : Raft) : Prop where
  contiguous : r.Contiguous
  le_lastIndex : r.commitIndex ≤ r.lastIndex
  queued : ∀ a ∈ r.queued, a.AttestsCommit

theorem CommitHeld.says {c : Call} {a : Message} (h : r.CommitHeld) (ha : Says c r a) :
    a.AttestsCommit := by
  intro ht
  cases ha with
  | reveals ha =>
    cases ha with
    | app dest next _ hn =>
      exact appendMessage_attestsCommit h.contiguous h.le_lastIndex dest hn ht
    | _ => cases ht
  | ungated ha => cases ha <;> cases ht
  | grant _ _ _ => cases ht
  | ack _ _ _ _ => cases ht

/-- The commit index and the end of the log. -/
def extent (r : Raft) : ℕ × ℕ := (r.commitIndex, r.lastIndex)

theorem storeEntries_commitIndex (hc : r.Contiguous) (hle : r.commitIndex ≤ r.lastIndex)
    (h : es.foldlM storeEntry r = .ok r') :
    r'.commitIndex = r.commitIndex ∧ r.commitIndex ≤ r'.lastIndex := by
  have hinv : r'.Contiguous ∧ r'.commitIndex = r.commitIndex ∧ r.commitIndex ≤ r'.lastIndex := by
    refine foldlM_inv
      (P := fun r₁ => r₁.Contiguous ∧ r₁.commitIndex = r.commitIndex ∧
        r.commitIndex ≤ r₁.lastIndex) ?_ ⟨hc, rfl, hle⟩ h
    rintro r₁ e r₂ _ ⟨hc₁, heq, hle₁⟩ hs
    refine ⟨storeEntry_contiguous hc₁ hs, (storeEntry_proj _ hs (by intros; rfl)).trans heq, ?_⟩
    have hlast := storeEntry_lastIndex hc₁ hs
    -- a duplicate changes nothing, a cut is above the commit index, and an extension is longer
    rcases storeEntry_cases hs with ⟨-, -, rfl⟩ | ⟨-, -, hlt, -, -⟩ | ⟨hi, -⟩
    · exact hle₁
    · omega
    · omega
  exact hinv.2

theorem commitUpTo_extent {i last : ℕ} (hi : i ≤ last) (hlast : last ≤ r.lastIndex)
    (hle : r.commitIndex ≤ r.lastIndex) :
    r.commitIndex ≤ (r.commitUpTo i last).commitIndex ∧
      (r.commitUpTo i last).commitIndex ≤ (r.commitUpTo i last).lastIndex := by
  unfold commitUpTo
  split_ifs with hlt
  · show r.commitIndex ≤ min i last ∧ min i last ≤ r.lastIndex
    omega
  · exact ⟨le_rfl, hle⟩

end Raft

open Raft

/-- An effect moves the commit index forward inside the log, if the message it handles attests its
own. -/
theorem Micro.commitIndex_le {c : Call} {o r r' : Raft} (hm : Micro c o r r')
    (hc : ∀ m, c = .step m → m.AttestsCommit) (h : r.Contiguous)
    (hle : r.commitIndex ≤ r.lastIndex) :
    r.commitIndex ≤ r'.commitIndex ∧ r'.commitIndex ≤ r'.lastIndex := by
  have hsame : ∀ {r₁ : Raft}, r₁.extent = r.extent →
      r.commitIndex ≤ r₁.commitIndex ∧ r₁.commitIndex ≤ r₁.lastIndex := by
    intro r₁ heq
    simp only [extent, Prod.mk.injEq] at heq
    omega
  cases hm.entered with
  | same heq => exact hsame (ledger_proj heq extent fun _ => rfl)
  | turn _ heq _ => exact hsame (ledger_proj heq extent fun _ => rfl)
  | append e _ hi _ _ =>
    have hlast := extend_lastIndex h hi
    obtain ⟨_, _, _, _, _, -, heq⟩ := r.extend_eq e
    have hcommit : (r.extend e).commitIndex = r.commitIndex := by rw [heq]
    omega
  | @accept m r₁ _ hstep ht _ hmatch hs heq =>
    obtain ⟨hcons, hcommit⟩ := hc m hstep ht
    obtain ⟨heq₁, hle₁⟩ := storeEntries_commitIndex h hle hs
    have hlast := storeEntries_lastIndex h hcons (le_lastIndex_of_matchesLog hmatch) hs
    have hup := commitUpTo_extent (r := r₁) hcommit hlast (heq₁ ▸ hle₁)
    have hext := ledger_proj heq extent fun _ => rfl
    simp only [extent, Prod.mk.injEq] at hext
    omega
  | commit hlt hn => exact ⟨hlt.le, hn⟩
  | @install m conf _ _ _ _ hlt _ heq =>
    obtain ⟨_, _, _, _, -, hinstall⟩ := r.installSnapshot_eq m conf
    have hext := ledger_proj heq extent fun _ => rfl
    rw [hinstall] at hext
    obtain ⟨h₁, h₂⟩ := Prod.mk.inj hext
    rw [h₁, h₂]
    exact ⟨hlt.le, le_rfl⟩
  | applied _ => exact hsame rfl

theorem Micro.commitHeld {c : Call} {o r r' : Raft} (hm : Micro c o r r')
    (hc : ∀ m, c = .step m → m.AttestsCommit) (h : r.CommitHeld) :
    r'.CommitHeld ∧ r.commitIndex ≤ r'.commitIndex := by
  obtain ⟨hmono, hle⟩ := hm.commitIndex_le hc h.contiguous h.le_lastIndex
  exact ⟨⟨hm.contiguous h.contiguous, hle, fun a ha => (hm.voices ha).elim (h.queued a) h.says⟩,
    hmono⟩

namespace Server

variable {s s' : Server} {c : Call} {rep : Reply}

theorem commitHeld_exec (h : s.raft.CommitHeld) (hc : ∀ m, c = .step m → m.AttestsCommit)
    (hx : s.exec c = .ok (s', rep)) :
    s'.raft.CommitHeld ∧ s.raft.commitIndex ≤ s'.raft.commitIndex := by
  obtain ⟨r, hr, rfl⟩ := exec_raft hx
  rw [record_raft]
  -- a drain and a compaction leave the log's end and the commit index alone and say nothing new
  have hkept : ∀ {r₁ : Raft}, r₁.Contiguous → r₁.extent = s.raft.extent →
      r₁.queued ⊆ s.raft.queued → r₁.CommitHeld ∧ s.raft.commitIndex ≤ r₁.commitIndex := by
    intro r₁ h₁ heq hq
    have hle := h.le_lastIndex
    simp only [extent, Prod.mk.injEq] at heq
    exact ⟨⟨h₁, by omega, fun a ha => h.queued a (hq ha)⟩, by omega⟩
  refine (exec_executed hr).keeps
    (P := fun r₁ => r₁.CommitHeld ∧ s.raft.commitIndex ≤ r₁.commitIndex)
    (fun hd => hkept ((hd.proj Contiguous fun _ => rfl).mpr h.contiguous)
      (hd.proj extent fun _ => rfl) hd.queued)
    (fun hm h₁ => ?_) (fun {i e conf} hi he _ => ?_) ⟨h, le_rfl⟩
  · obtain ⟨hheld, hmono⟩ := hm.commitHeld hc h₁.1
    exact ⟨hheld, h₁.2.trans hmono⟩
  · have hlast := dropThrough_lastIndex h.contiguous hi (le_lastIndex_of_entryAt he) e.term conf
    exact hkept (h.contiguous.dropThrough hi _ _) (Prod.ext rfl hlast) (List.Subset.refl _)

theorem Starts.commitHeld (h : Starts s) : s.raft.CommitHeld := by
  refine ⟨h.contiguous, ?_, ?_⟩
  · have hle := snapIndex_le_lastIndex h.contiguous
    cases h with
    | new h =>
      obtain rfl := new_eq h
      exact Nat.zero_le _
    | restore h =>
      obtain ⟨rfl, -, -⟩ := restore_eq h
      exact hle
  · cases h with
    | new h =>
      obtain rfl := new_eq h
      simp [Raft.queued, fresh]
    | restore h =>
      obtain ⟨rfl, -, -⟩ := restore_eq h
      simp [Raft.queued, restored, recovered, recomputeConf, setConf, fresh]

end Server

namespace Cluster

variable {S : Roster} {R : Regime} {g g' : Cluster}

/-- Every commit index lies inside its log, and every append that waits or was sent attests the commit
index it carries. -/
structure CommitHeld (g : Cluster) : Prop where
  node : ∀ n, (g n).raft.CommitHeld
  sent : ∀ n, ∀ m ∈ (g n).sent, m.AttestsCommit

theorem CommitHeld.delivered {c : Call} (h : g.CommitHeld) (hd : g.delivers c) :
    ∀ m, c = .step m → m.AttestsCommit := by
  rintro m rfl
  exact h.sent m.fromID m (by simpa [delivers] using hd)

theorem CommitHeld.update {n : NodeID} {s : Server} (h : g.CommitHeld) (hr : s.raft.CommitHeld)
    (hs : ∀ m ∈ s.sent, m.AttestsCommit) : CommitHeld (Function.update g n s) :=
  ⟨(Function.forall_update_iff g fun _ s => s.raft.CommitHeld).mpr ⟨hr, fun k _ => h.node k⟩,
    (Function.forall_update_iff g fun _ s => ∀ m ∈ s.sent, m.AttestsCommit).mpr
      ⟨hs, fun k _ => h.sent k⟩⟩

theorem CommitHeld.happens {ev : Event} (h : g.CommitHeld) (hh : Happens S g ev g') :
    g'.CommitHeld := by
  cases hh with
  | @call n c s rep _ hd hx =>
    have hheld := Server.commitHeld_exec (h.node n) (h.delivered hd) hx
    refine h.update hheld.1 fun m hm => ?_
    rcases Server.mem_sent_exec hx hm with hm | hm
    · exact h.sent n m hm
    · exact (h.node n).queued m (mem_queued.mpr (.inl hm))
  | @crash n d snap r _ _ hr => exact h.update (Server.Starts.restore hr).commitHeld (h.sent n)
  | @sendSnap n dest data _ _ =>
    refine h.update (h.node n) fun m hm => ?_
    rcases List.mem_append.mp hm with hm | hm
    · exact h.sent n m hm
    · rw [List.mem_singleton.mp hm]
      exact fun ht => nomatch ht

theorem commitHeld_reaches (h : Reaches S R S.start g) : g.CommitHeld := by
  refine Reaches.induction (P := CommitHeld) ⟨fun n => ⟨?_, Nat.zero_le _, ?_⟩, ?_⟩
    (fun _ _ _ h _ hh => h.happens hh) h
  · exact fun j e hj => absurd hj (by simp [Roster.start, fresh])
  · simp [Raft.queued, Roster.start, fresh]
  · simp [Roster.start]

/-- Along every run of a cluster, with any messages delayed, duplicated, reordered or lost and any
crashes: a call does not lower the commit index of its node, no commit index exceeds its log, and
every append ever sent carries a commit index that its entries reach. -/
theorem commitIndex_monotone (h : Reaches S R S.start g) :
    (∀ n c, (S.cfg n).refusal = none → g.delivers c → ∀ s rep, (g n).exec c = .ok (s, rep) →
        (g n).raft.commitIndex ≤ s.raft.commitIndex) ∧
      (∀ n, (g n).raft.commitIndex ≤ (g n).raft.lastIndex) ∧
      ∀ n, ∀ m ∈ (g n).sent, m.type = .app →
        m.leaderCommit ≤ m.prevLogIndex + m.entries.length := by
  have hheld := commitHeld_reaches h
  refine ⟨fun n c _ hd s rep hx => ?_, fun n => (hheld.node n).le_lastIndex,
    fun n m hm ht => (hheld.sent n m hm ht).2⟩
  exact (Server.commitHeld_exec (hheld.node n) (hheld.delivered hd) hx).2

end Cluster

/-- Every run: any call, any crash, any snapshot. -/
def anyRegime : Regime := fun _ _ => True

instance (g : Cluster) (ev : Event) : Decidable (anyRegime g ev) := .isTrue trivial

/-- Node 1 of two is elected. -/
def electedOne : List Event :=
  [.call 1 .campaign, .call 1 .ready, .call 1 (.ackPersisted 1), .call 1 .ready,
    .call 2 (.step { type := .vote, fromID := 1, toID := 2, term := 1 }),
    .call 2 .ready, .call 2 (.ackPersisted 1), .call 2 .ready,
    .call 1 (.step { type := .voteResp, fromID := 2, toID := 1, term := 1, granted := true })]

/-- The first entry of its term reaches node 2. -/
def replicatedOne : List Event :=
  electedOne ++
    [.call 1 .ready, .call 1 (.ackPersisted 2), .call 1 .ready,
      .call 2 (.step { type := .app, fromID := 1, toID := 2, term := 1
                       entries := [{ term := 1, index := 1 }] }),
      .call 2 .ready, .call 2 (.ackPersisted 2), .call 2 .ready]

/-- The response of node 2. -/
def ackOfOne : Message :=
  { type := .appResp, fromID := 2, toID := 1, term := 1, success := true, matchIndex := 1 }

theorem commitIndex_monotone_one : ∃ g s rep,
    Cluster.Reaches twoVoters anyRegime twoVoters.start g ∧
      (g 1).exec (.step ackOfOne) = .ok (s, rep) ∧ s.raft.commitIndex = 1 ∧
      (g 1).raft.commitIndex ≤ s.raft.commitIndex ∧
      ∀ m ∈ (g 1).sent, m.type = .app → m.leaderCommit ≤ m.prevLogIndex + m.entries.length := by
  obtain ⟨g, hg, hq⟩ := Cluster.exists_reaches twoVoters anyRegime replicatedOne
    (fun g => g.delivers (.step ackOfOne) &&
      ((g 1).run (fun _ _ => true) [.step ackOfOne]).any fun s => s.raft.commitIndex = 1)
    (by decide +kernel)
  simp only [Bool.and_eq_true] at hq
  obtain ⟨s, rep, hx, hq'⟩ := Server.exists_exec (.step ackOfOne) _ hq.2
  obtain ⟨hmono, -, hsent⟩ := Cluster.commitIndex_monotone hg
  exact ⟨g, s, rep, hg, hx, of_decide_eq_true hq', hmono 1 _ rfl hq.1 s rep hx, hsent 1⟩

end Rift
