import Rift.Raft.Effects

/-!
# The log's side of a call

Most effects of a call are about terms, marks and queues, and the progress of peers. `Raft.ledger`
forgets all of that and keeps the role, the log, the configuration and the watermarks. Few effects
change what it keeps, and `Entered` lists them, so that an argument about the log or the
configuration has one case for each.
-/

namespace Rift

open List

variable {β : Type}

namespace Raft

variable {r r' : Raft} {c : Call} {f : Peer → Peer}

/-- Keep the role, the log, what is known of it, the configuration and who the peers are. -/
def ledger (r : Raft) : Raft :=
  { r.steady with
    role := r.role, peers := r.peers.map fun p => { id := p.id }, msgs := [], termStart := 0
    pendingReads := [], readyReads := [] }

theorem ledger_proj (h : r'.ledger = r.ledger) (f : Raft → β) (hf : ∀ r, f r.ledger = f r) :
    f r' = f r := by
  rw [← hf r', ← hf r, h]

theorem modifyPeer_ids (id : NodeID) (hf : ∀ p, (f p).id = p.id) (ps : List Peer) :
    (modifyPeer id f ps).map (·.id) = ps.map (·.id) := by
  induction ps with
  | nil => rfl
  | cons p ps ih =>
    unfold modifyPeer
    split_ifs
    · rw [map_cons, map_cons, hf]
    · rw [map_cons, map_cons, ih]

theorem withPeer_ids (r : Raft) (id : NodeID) (hf : ∀ p, (f p).id = p.id) :
    (r.withPeer id f).peers.map (·.id) = r.peers.map (·.id) :=
  modifyPeer_ids id hf r.peers

theorem ledger_of_ids (h : ({ r' with peers := r.peers } : Raft).ledger = r.ledger)
    (hp : r'.peers.map (·.id) = r.peers.map (·.id)) : r'.ledger = r.ledger := by
  have hids : r'.peers.map (fun p => ({ id := p.id } : Peer)) =
      r.peers.map fun p => { id := p.id } := by
    have := congrArg (map fun id => ({ id := id } : Peer)) hp
    simpa [map_map, Function.comp_def] using this
  rw [← h]
  unfold ledger
  rw [hids]
  rfl

theorem withPeer_ledger (r : Raft) (id : NodeID) (hf : ∀ p, (f p).id = p.id) :
    (r.withPeer id f).ledger = r.ledger :=
  ledger_of_ids rfl (r.withPeer_ids id hf)

theorem setTermAndVote_ledger (r : Raft) (t : ℕ) (v : NodeID) :
    (r.setTermAndVote t v).ledger = r.ledger :=
  setTermAndVote_proj r t v ledger (by intros; rfl)

theorem sendGatedOn_ledger (r : Raft) (mark snapMark : ℕ) (m : Message) :
    (r.sendGatedOn mark snapMark m).ledger = r.ledger :=
  sendGatedOn_proj r mark snapMark m ledger (by intros; rfl)

theorem acknowledge_eq {m : Message} {i : ℕ} (h : r.acknowledge m i = .ok r') :
    ∃ lm sm, r.marksFor i = .ok (lm, sm) ∧ r' = r.sendGatedOn lm sm (r.ackMessage m i) := by
  obtain ⟨⟨lm, sm⟩, hm, h⟩ := bind_eq_ok.mp h
  exact ⟨lm, sm, hm, (pure_eq_ok.mp h).symm⟩

theorem acknowledge_ledger {m : Message} {i : ℕ} (h : r.acknowledge m i = .ok r') :
    r'.ledger = r.ledger := by
  obtain ⟨lm, sm, -, rfl⟩ := acknowledge_eq h
  exact sendGatedOn_ledger r lm sm _

theorem commitUpTo_proj (r : Raft) (i j : ℕ) (f : Raft → β)
    (hf : ∀ (r : Raft) n, f (r.setCommit n) = f r) : f (r.commitUpTo i j) = f r := by
  unfold commitUpTo
  split_ifs
  · exact hf r _
  · rfl

/-- Storing an entry touches the log, what is known about it, and the open mark. -/
theorem storeEntry_proj {e : Entry} (f : Raft → β) (h : r.storeEntry e = .ok r')
    (hf : ∀ (r : Raft) log tail last gated conf peers refusal nm dm mh,
      f { r with
        log := log, tail := tail, markLastIdx := last, gated := gated, conf := conf
        peers := peers, confRefusal := refusal, nextMark := nm, dirtyMark := dm
        markHandedOff := mh } = f r) : f r' = f r := by
  have hext : ∀ r : Raft, f (r.extend e) = f r := by
    intro r
    obtain ⟨_, _, _, _, _, -, heq⟩ := r.extend_eq e
    rw [heq]
    exact hf r _ r.tail r.markLastIdx r.gated _ _ _ _ _ _
  rcases storeEntry_cases h with ⟨-, -, rfl⟩ | ⟨-, -, -, -, rfl⟩ | ⟨-, rfl⟩
  · rfl
  · rw [hext]
    obtain ⟨_, _, _, heq⟩ := r.cutFrom_eq e.index
    rw [heq]
    exact hf r _ _ _ _ _ _ _ r.nextMark r.dirtyMark r.markHandedOff
  · exact hext r

theorem storeEntries_proj (f : Raft → β) {es : List Entry} (h : es.foldlM storeEntry r = .ok r')
    (hf : ∀ (r : Raft) log tail last gated conf peers refusal nm dm mh,
      f { r with
        log := log, tail := tail, markLastIdx := last, gated := gated, conf := conf
        peers := peers, confRefusal := refusal, nextMark := nm, dirtyMark := dm
        markHandedOff := mh } = f r) : f r' = f r :=
  foldlM_inv (P := fun r₁ => f r₁ = f r)
    (fun _ _ _ _ h₁ h₂ => (storeEntry_proj f h₂ hf).trans h₁) rfl h

/-- What an effect of the call `c` does to the ledger. -/
inductive Entered (c : Call) (r : Raft) : Raft → Prop
  | same {r' : Raft} (h : r'.ledger = r.ledger) : Entered c r r'
  | turn {r' : Raft} (role : Role) (h : r'.ledger = { r with role := role }.ledger)
      (hk : role = .candidate → (r.peer? r.id).isSome) : Entered c r r'
  | append (e) (hr : r.role = .leader) (hi : e.index = r.lastIndex + 1)
      (hc : e.type = .confChange → ∃ id cc, c = .proposeConfChange id cc)
      (hid : e = r.noop ∨ c.proposes) : Entered c r (r.extend e)
  | accept {m} {r₁ r' : Raft} (hc : c = .step m) (ht : m.type = .app)
      (hr : r.role = .follower) (hm : r.matchesLog m.prevLogIndex m.prevLogTerm)
      (hs : m.entries.foldlM storeEntry r = .ok r₁)
      (h : r'.ledger =
        (r₁.commitUpTo m.leaderCommit (m.prevLogIndex + m.entries.length)).ledger) :
    Entered c r r'
  | commit {n} (hlt : r.commitIndex < n) (hle : n ≤ r.lastIndex) : Entered c r (r.setCommit n)
  | install {m conf} {r' : Raft} (hc : c = .step m) (ht : m.type = .snap)
      (hr : r.role = .follower) (hlt : r.commitIndex < m.snapIndex) (hd : decodeConfiguration m.snapConf = some conf)
      (h : r'.ledger = (r.installSnapshot m conf).ledger) : Entered c r r'
  | applied (i) : Entered c r { r with appliedIdx := i }

end Raft

open Raft

variable {r r' : Raft} {c : Call} {o : Raft}

theorem Micro.entered (h : Micro c o r r') : Entered c r r' := by
  cases h with
  | soft h =>
    refine .same (h.proj ledger fun r => ledger_of_ids rfl ?_)
    simp [erase, Peer.hard]
  | demote => exact .turn .follower rfl (by simp)
  | bump m _ _ _ =>
    exact .turn .follower (setTermAndVote_proj r m.term 0 (fun r => r.demoted.ledger)
      (by intros; rfl)) (by simp)
  | campaign hk _ _ =>
    have hcand : r.takeCandidacy.ledger = { r with role := .candidate }.ledger :=
      ledger_of_ids rfl (by simp [takeCandidacy])
    refine .turn .candidate (Eq.trans ?_ ((setTermAndVote_ledger _ (r.term + 1) r.id).trans hcand))
      fun _ => hk
    exact withPeer_ledger _ _ fun _ => rfl
  | grant m _ _ _ _ _ =>
    rw [setVote_eq]
    exact .same ((sendGatedOn_ledger _ 0 0 _).trans (setTermAndVote_ledger r r.term m.fromID))
  | reveal msg _ => exact .same (sendGatedOn_ledger r 0 0 msg)
  | count m _ _ _ _ _ => exact .same (withPeer_ledger _ _ fun _ => rfl)
  | lead _ _ _ =>
    have hlead : r.takeLead.ledger = { r with role := .leader }.ledger :=
      ledger_of_ids rfl (by simp [takeLead])
    have hself : (r.takeLead.withPeer r.id fun p =>
        { p with matchIndex := r.tail.persisted }).ledger = r.takeLead.ledger :=
      withPeer_ledger _ _ fun _ => rfl
    exact .turn .leader (hself.trans hlead) (by simp)
  | append e hr _ hi hc hid => exact .append e hr hi (fun h => (hc h).1) hid
  | accept r₁ _ m _ hc ht _ hr hm hs ha => exact .accept hc ht hr hm hs (acknowledge_ledger ha)
  | progress m p _ _ _ _ _ _ => exact .same (withPeer_ledger _ _ fun _ => rfl)
  | selfMatch p _ _ _ => exact .same (withPeer_ledger _ _ fun _ => rfl)
  | commit n _ hlt hle _ _ => exact .commit hlt hle
  | covered _ m _ _ _ _ _ _ _ ha => exact .same (acknowledge_ledger ha)
  | install r₁ m conf _ hc ht _ hr hlt _ _ hd hr' =>
    subst hr'
    exact .install hc ht hr hlt hd (sendGatedOn_ledger _ _ _ _)
  | ackApplied i _ =>
    unfold Raft.ackApplied
    split_ifs
    · exact .applied i
    · exact .same rfl
  | _ => exact .same rfl

theorem Micro.id_eq (h : Micro c o r r') : r'.id = r.id := by
  cases h.entered with
  | same heq => exact ledger_proj heq Raft.id fun _ => rfl
  | turn _ heq _ => exact ledger_proj heq Raft.id fun _ => rfl
  | append e _ _ _ _ =>
    obtain ⟨_, _, _, _, _, -, heq⟩ := r.extend_eq e
    rw [heq]
  | @accept m r₁ _ _ _ _ _ hs heq =>
    rw [ledger_proj heq Raft.id fun _ => rfl, commitUpTo_proj _ _ _ Raft.id fun _ _ => rfl]
    exact storeEntries_proj Raft.id hs (by intros; rfl)
  | @install m conf _ _ _ _ _ _ heq =>
    obtain ⟨_, _, _, _, -, hinstall⟩ := r.installSnapshot_eq m conf
    rw [ledger_proj heq Raft.id fun _ => rfl, hinstall]
  | _ => rfl

/-! ### Reads -/

/-- The queue of read requests and the reads that are ready. -/
def Raft.readQueues (r : Raft) : List ReadReq × List ReadState := (r.pendingReads, r.readyReads)

/-- What an effect does to the reads: it records a request, acknowledges the requests, drops some of
them, or has one more read ready. -/
inductive ReadEffect (c : Call) (r : Raft) : List ReadReq × List ReadState → Prop
  | none : ReadEffect c r r.readQueues
  | record (q : ReadReq) (h : (c = .readIndex q.ctx ∧ q.fromID = 0) ∨ ∃ m, c = .step m ∧
      m.type = .readIndex ∧ q.fromID = m.fromID ∧ q.ctx = m.readCtx) :
    ReadEffect c r (r.pendingReads ++ [q], r.readyReads)
  | forget : ReadEffect c r ([], [])
  | keep (qs : List ReadReq)
      (h : ∀ q ∈ qs, ∃ q' ∈ r.pendingReads, q.ctx = q'.ctx ∧ q.fromID = q'.fromID) :
    ReadEffect c r (qs, r.readyReads)
  | answer (q : ReadReq) (h : q ∈ r.pendingReads) (hf : q.fromID = 0) :
    ReadEffect c r (r.pendingReads, r.readyReads ++ [{ index := q.index, ctx := q.ctx }])
  | receive (m : Message) (hc : c = .step m) (ht : m.type = .readIndexResp) :
    ReadEffect c r (r.pendingReads, r.readyReads ++ [{ index := m.readIndex, ctx := m.readCtx }])

theorem Micro.readEffect (h : Micro c o r r') : ReadEffect c r r'.readQueues := by
  have hset : ∀ (r : Raft) (t : ℕ) (v : NodeID), (r.setTermAndVote t v).readQueues = r.readQueues :=
    fun r t v => setTermAndVote_proj r t v Raft.readQueues (by intros; rfl)
  have hsend : ∀ (r : Raft) (mark snapMark : ℕ) (m : Message),
      (r.sendGatedOn mark snapMark m).readQueues = r.readQueues :=
    fun r mark snapMark m => sendGatedOn_proj r mark snapMark m Raft.readQueues (by intros; rfl)
  have hack : ∀ {r₁ : Raft} {m : Message} {i : ℕ}, r₁.acknowledge m i = .ok r' →
      r₁.readQueues = r.readQueues → ReadEffect c r r'.readQueues := by
    intro r₁ m i ha heq
    obtain ⟨lm, sm, -, rfl⟩ := acknowledge_eq ha
    rw [hsend, heq]
    exact .none
  have hnone : ∀ {x}, x = r.readQueues → ReadEffect c r x := fun h => h ▸ .none
  cases h with
  | soft h => exact hnone (h.proj Raft.readQueues fun _ => rfl)
  | bump m _ _ _ => exact hnone (hset r m.term 0)
  | campaign _ _ _ => exact hnone (hset r.takeCandidacy (r.term + 1) r.id)
  | grant m _ _ _ _ _ =>
    rw [setVote_eq, sendGated, hsend]
    exact hnone (hset r r.term m.fromID)
  | reveal msg _ => exact hnone (hsend r 0 0 msg)
  | append e _ _ _ _ _ =>
    obtain ⟨_, _, _, _, _, -, heq⟩ := r.extend_eq e
    exact hnone (by rw [heq]; rfl)
  | accept r₁ _ m _ _ _ _ _ _ hs ha =>
    exact hack ha ((commitUpTo_proj _ _ _ Raft.readQueues fun _ _ => rfl).trans
      (storeEntries_proj Raft.readQueues hs (by intros; rfl)))
  | covered _ m _ _ _ _ _ _ _ ha => exact hack ha rfl
  | install r₁ m conf _ _ _ _ _ _ _ _ _ hr' =>
    subst hr'
    obtain ⟨_, _, _, _, -, heq⟩ := r.installSnapshot_eq m conf
    exact hnone (by rw [hsend, heq]; rfl)
  | recordReq q _ _ _ _ hf => exact .record q hf
  | ackReads m _ _ _ _ =>
    refine .keep _ fun q hq => ?_
    obtain ⟨q', hq', rfl⟩ := mem_map.mp hq
    refine ⟨q', (mem_filter.mp hq').1, ?_⟩
    unfold ReadReq.addAck
    split_ifs <;> exact ⟨rfl, rfl⟩
  | lead _ _ _ => exact .forget
  | answer q hq _ hf => exact .answer q hq hf
  | dropReads kept h => exact .keep _ fun q hq => ⟨q, h.subset hq, rfl, rfl⟩
  | readResp m hc ht => exact .receive m hc ht
  | ackApplied i _ =>
    unfold Raft.ackApplied
    split_ifs <;> exact .none
  | _ => exact .none

/-! ### Drains and acknowledgements -/

namespace Raft

/-- The messages waiting in a node, withheld or not. -/
def queued (r : Raft) : List Message := r.msgs ++ r.gated.map (·.msg)

theorem mem_queued {m : Message} : m ∈ r.queued ↔ m ∈ r.msgs ∨ ∃ w ∈ r.gated, w.msg = m := by
  simp [queued]

variable {a : Message}

theorem mem_queued_release (h : a ∈ r.release.queued) : a ∈ r.queued := by
  rcases mem_queued.mp h with h | ⟨w, hw, rfl⟩
  · rcases mem_append.mp h with h | h
    · exact mem_queued.mpr (.inl h)
    · obtain ⟨w, hw, rfl⟩ := mem_map.mp h
      exact mem_queued.mpr (.inr ⟨w, (mem_filter.mp hw).1, rfl⟩)
  · exact mem_queued.mpr (.inr ⟨w, (mem_filter.mp hw).1, rfl⟩)

theorem mem_queued_closeIdle (h : a ∈ r.closeIdle.queued) : a ∈ r.queued := by
  unfold closeIdle at h
  split_ifs at h
  · rcases mem_queued.mp (mem_queued_release h) with h | ⟨w, hw, rfl⟩
    · exact mem_queued.mpr (.inl h)
    · obtain ⟨w', hw', rfl⟩ := mem_map.mp hw
      exact mem_queued.mpr (.inr ⟨w', hw', rfl⟩)
  · exact h

theorem mem_queued_flushed (h : a ∈ r.flushed.queued) : a ∈ r.queued := by
  rcases mem_queued.mp h with h | h
  · exact absurd h (by simp [flushed])
  · exact mem_queued.mpr (.inr h)

/-- Forget the queues, the marks and how far the log is durable: what drains and acknowledgements
touch. -/
def offshore (r : Raft) : Raft :=
  { r with
    msgs := [], gated := [], readyReads := [], pendingSnap := none, snapTo := []
    hardStateDirty := false, tail := {}, markLastIdx := 0, lastHandedMark := 0, persisted := 0
    hsMark := 0, dirtyMark := 0, markHandedOff := false, snapMark := 0, persistedSnap := 0 }

/-- What a drain or an acknowledgement leaves: no message, no read and no install is added. -/
structure Drained (r r' : Raft) : Prop where
  offshore : r'.offshore = r.offshore
  queued : r'.queued ⊆ r.queued
  readyReads : r'.readyReads ⊆ r.readyReads
  pendingSnap : ∀ snap ∈ r'.pendingSnap, snap ∈ r.pendingSnap

theorem Drained.proj (h : Drained r r') (f : Raft → β) (hf : ∀ r, f r.offshore = f r) :
    f r' = f r := by
  rw [← hf r', ← hf r, h.offshore]

end Raft

/-- What every effect, every compaction and every drain keeps, every call keeps. -/
theorem Executed.keeps {P : Raft → Prop} {rep : Reply} (h : Executed r c r' rep)
    (hP : ∀ {r₁ : Raft}, Drained r r₁ → P r₁) (hmicro : ∀ {r₁ r₂}, Micro c r r₁ r₂ → P r₁ → P r₂)
    (hdrop : ∀ {i e conf}, r.snapIndex < i → r.entryAt i = some e →
      r.configurationAt i = .ok conf → P (r.dropThrough i e.term conf)) (hr : P r) : P r' := by
  have hmicros : ∀ {r₁ r₂ : Raft}, Micros c r r₁ r₂ → P r₁ → P r₂ := by
    intro r₁ r₂ h h₁
    induction h with
    | refl => exact h₁
    | tail _ h ih => exact hmicro h ih
  cases h with
  | plain _ hm => exact hmicros hm hr
  | @handOver entries _ _ _ _ =>
    exact hP ⟨rfl, fun _ h => mem_queued_flushed (r := r.takeOutputs.handOver entries) h,
      nil_subset _, nofun⟩
  | idle _ _ _ =>
    have hq : r.takeOutputs.closeIdle.flushed.queued ⊆ r.queued := fun _ h =>
      mem_queued_closeIdle (r := r.takeOutputs) (mem_queued_flushed h)
    obtain ⟨_, _, _, _, heq⟩ := r.takeOutputs.closeIdle_eq
    rw [heq] at hq ⊢
    exact hP ⟨rfl, hq, nil_subset _, nofun⟩
  | @ack m _ _ hm =>
    have hq : (r.landMarks m).queued ⊆ r.queued := fun _ h =>
      mem_queued_release (r := (r.landed m).closeThrough m) h
    obtain ⟨_, _, _, _, _, _, _, heq⟩ := r.landMarks_eq m
    rw [heq] at hm hq
    exact hmicros hm (hP ⟨rfl, hq, List.Subset.refl _, fun _ h => h⟩)
  | @ackSnap m _ =>
    exact hP ⟨rfl, fun _ h => mem_queued_release (r := r.snapLanded m) h, List.Subset.refl _,
      fun _ h => h⟩
  | compacted hs _ _ he hc => exact hdrop hs he hc
  | _ => exact hr

end Rift
