import Rift.Raft.HardState

/-!
# What a node says

The messages a node has not handed out yet are queued or withheld, and every message in either queue
was put there by an effect that says which one. A drain moves queued messages out and an
acknowledgement moves withheld ones to the queue; neither makes a new one.

What a node has said by all its incarnations is consistent: no two of its messages promise different
votes in one term.
-/

namespace Rift

open List

namespace Raft

theorem queued_sendGatedOn {r : Raft} {mark snapMark : ℕ} {m a : Message}
    (h : a ∈ (r.sendGatedOn mark snapMark m).queued) : a ∈ r.queued ∨ a = m := by
  unfold sendGatedOn at h
  split_ifs at h
  · rcases mem_queued.mp h with h | h
    · rcases mem_append.mp h with h | h
      · exact .inl (mem_queued.mpr (.inl h))
      · exact .inr (mem_singleton.mp h)
    · exact .inl (mem_queued.mpr (.inr h))
  · rcases mem_queued.mp h with h | ⟨w, hw, rfl⟩
    · exact .inl (mem_queued.mpr (.inl h))
    · rcases mem_append.mp hw with hw | hw
      · exact .inl (mem_queued.mpr (.inr ⟨w, hw, rfl⟩))
      · exact .inr (by rw [mem_singleton.mp hw])

theorem queued_storeEntry {r r' : Raft} {e : Entry} {a : Message} (h : r.storeEntry e = .ok r')
    (ha : a ∈ r'.queued) : a ∈ r.queued := by
  have hext : ∀ r : Raft, (r.extend e).queued = r.queued := by
    intro r
    obtain ⟨_, _, _, _, _, -, heq⟩ := r.extend_eq e
    rw [heq]
    rfl
  rcases storeEntry_cases h with ⟨-, -, rfl⟩ | ⟨-, -, -, -, rfl⟩ | ⟨-, rfl⟩
  · exact ha
  · rw [hext] at ha
    rcases mem_queued.mp ha with h | ⟨w, hw, rfl⟩
    · exact mem_queued.mpr (.inl h)
    · exact mem_queued.mpr (.inr ⟨w, (mem_filter.mp hw).1, rfl⟩)
  · rwa [hext] at ha

end Raft

open Raft

/-- The messages an effect of the call `c` on the state `r` can add. -/
inductive Says (c : Call) (r : Raft) : Message → Prop
  | reveals {a} (h : Reveals c r a) : Says c r a
  | ungated {a} (h : Ungated r a) : Says c r a
  | grant {m} (hc : c = .step m) (ht : m.type = .vote) (hterm : m.term = r.term) :
    Says c r (r.voteRespMessage m true)
  | ack {m i} (hc : c = .step m) (ht : m.type = .app ∨ m.type = .snap) (hterm : m.term = r.term)
      (hr : r.role = .follower) : Says c r (r.ackMessage m i)

theorem Micro.voices {c : Call} {o r r' : Raft} {a : Message} (h : Micro c o r r')
    (ha : a ∈ r'.queued) : a ∈ r.queued ∨ Says c r a := by
  have hset : ∀ (r : Raft) (t : ℕ) (v : NodeID), (r.setTermAndVote t v).queued = r.queued :=
    fun r t v => setTermAndVote_proj r t v Raft.queued (by intros; rfl)
  cases h with
  | soft h => exact .inl (h.proj Raft.queued (fun _ => rfl) ▸ ha)
  | bump m _ _ _ => exact .inl (hset r m.term 0 ▸ ha)
  | campaign _ _ _ => exact .inl (hset r.takeCandidacy (r.term + 1) r.id ▸ ha)
  | grant m hc ht hterm _ _ =>
    rcases queued_sendGatedOn ha with ha | rfl
    · refine .inl ?_
      rw [setVote_eq] at ha
      exact hset r r.term m.fromID ▸ ha
    · exact .inr (.grant hc ht hterm)
  | reveal msg hm =>
    rcases queued_sendGatedOn ha with ha | rfl
    · exact .inl ha
    · exact .inr (.reveals hm)
  | ungated msg hm =>
    rcases mem_queued.mp ha with ha | ha
    · rcases mem_append.mp ha with ha | ha
      · exact .inl (mem_queued.mpr (.inl ha))
      · exact .inr (mem_singleton.mp ha ▸ .ungated hm)
    · exact .inl (mem_queued.mpr (.inr ha))
  | append e _ _ _ _ _ =>
    obtain ⟨_, _, _, _, _, -, heq⟩ := r.extend_eq e
    rw [heq] at ha
    exact .inl ha
  | accept r₁ _ m _ hc ht hterm hr _ hs hack =>
    obtain ⟨lm, sm, -, rfl⟩ := acknowledge_eq hack
    have hstore : ∀ {a}, a ∈ r₁.queued → a ∈ r.queued :=
      foldlM_inv (P := fun r₁ => ∀ {a}, a ∈ r₁.queued → a ∈ r.queued)
        (fun _ _ _ _ h₁ h₂ _ ha => h₁ (queued_storeEntry h₂ ha)) id hs
    have hcommit : ∀ i j, (r₁.commitUpTo i j).queued = r₁.queued ∧
        (r₁.commitUpTo i j).id = r₁.id ∧ (r₁.commitUpTo i j).term = r₁.term := by
      intro i j
      unfold commitUpTo
      split_ifs <;> exact ⟨rfl, rfl, rfl⟩
    obtain ⟨hq, hid, ht'⟩ := hcommit m.leaderCommit (m.prevLogIndex + m.entries.length)
    rcases queued_sendGatedOn ha with ha | rfl
    · exact .inl (hstore (hq ▸ ha))
    · have hsame : r₁.id = r.id ∧ r₁.term = r.term :=
        ⟨storeEntries_proj Raft.id hs (by intros; rfl), storeEntries_proj Raft.term hs (by intros; rfl)⟩
      have heq : (r₁.commitUpTo m.leaderCommit (m.prevLogIndex + m.entries.length)).ackMessage m
          (m.prevLogIndex + m.entries.length) =
          r.ackMessage m (m.prevLogIndex + m.entries.length) := by
        unfold ackMessage
        rw [hid, ht', hsame.1, hsame.2]
      exact .inr (heq ▸ .ack hc (.inl ht) hterm hr)
  | covered _ m _ hc ht hterm hr _ _ hack =>
    obtain ⟨lm, sm, -, rfl⟩ := acknowledge_eq hack
    rcases queued_sendGatedOn ha with ha | rfl
    · exact .inl ha
    · exact .inr (.ack hc (.inr ht) hterm hr)
  | dropAcks =>
    rcases mem_queued.mp ha with ha | ⟨w, hw, rfl⟩
    · exact .inl (mem_queued.mpr (.inl ha))
    · exact .inl (mem_queued.mpr (.inr ⟨w, (mem_filter.mp hw).1, rfl⟩))
  | install r₁ m conf _ hc ht hterm hr _ _ _ _ hr' =>
    subst hr'
    obtain ⟨_, _, _, _, -, heq⟩ := r.installSnapshot_eq m conf
    rcases queued_sendGatedOn ha with ha | rfl
    · rw [heq] at ha
      exact .inl ha
    · refine .inr ?_
      have hack : (r.installSnapshot m conf).ackMessage m m.snapIndex =
          r.ackMessage m m.snapIndex := by
        rw [heq]
        rfl
      exact hack ▸ .ack hc (.inr ht) hterm hr
  | ackApplied i _ =>
    unfold Raft.ackApplied at ha
    split_ifs at ha <;> exact .inl ha
  | _ => exact .inl ha

/-! ### One vote a term -/

/-- The messages promise the same vote wherever they speak about the same term. -/
def OneVote (ms : List Message) : Prop :=
  ∀ m ∈ ms, ∀ m' ∈ ms, m.term = m'.term → ∀ v v', m.promised = some v → m'.promised = some v' →
    v ≠ 0 → v' ≠ 0 → v = v'

theorem OneVote.subset {ms ms' : List Message} (h : OneVote ms) (hs : ∀ m ∈ ms', m ∈ ms) :
    OneVote ms' :=
  fun m hm m' hm' => h m (hs m hm) m' (hs m' hm')

/-- A message of the hard state's own term agrees with everything the hard state attests. -/
theorem OneVote.cons {ms : List Message} {m : Message} {hs : HardState} (h : OneVote ms)
    (ha : ∀ a ∈ ms, hs.Attests a) (hm : hs.Speaks m) : OneVote (m :: ms) := by
  have hagree : ∀ a ∈ ms, m.term = a.term → ∀ v v', m.promised = some v → a.promised = some v' →
      v' ≠ 0 → v = v' := by
    intro a hmem ht v v' hv hv' hne
    rcases ha a hmem with hu | ⟨-, hp⟩
    · have : a.promised = none := by
        unfold Message.promised
        split <;> simp_all [MessageType.ungated]
      rw [this] at hv'
      cases hv'
    · rcases hp v' hv' hne with hlt | heq
      · have := hm.1
        omega
      · exact (hm.2 v hv).symm.trans heq
  intro a hmem a' hmem' ht v v' hv hv' hne hne'
  rcases mem_cons.mp hmem with heq | hin
  · subst heq
    rcases mem_cons.mp hmem' with heq | hin'
    · exact Option.some.inj (hv.symm.trans (heq ▸ hv'))
    · exact hagree a' hin' ht v v' hv hv' hne'
  · rcases mem_cons.mp hmem' with heq | hin'
    · subst heq
      exact (hagree a hin ht.symm v' v hv' hv hne).symm
    · exact h a hin a' hin' ht v v' hv hv' hne hne'

theorem GateStep.hs_le {g g' : Gate} (h : GateStep g g') : g.hs.Le g'.hs := by
  cases h with
  | dirty =>
    unfold Gate.dirty
    split_ifs <;> exact .refl _
  | send mark snapMark _ =>
    unfold Gate.send
    split_ifs <;> exact .refl _
  | set hle => exact (Gate.set_hs g _).symm ▸ hle
  | drop _ => exact .refl _
  | emit _ => exact .refl _

namespace Gate

variable {g g' : Gate} {d : Journal Disk} {sent : List Message}

/-- The messages waiting in a gate. -/
def queued (g : Gate) : List Message := g.msgs ++ g.gated.map (·.msg)

/-- The messages handed out earlier stay attested, and together with those that wait they promise
one vote a term. -/
structure Past (g : Gate) (d : Journal Disk) (sent : List Message) : Prop where
  current : ∀ m ∈ sent, g.hs.Attests m
  inFlight : ∀ m ∈ sent, ∀ x ∈ d.inFlight, x.2.hs.Attests m
  stable : ∀ m ∈ sent, d.stable.hs.Attests m
  oneVote : OneVote (sent ++ g.queued)

theorem Inv.queued_current (hi : g.Inv d) {m : Message} (hm : m ∈ g.queued) : g.hs.Attests m := by
  rcases mem_append.mp hm with h | h
  · exact hi.msgs_current m h
  · obtain ⟨w, hw, rfl⟩ := mem_map.mp h
    exact hi.gated_current w hw

theorem Past.step (hp : g.Past d sent) (hi : g.Inv d) (h : GateStep g g') : g'.Past d sent := by
  refine ⟨fun m hm => (hp.current m hm).mono h.hs_le, hp.inFlight, hp.stable, ?_⟩
  have hatt : ∀ a ∈ sent ++ g.queued, g.hs.Attests a := fun a ha =>
    (mem_append.mp ha).elim (hp.current a) hi.queued_current
  cases h with
  | dirty =>
    have : g.dirty.queued = g.queued := by
      unfold Gate.dirty
      split_ifs <;> rfl
    rw [this]
    exact hp.oneVote
  | drop hsub =>
    refine hp.oneVote.subset fun m hm => ?_
    rcases mem_append.mp hm with hm | hm
    · exact mem_append_left _ hm
    · rcases mem_append.mp hm with hm | hm
      · exact mem_append_right _ (mem_append_left _ hm)
      · obtain ⟨w, hw, rfl⟩ := mem_map.mp hm
        exact mem_append_right _ (mem_append_right _
          (mem_map_of_mem (hsub.subset hw)))
  | @send mark snapMark m hm =>
    refine (hp.oneVote.cons hatt hm).subset fun a ha => ?_
    have : a ∈ sent ∨ a ∈ g.queued ∨ a = m := by
      unfold Gate.send at ha
      split_ifs at ha <;>
        simp only [queued, map_append, map_cons, map_nil, mem_append,
          mem_singleton] at ha ⊢ <;> tauto
    simp only [mem_cons, mem_append]
    tauto
  | @emit m hu =>
    have hnone : m.promised = none := by
      unfold Message.promised
      split <;> simp_all [MessageType.ungated]
    have hmem : ∀ a ∈ sent ++ queued { g with msgs := g.msgs ++ [m] }, a.promised ≠ none →
        a ∈ sent ++ g.queued := by
      intro a ha hne
      simp only [queued, mem_append, mem_singleton] at ha ⊢
      rcases ha with ha | ((ha | rfl) | ha)
      · exact .inl ha
      · exact .inr (.inl ha)
      · exact absurd hnone hne
      · exact .inr (.inr ha)
    intro a ha a' ha' ht v v' hv hv'
    exact hp.oneVote a (hmem a ha (by simp [hv])) a' (hmem a' ha' (by simp [hv'])) ht v v' hv hv'
  | @set hs _ =>
    have : (g.set hs).queued = g.queued := by
      unfold Gate.set Gate.dirty
      split_ifs <;> rfl
    rw [this]
    exact hp.oneVote

theorem Past.start {a : Disk} (h : ∀ m ∈ sent, a.hs.Attests m) (ho : OneVote sent) :
    Past ⟨a.hs, false, 0, false, 0, 0, 0, [], []⟩ { stable := a } sent :=
  ⟨h, fun _ _ _ hx => absurd hx (by simp), h, by simpa [queued] using ho⟩

theorem Past.steps (hp : g.Past d sent) (hi : g.Inv d) (h : GateSteps g g') : g'.Past d sent := by
  induction h with
  | refl => exact hp
  | tail hs h ih => exact ih.step (hi.steps hs) h

end Gate

namespace Server

variable {s s' : Server} {c : Call} {rep : Reply}

/-- What a server has handed out is consistent with its gate and its disk. -/
def PastInv (s : Server) : Prop := s.raft.gate.Past s.disk s.sent

theorem mem_sent_exec (h : s.exec c = .ok (s', rep)) {m : Message} (hm : m ∈ s'.sent) :
    m ∈ s.sent ∨ m ∈ s.raft.msgs := by
  obtain ⟨r, hx, rfl⟩ := exec_raft h
  unfold record at hm
  split at hm
  · rename_i rd
    rw [← drained_messages h]
    exact mem_append.mp hm
  all_goals exact .inl hm

theorem PastInv.drain (hp : s.PastInv) (hi : s.GateInv) {r : Raft}
    (hs : r.hardState = s.raft.hardState) (hq : ∀ m ∈ r.queued, m ∈ s.raft.queued)
    {d : Journal Disk} (hd : d.stable = s.disk.stable)
    (hf : ∀ x ∈ d.inFlight, x ∈ s.disk.inFlight ∨ x.2.hs = s.raft.hardState) :
    r.gate.Past d (s.sent ++ s.raft.msgs) := by
  have hcur : ∀ m ∈ s.sent ++ s.raft.msgs, s.raft.hardState.Attests m := fun m hm =>
    (mem_append.mp hm).elim (hp.current m) (hi.msgs_current m)
  refine ⟨fun m hm => ?_, fun m hm x hx => ?_, fun m hm => ?_, ?_⟩
  · show r.hardState.Attests m
    exact hs ▸ hcur m hm
  · rcases hf x hx with hx | heq
    · exact (mem_append.mp hm).elim (fun h => hp.inFlight m h x hx)
        fun h => hi.msgs_inFlight m h x hx
    · exact heq ▸ hcur m hm
  · rw [hd]
    exact (mem_append.mp hm).elim (hp.stable m) (hi.msgs_stable m)
  · refine hp.oneVote.subset fun m hm => ?_
    rcases mem_append.mp hm with hm | hm
    · exact (mem_append.mp hm).elim (mem_append_left _)
        fun h => mem_append_right _ (mem_append_left _ h)
    · exact mem_append_right _ (hq m hm)

theorem PastInv.exec (hp : s.PastInv) (hi : s.GateInv) (ha : s.admitsMark c)
    (h : s.exec c = .ok (s', rep)) : s'.PastInv := by
  obtain ⟨r, hx, rfl⟩ := exec_raft h
  unfold PastInv
  rw [record_raft]
  cases exec_executed hx with
  | plain hpl hm =>
    rw [record_plain s hpl]
    exact Gate.Past.steps hp hi hm.gateSteps
  | @handOver entries committed _ _ _ =>
    refine hp.drain (r := (s.raft.takeOutputs.handOver entries).flushed) hi rfl (fun m hm => ?_) ?_
      fun x hx => ?_
    · exact mem_queued_flushed (r := s.raft.takeOutputs.handOver entries) hm
    · show (if s.raft.dirtyMark = 0 then s.disk else _).stable = _
      split_ifs <;> rfl
    · change x ∈ (if s.raft.dirtyMark = 0 then s.disk else _).inFlight at hx
      split_ifs at hx
      · exact .inl hx
      · rcases Journal.mem_push.mp hx with hx | rfl
        · exact .inl hx
        · exact .inr (write_hs _ _ _ _ hi.current)
  | idle _ _ hd =>
    refine hp.drain hi ?_ (fun m hm => ?_) rfl fun x hx => .inl hx
    · obtain ⟨_, _, _, _, heq⟩ := s.raft.takeOutputs.closeIdle_eq
      rw [heq]
      rfl
    · exact mem_queued_closeIdle (r := s.raft.takeOutputs) (mem_queued_flushed hm)
  | @staleAck m hm =>
    rw [record_staleAck s hm]
    exact hp
  | @ack m _ hm hs =>
    have hmem := mem_inFlight_of_admitsMark ha hm
    obtain ⟨y, hy, -, hstable⟩ := Journal.land_stable hi.ordered hmem
    have hland : (s.raft.landMarks m).gate.Past (s.disk.land m) s.sent := by
      refine ⟨hp.current, fun a ha x hx => hp.inFlight a ha x (Journal.mem_land.mp hx).1,
        fun a ha => ?_, hp.oneVote.subset fun a ha => ?_⟩
      · rw [hstable]
        exact hp.inFlight a ha y hy
      · exact (mem_append.mp ha).elim (mem_append_left _) fun h =>
          mem_append_right _ (mem_queued_release (r := (s.raft.landed m).closeThrough m) h)
    rw [record_ack s hm]
    exact hland.steps (hi.landMarks hmem) hs.gateSteps
  | staleSnap _ => exact hp
  | @ackSnap m _ =>
    refine ⟨hp.current, hp.inFlight, hp.stable, hp.oneVote.subset fun a ha => ?_⟩
    exact (mem_append.mp ha).elim (mem_append_left _) fun h =>
      mem_append_right _ (mem_queued_release (r := s.raft.snapLanded m) h)
  | uncompacted => exact hp
  | recompacted _ => exact hp
  | compacted _ _ _ _ _ => exact hp

end Server

end Rift
