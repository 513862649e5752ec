import Rift.Raft.Votes

/-!
# Where entries and read contexts come from

Nothing a node holds is made up: an entry with an identifier was proposed under it, and the context of
a read was given with a call of `ReadIndex`. Both travel between nodes, and lie in logs, on disks, in
withheld messages and in queues of requests.

The account is kept for an arbitrary predicate on entries and one on contexts. A call that proposes
nothing and asks for no new read keeps it, whatever is delivered from nodes that keep it too.
-/

namespace Rift

open Raft List

variable {Q : Entry → Prop} {A : Bytes → Prop}

/-- The entries and the context a message carries. -/
structure Message.Stems (Q : Entry → Prop) (A : Bytes → Prop) (m : Message) : Prop where
  entries : ∀ e ∈ m.entries, Q e
  ctx : m.type = .readIndex ∨ m.type = .readIndexResp → A m.readCtx

/-- The entries and contexts a node holds. -/
structure Raft.Stems (Q : Entry → Prop) (A : Bytes → Prop) (r : Raft) : Prop where
  log : ∀ e ∈ r.log, Q e
  queued : ∀ m ∈ r.queued, m.Stems Q A
  pending : ∀ q ∈ r.pendingReads, A q.ctx
  ready : ∀ st ∈ r.readyReads, A st.ctx

/-- The entries and contexts of a node, of its disk and of what it has said. -/
structure Server.Stems (Q : Entry → Prop) (A : Bytes → Prop) (s : Server) : Prop where
  raft : s.raft.Stems Q A
  disk : ∀ v ∈ s.disk.versions, ∀ e ∈ v.log, Q e
  sent : ∀ m ∈ s.sent, m.Stems Q A

/-! ### Effects -/

variable {c : Call} {o r r' : Raft} {id : ProposalID} {data : Bytes} {type : EntryType}
  {m : Message}

namespace Raft

/-- What a call brings from outside is accounted for. -/
structure Stems.Given (Q : Entry → Prop) (A : Bytes → Prop) (c : Call) : Prop where
  proposes : c.proposes = false
  step : ∀ m, c = .step m → m.Stems Q A
  readIndex : ∀ ctx, c = .readIndex ctx → A ctx

theorem bare_stems (he : m.entries = []) (ht : ¬ (m.type = .readIndex ∨ m.type = .readIndexResp)) :
    m.Stems Q A where
  entries _ h := absurd (he ▸ h) not_mem_nil
  ctx h := absurd h ht

theorem Stems.said (h : r.Stems Q A) (hc : Stems.Given Q A c) (hm : Says c r m) : m.Stems Q A := by
  cases hm with
  | reveals hm =>
    cases hm with
    | app dest next _ _ =>
      exact ⟨fun e he => h.log e (suffix_subset next he), fun h => absurd h (by simp [appendMessage])⟩
    | readIndex ctx hcall =>
      exact ⟨fun e he => absurd he not_mem_nil, fun _ => hc.readIndex ctx hcall⟩
    | readIndexResp q hq _ _ =>
      exact ⟨fun e he => absurd he not_mem_nil, fun _ => h.pending q hq⟩
    | _ => exact bare_stems rfl (by rintro (h | h) <;> cases h)
  | ungated hm => cases hm <;> exact bare_stems rfl (by rintro (h | h) <;> cases h)
  | grant _ _ _ => exact bare_stems rfl (by rintro (h | h) <;> cases h)
  | ack _ _ _ _ => exact bare_stems rfl (by rintro (h | h) <;> cases h)

end Raft

theorem Micro.stems (hQ : ∀ r : Raft, Q r.noop) (hc : Stems.Given Q A c)
    (h : Micro c o r r') (hr : r.Stems Q A) : r'.Stems Q A := by
  have hreads : (∀ q ∈ r'.readQueues.1, A q.ctx) ∧ ∀ st ∈ r'.readQueues.2, A st.ctx := by
    generalize hx : r'.readQueues = x
    have heff := hx ▸ h.readEffect
    clear hx
    cases heff with
    | none => exact ⟨hr.pending, hr.ready⟩
    | forget => exact ⟨fun _ h => absurd h not_mem_nil, fun _ h => absurd h not_mem_nil⟩
    | record q hq =>
      refine ⟨fun q' hq' => ?_, hr.ready⟩
      rcases mem_append.mp hq' with hq' | hq'
      · exact hr.pending q' hq'
      · obtain rfl := mem_singleton.mp hq'
        rcases hq with ⟨hq, -⟩ | ⟨m, hm, ht, -, hctx⟩
        · exact hc.readIndex _ hq
        · exact hctx ▸ (hc.step m hm).ctx (.inl ht)
    | keep qs hqs =>
      refine ⟨fun q hq => ?_, hr.ready⟩
      obtain ⟨q', hq', hctx, -⟩ := hqs q hq
      exact hctx ▸ hr.pending q' hq'
    | answer q hq _ =>
      refine ⟨hr.pending, fun st hst => ?_⟩
      rcases mem_append.mp hst with hst | hst
      · exact hr.ready st hst
      · exact mem_singleton.mp hst ▸ hr.pending q hq
    | receive m hm ht =>
      refine ⟨hr.pending, fun st hst => ?_⟩
      rcases mem_append.mp hst with hst | hst
      · exact hr.ready st hst
      · exact mem_singleton.mp hst ▸ (hc.step m hm).ctx (.inr ht)
  refine ⟨fun e he => ?_, fun m hm => (h.voices hm).elim (hr.queued m) (hr.said hc), hreads.1,
    hreads.2⟩
  rcases h.mem_log he with he | ⟨-, he | he⟩ | ⟨m, hm, he⟩
  · exact hr.log e he
  · exact he ▸ hQ r
  · exact absurd he (by simp [hc.proposes])
  · exact (hc.step m hm).entries e he

theorem Micros.stems (hQ : ∀ r : Raft, Q r.noop) (hc : Stems.Given Q A c)
    (h : Micros c o r r') (hr : r.Stems Q A) : r'.Stems Q A := by
  induction h with
  | refl => exact hr
  | tail _ hm ih => exact hm.stems hQ hc ih

/-! ### Calls -/

namespace Raft

theorem mem_log_of_entryAt {i : ℕ} {e : Entry} (h : r.entryAt i = some e) : e ∈ r.log := by
  unfold entryAt at h
  split_ifs at h
  exact mem_of_getElem? h

theorem mem_of_mapM_ok {α β : Type} {f : α → Outcome β} {l : List α} {bs : List β}
    (h : l.mapM f = .ok bs) {b : β} (hb : b ∈ bs) : ∃ a ∈ l, f a = .ok b := by
  induction l generalizing bs with
  | nil =>
    cases h
    exact absurd hb not_mem_nil
  | cons a l ih =>
    rw [mapM_cons] at h
    obtain ⟨b', hb', h⟩ := bind_eq_ok.mp h
    obtain ⟨bs', hbs', h⟩ := bind_eq_ok.mp h
    cases h
    rcases mem_cons.mp hb with rfl | hb
    · exact ⟨a, by simp, hb'⟩
    · obtain ⟨a', ha', hf⟩ := ih hbs' hb
      exact ⟨a', by simp [ha'], hf⟩

theorem unapplied_subset {committed : List Entry} (h : r.unapplied = .ok committed) :
    committed ⊆ r.log := by
  intro e he
  obtain ⟨i, -, hi⟩ := mem_of_mapM_ok h he
  split at hi
  · rename_i e' hat
    cases hi
    exact mem_log_of_entryAt hat
  · cases hi

theorem Stems.mono (h : r.Stems Q A) (hlog : r'.log ⊆ r.log) (hqueued : r'.queued ⊆ r.queued)
    (hpending : r'.pendingReads ⊆ r.pendingReads) (hready : r'.readyReads ⊆ r.readyReads) :
    r'.Stems Q A where
  log e he := h.log e (hlog he)
  queued m hm := h.queued m (hqueued hm)
  pending q hq := h.pending q (hpending hq)
  ready st hst := h.ready st (hready hst)

theorem Stems.exec (hQ : ∀ r : Raft, Q r.noop) (h : r.Stems Q A) (hc : Stems.Given Q A c)
    {rep : Reply} (hx : r.exec c = .ok (r', rep)) : r'.Stems Q A :=
  (exec_executed hx).keeps
    (fun hd => h.mono (fun _ he => hd.proj Raft.log (fun _ => rfl) ▸ he) hd.queued
      (fun _ hq => hd.proj Raft.pendingReads (fun _ => rfl) ▸ hq) hd.readyReads)
    (fun hm => hm.stems hQ hc)
    (fun _ _ _ => h.mono (drop_subset _ _) (List.Subset.refl _) (List.Subset.refl _)
      (List.Subset.refl _)) h

/-- The entry a proposal appends. -/
def proposal (r : Raft) (type : EntryType) (id : ProposalID) (data : Bytes) : Entry :=
  { type := type, term := r.term, index := r.lastIndex + 1, id := id, data := data }

/-- A proposal is refused, or appends its entry and then does what a heartbeat could do. -/
inductive Proposed (r : Raft) (type : EntryType) (id : ProposalID) (data : Bytes) :
    Raft → Reply → Prop
  | refused (e : CallError) : Proposed r type id data r (.failed e)
  | appended {r₁ : Raft} (hz : id.zero = false)
      (h : Micros .tick r (r.extend (r.proposal type id data)) r₁) :
    Proposed r type id data r₁ .done

theorem appendAndBroadcast_proposed (hz : id.zero = false) (hr : r.role = .leader)
    (h : r.appendAndBroadcast type id data = .ok r') : Proposed r type id data r' .done := by
  obtain ⟨r₁, h₁, h⟩ := bind_eq_ok.mp h
  rw [appendEntries_next (by rfl)] at h₁
  cases h₁
  exact .appended hz (broadcastAppend_micros ((extend_role r _).trans hr) h).1

theorem exec_propose {rep : Reply} (h : r.exec (.propose id data) = .ok (r', rep)) :
    Proposed r .normal id data r' rep := by
  obtain ⟨res, hx, h⟩ := bind_eq_ok.mp h
  obtain ⟨rfl, rfl⟩ := Prod.mk.inj (pure_eq_ok.mp h)
  rcases propose_cases hx with ⟨e, rfl⟩ | ⟨hz, hr, r₁, hr₁, rfl⟩
  · exact .refused e
  · exact appendAndBroadcast_proposed hz hr hr₁

theorem exec_proposeConfChange {cc : ConfChangeV2} {rep : Reply}
    (h : r.exec (.proposeConfChange id cc) = .ok (r', rep)) :
    Proposed r .confChange id (encodeConfChange cc) r' rep := by
  obtain ⟨res, hx, h⟩ := bind_eq_ok.mp h
  obtain ⟨rfl, rfl⟩ := Prod.mk.inj (pure_eq_ok.mp h)
  rcases proposeConfChange_cases hx with ⟨e, rfl⟩ | ⟨hz, hr, -, -, r₁, hr₁, rfl⟩
  · exact .refused e
  · exact appendAndBroadcast_proposed hz hr hr₁

theorem Stems.proposed (hQ : ∀ r : Raft, Q r.noop) (h : r.Stems Q A) {rep : Reply}
    (hp : Proposed r type id data r' rep) (hnew : rep = .done → Q (r.proposal type id data)) :
    r'.Stems Q A := by
  cases hp with
  | refused e => exact h
  | appended _ hm =>
    refine hm.stems hQ ⟨rfl, by rintro m ⟨⟩, by rintro ctx ⟨⟩⟩ ?_
    obtain ⟨_, _, _, _, _, -, heq⟩ := r.extend_eq (r.proposal type id data)
    refine ⟨fun e he => ?_, ?_, ?_, ?_⟩
    · exact (extend_mem_log he).elim (h.log e) fun he => he ▸ hnew rfl
    · rw [heq]
      exact h.queued
    · rw [heq]
      exact h.pending
    · rw [heq]
      exact h.ready

end Raft

namespace Server

variable {s s' : Server} {rep : Reply}

/-- The driver's side of a call holds nothing that the node did not hold. -/
theorem Stems.record (h : s.Stems Q A) {r : Raft} (hr : r.Stems Q A)
    (hx : s.raft.exec c = .ok (r, rep)) : (s.record c r rep).Stems Q A := by
  refine ⟨by rw [record_raft]; exact hr, fun v hv e he => ?_, fun m hm => ?_⟩
  · rcases mem_log_record hx hv he with he | ⟨v, hv, he⟩
    · exact h.raft.log e he
    · exact h.disk v hv e he
  · have hexec : s.exec c = .ok (s.record c r rep, rep) := by rw [Server.exec, hx]; rfl
    rcases mem_sent_exec hexec hm with hm | hm
    · exact h.sent m hm
    · exact h.raft.queued m (mem_queued.mpr (.inl hm))

/-- A node that holds nothing and has said nothing, as at the birth of its range. -/
structure Untouched (s : Server) : Prop where
  log : s.raft.log = []
  queued : s.raft.queued = []
  pending : s.raft.pendingReads = []
  ready : s.raft.readyReads = []
  disk : ∀ v ∈ s.disk.versions, v.log = []
  sent : s.sent = []

theorem untouched_start (S : Roster) (n : NodeID) : (S.start n).Untouched :=
  ⟨rfl, rfl, rfl, rfl, by simp [Roster.start, Journal.versions], rfl⟩

theorem Untouched.stems (h : s.Untouched) : s.Stems Q A where
  raft := ⟨by simp [h.log], by simp [h.queued], by simp [h.pending], by simp [h.ready]⟩
  disk v hv := by simp [h.disk v hv]
  sent := by simp [h.sent]

theorem Stems.exec (hQ : ∀ r : Raft, Q r.noop) (h : s.Stems Q A)
    (hc : Raft.Stems.Given Q A c) (hx : s.exec c = .ok (s', rep)) : s'.Stems Q A := by
  obtain ⟨r, hr, rfl⟩ := exec_raft hx
  exact h.record (h.raft.exec hQ hc hr) hr

theorem Stems.proposed (hQ : ∀ r : Raft, Q r.noop) (h : s.Stems Q A)
    (hx : s.exec c = .ok (s', rep))
    (hp : ∀ {r}, s.raft.exec c = .ok (r, rep) → Proposed s.raft type id data r rep)
    (hnew : rep = .done → Q (s.raft.proposal type id data)) : s'.Stems Q A := by
  obtain ⟨r, hr, rfl⟩ := exec_raft hx
  exact h.record (h.raft.proposed hQ (hp hr) hnew) hr

theorem Stems.mono {Q' : Entry → Prop} {A' : Bytes → Prop} (h : s.Stems Q A)
    (hQ : ∀ e, Q e → Q' e) (hA : ∀ ctx, A ctx → A' ctx) : s.Stems Q' A' where
  raft := ⟨fun e he => hQ e (h.raft.log e he),
    fun m hm => ⟨fun e he => hQ e ((h.raft.queued m hm).entries e he),
      fun ht => hA _ ((h.raft.queued m hm).ctx ht)⟩,
    fun q hq => hA _ (h.raft.pending q hq), fun st hst => hA _ (h.raft.ready st hst)⟩
  disk v hv e he := hQ e (h.disk v hv e he)
  sent m hm := ⟨fun e he => hQ e ((h.sent m hm).entries e he), fun ht => hA _ ((h.sent m hm).ctx ht)⟩

/-- A restarted node holds what its disk gave back, which had been written there. -/
theorem Stems.restarted (h : s.Stems Q A) {cfg : Config} {d : Disk} {snap : SnapshotMeta} {r : Raft}
    (hd : ∀ e ∈ d.log, ∃ v ∈ s.disk.versions, e ∈ v.log)
    (hr : Raft.restore cfg d.hs snap (d.log.filter (snap.index < ·.index)) = .ok r) :
    (s.restarted r d snap).Stems Q A := by
  have hlog : ∀ e ∈ d.log, Q e := by
    intro e he
    obtain ⟨v, hv, he⟩ := hd e he
    exact h.disk v hv e he
  obtain ⟨rfl, -, -⟩ := restore_eq hr
  refine ⟨⟨fun e he => hlog e (mem_filter.mp he).1, ?_, ?_, ?_⟩, ?_, h.sent⟩
  · exact fun m hm => absurd hm not_mem_nil
  · exact fun q hq => absurd hq not_mem_nil
  · exact fun st hst => absurd hst not_mem_nil
  · intro v hv
    obtain rfl := mem_singleton.mp hv
    exact hlog

theorem Stems.say (h : s.Stems Q A) (dest : NodeID) (data : Bytes) :
    (s.say (s.raft.snapMessage dest data)).Stems Q A := by
  refine ⟨h.raft, h.disk, fun m hm => (mem_append.mp hm).elim (h.sent m) fun hm => ?_⟩
  obtain rfl := mem_singleton.mp hm
  exact bare_stems rfl (by rintro (h | h) <;> cases h)

/-- A drain returns entries of the log and the reads that are ready. -/
theorem exec_ready {rd : Ready} (hx : s.exec .ready = .ok (s', .drained rd)) :
    rd.committed ⊆ s.raft.log ∧ rd.readStates = s.raft.readyReads := by
  obtain ⟨r, hr, -⟩ := exec_raft hx
  cases exec_executed hr with
  | plain hp _ => cases hp
  | handOver _ ha _ => exact ⟨unapplied_subset ha, rfl⟩
  | idle _ ha _ => exact ⟨unapplied_subset ha, rfl⟩

end Server

/-! ### Confirmations -/

/-- The call delivers a leader's answer to a forwarded read. -/
def Call.deliversAnswer : Call → Bool
  | .step m => m.type = .readIndexResp
  | _ => false

/-- The reads that a call on a leader confirms: those it has ready for its own driver and those it
answers to a follower. A delivered answer confirms nothing. -/
def Raft.confirmations (c : Call) (r r' : Raft) : List ReadState :=
  (if c.deliversAnswer then [] else r'.readyReads.filter (· ∉ r.readyReads)) ++
    (r'.queued.filter fun m => m.type = .readIndexResp ∧ m ∉ r.queued).map fun m =>
      { index := m.readIndex, ctx := m.readCtx }

/-- A read that is ready was so before, is confirmed by the call, or is what the call delivers. -/
theorem Raft.mem_readyReads_exec {rep : Reply} (hx : r.exec c = .ok (r', rep)) {st : ReadState}
    (hst : st ∈ r'.readyReads) : st ∈ r.readyReads ∨ st ∈ confirmations c r r' ∨
      ∃ m, c = .step m ∧ m.type = .readIndexResp ∧ st = { index := m.readIndex, ctx := m.readCtx } := by
  by_cases hc : c.deliversAnswer
  · cases c with
    | step m =>
      have ht : m.type = .readIndexResp := by simpa [Call.deliversAnswer] using hc
      obtain ⟨res, hs, hx⟩ := bind_eq_ok.mp hx
      obtain ⟨rfl, -⟩ := Prod.mk.inj (pure_eq_ok.mp hx)
      unfold step at hs
      split_ifs at hs
      · cases hs
        exact .inl hst
      · obtain ⟨r₁, hd, hs⟩ := bind_eq_ok.mp hs
        cases hs
        unfold dispatch at hd
        rw [ht] at hd
        cases hd
        have hkeep : (r.observeTerm m).readyReads = r.readyReads := by
          unfold observeTerm becomeFollower
          split_ifs
          · exact setTermAndVote_proj _ _ _ Raft.readyReads (by intros; rfl)
          · rfl
          · rfl
        rcases mem_append.mp hst with hst | hst
        · exact .inl (hkeep ▸ hst)
        · exact .inr (.inr ⟨m, rfl, ht, mem_singleton.mp hst⟩)
    | _ => exact absurd hc (by simp [Call.deliversAnswer])
  · by_cases hold : st ∈ r.readyReads
    · exact .inl hold
    · refine .inr (.inl (mem_append_left _ ?_))
      rw [if_neg hc]
      exact mem_filter.mpr ⟨hst, by simpa using hold⟩

/-- An answer on its way was so before, or is confirmed by the call. -/
theorem Raft.mem_queued_confirmations (hm : m ∈ r'.queued) (ht : m.type = .readIndexResp) :
    m ∈ r.queued ∨
      ({ index := m.readIndex, ctx := m.readCtx } : ReadState) ∈ confirmations c r r' := by
  by_cases hold : m ∈ r.queued
  · exact .inl hold
  · refine .inr (mem_append_right _ (mem_map.mpr ⟨m, ?_, rfl⟩))
    exact mem_filter.mpr ⟨hm, by simpa [ht] using hold⟩

/-! ### Whole runs -/

namespace Cluster

variable {S : Roster} {g g' : Cluster} {ev : Event}

/-- What an event brings in is accounted for: the entry of a proposal, the context of a read, and the
log of a disk, which had been written there. -/
def sources (Q : Entry → Prop) (A : Bytes → Prop) : Regime
  | g, .call n (.propose pid data) => Q ((g n).raft.proposal .normal pid data)
  | g, .call n (.proposeConfChange pid cc) =>
    Q ((g n).raft.proposal .confChange pid (encodeConfChange cc))
  | _, .call _ (.readIndex ctx) => A ctx
  | g, .crash n d _ => ∀ e ∈ d.log, ∃ v ∈ (g n).disk.versions, e ∈ v.log
  | _, _ => True

theorem stems_happens (hQ : ∀ r : Raft, Q r.noop) (h : ∀ n, (g n).Stems Q A)
    (hev : sources Q A g ev) (hh : Happens S g ev g') : ∀ n, (g' n).Stems Q A := by
  have hupdate : ∀ {k s}, s.Stems Q A → ∀ n, (Function.update g k s n).Stems Q A := fun hs =>
    (Function.forall_update_iff g fun _ s => s.Stems Q A).mpr ⟨hs, fun n _ => h n⟩
  cases hh with
  | @call k c s rep _ hd hx =>
    refine hupdate ?_
    by_cases hp : c.proposes
    · cases c with
      | propose id data => exact (h k).proposed hQ hx exec_propose fun _ => hev
      | proposeConfChange id cc => exact (h k).proposed hQ hx exec_proposeConfChange fun _ => hev
      | _ => simp [Call.proposes] at hp
    · refine (h k).exec hQ ⟨by simpa using hp, fun m hm => ?_, fun ctx hctx => ?_⟩ hx
      · -- What is delivered was sent by a node that keeps the account.
        subst hm
        exact (h m.fromID).sent m (by simpa [delivers] using hd)
      · subst hctx
        exact hev
  | @crash k d snap r _ _ hr => exact hupdate ((h k).restarted hev hr)
  | @sendSnap k dest data _ _ => exact hupdate ((h k).say dest data)

/-- **Nothing is made up.** Whatever holds of a leader's no-op and of every entry that is proposed in a
run holds of every entry that any node hands out as committed, across crashes, elections, changes of
the configuration and snapshots, and in any order of deliveries; and whatever holds of every context
that is given to `ReadIndex` holds of every read that is answered. -/
theorem committed_proposed (hQ : ∀ r : Raft, Q r.noop)
    (h : Reaches S (sources Q A) S.start g) {n : NodeID} {s : Server} {rd : Ready}
    (hx : (g n).exec .ready = .ok (s, .drained rd)) :
    (∀ e ∈ rd.committed, Q e) ∧ ∀ st ∈ rd.readStates, A st.ctx := by
  have hstems : ∀ n, (g n).Stems Q A :=
    h.induction (P := fun g => ∀ n, (g n).Stems Q A) (fun n => (Server.untouched_start S n).stems)
      fun g ev g' hg hev hh => stems_happens hQ hg hev hh
  obtain ⟨hcommitted, hreads⟩ := Server.exec_ready hx
  exact ⟨fun e he => (hstems n).raft.log e (hcommitted he),
    fun st hst => (hstems n).raft.ready st (hreads ▸ hst)⟩

instance [DecidablePred Q] [DecidablePred A] (g : Cluster) (ev : Event) :
    Decidable (sources Q A g ev) := by
  unfold sources
  split <;> infer_instance

/-- The only voter commits its no-op and the one command that is proposed. -/
theorem committed_proposed_seven : ∃ (g : Cluster) (s : Server) (rd : Ready),
    (g 1).exec .ready = .ok (s, .drained rd) ∧ rd.committed.length = 2 ∧
      ∀ e ∈ rd.committed, e.data = [] ∨ e.data = [7] := by
  obtain ⟨g, hg, hq⟩ := exists_reaches voterAndLearner
    (sources (fun e => e.data = [] ∨ e.data = [7]) fun _ => False)
    [.call 1 .campaign, .call 1 (.propose { node := 1, seq := 1 } [7]), .call 1 .ready,
      .call 1 (.ackPersisted 1)] (fun g => (g 1).drain?.any fun p => p.2.committed.length = 2)
    (by decide +kernel)
  obtain ⟨⟨s, rd⟩, hdrain, hlen⟩ := (Option.any_eq_true _ _).mp hq
  have hx := Server.exec_ready_of_drain? hdrain
  exact ⟨g, s, rd, hx, of_decide_eq_true hlen, (committed_proposed (fun _ => .inl rfl) hg hx).1⟩

end Cluster

end Rift
