import Rift.Raft.Cluster
import Rift.Raft.Codec

/-!
# Runs with a fixed configuration

When no configuration change is proposed, no log, message or disk of a run holds one, every snapshot
carries the configuration the cluster started with, and every node keeps it.
-/

namespace Rift

open Raft List

/-- A list of client commands. -/
def Normal (es : List Entry) : Prop := ∀ e ∈ es, e.type = .normal

/-- The messages speak about client commands, and about snapshots under the configuration `C`. -/
def Message.Fixed (C : Configuration) (m : Message) : Prop :=
  Normal m.entries ∧ (m.type = .snap → m.snapConf = encodeConfiguration C)

/-- A node that has seen no configuration but `C`. -/
structure FixedNode (C : Configuration) (r : Raft) : Prop where
  base : r.baseConf = C
  log : Normal r.log
  tracks : Tracks r
  pending : ∀ snap ∈ r.pendingSnap, snap.conf = C
  queued : ∀ m ∈ r.queued, m.Fixed C

section Node

variable {C conf : Configuration} {r r' o : Raft} {c : Call} {e : Entry} {m : Message} {i : ℕ}

theorem Says.fixed (h : Says c r m) (hl : Normal r.log) : m.Fixed C := by
  have hnil : ∀ {m : Message}, m.entries = [] → m.type ≠ .snap → m.Fixed C := fun h₁ h₂ =>
    ⟨fun e he => absurd (h₁ ▸ he) (by simp), fun h => absurd h h₂⟩
  cases h with
  | reveals h =>
    cases h with
    | app dest next _ _ => exact ⟨fun e he => hl e (suffix_subset next he), fun h => absurd h (by simp [appendMessage])⟩
    | _ => exact hnil rfl (by rintro ⟨⟩)
  | ungated h => cases h <;> exact hnil rfl (by rintro ⟨⟩)
  | grant _ _ _ => exact hnil rfl (by rintro ⟨⟩)
  | ack _ _ _ _ => exact hnil rfl (by rintro ⟨⟩)

/-- A call that neither proposes a configuration change nor delivers anything about one. -/
def Call.Fixed (C : Configuration) (c : Call) : Prop :=
  (∀ id cc, c ≠ .proposeConfChange id cc) ∧ ∀ m, c = .step m → m.Fixed C

theorem Call.Fixed.snapConf (hc : c.Fixed C) (h : c = .step m) (ht : m.type = .snap)
    (hd : decodeConfiguration m.snapConf = some conf) : conf = C := by
  rw [(hc.2 m h).2 ht] at hd
  exact decode_encodeConfiguration hd

theorem FixedNode.conf_eq (hi : FixedNode C r) : r.conf = C := by
  rw [hi.tracks.conf, confOf_of_normal hi.log, hi.base]

/-- Every effect of a call about client commands keeps the node's configuration. -/
theorem Micro.fixed (h : Micro c o r r') (hc : c.Fixed C) (hi : FixedNode C r) :
    FixedNode C r' := by
  have hq : ∀ m ∈ r'.queued, m.Fixed C := fun m hm =>
    (h.voices hm).elim (hi.queued m) fun hs => hs.fixed hi.log
  have hadopted : r'.baseConf = C ∧ ∀ snap ∈ r'.pendingSnap, snap.conf = C := by
    show r'.adopted.1 = C ∧ ∀ snap ∈ r'.adopted.2, snap.conf = C
    rcases h.adopted with heq | ⟨m, conf, hm, ht, hd, heq⟩
    · rw [heq]
      exact ⟨hi.base, hi.pending⟩
    · obtain rfl := hc.snapConf hm ht hd
      rw [heq]
      exact ⟨rfl, by rintro snap ⟨⟩; rfl⟩
  refine ⟨hadopted.1, fun e he => ?_, h.tracks hi.tracks, hadopted.2, hq⟩
  rcases h.mem_log he with he | ⟨hconf, -⟩ | ⟨m, hm, he⟩
  · exact hi.log e he
  · cases ht : e.type with
    | normal => rfl
    | confChange =>
      obtain ⟨id, cc, h⟩ := hconf ht
      exact absurd h (hc.1 id cc)
  · exact (hc.2 m hm).1 e he

theorem FixedNode.confAt_eq (hi : FixedNode C r) (h : r.configurationAt i = .ok conf) :
    conf = C := by
  unfold configurationAt at h
  split_ifs at h
  · injection h with h
    exact h ▸ hi.base
  · injection h with h
    rw [← h, ← hi.base]
    exact confOf_of_normal fun e he => hi.log e ((takeWhile_sublist _).subset he)

theorem FixedNode.dropThrough (hi : FixedNode C r) (h : r.configurationAt i = .ok conf) (t : ℕ) :
    FixedNode C (r.dropThrough i t conf) :=
  ⟨hi.confAt_eq h, fun e he => hi.log e (mem_of_mem_drop he), .recompute _, hi.pending,
    hi.queued⟩

theorem FixedNode.drained (hi : FixedNode C r) (hd : Drained r r') : FixedNode C r' :=
  ⟨(hd.proj Raft.baseConf fun _ => rfl).trans hi.base, hd.proj Raft.log (fun _ => rfl) ▸ hi.log,
    hi.tracks.drained hd, fun snap hs => hi.pending snap (hd.pendingSnap snap hs), fun m hm => hi.queued m (hd.queued hm)⟩

theorem Executed.fixed {rep : Reply} (h : Executed r c r' rep) (hc : c.Fixed C)
    (hi : FixedNode C r) : FixedNode C r' :=
  h.keeps hi.drained (fun hm => hm.fixed hc) (fun _ _ hconf => hi.dropThrough hconf _) hi

end Node

/-! ### Servers -/

/-- A server that has seen no configuration but `C`: its node, what it handed out, its disk, and the
snapshots it may recover from. -/
structure Server.Fixed (C : Configuration) (s : Server) : Prop where
  node : FixedNode C s.raft
  sent : ∀ m ∈ s.sent, m.Fixed C
  disk : ∀ d ∈ s.disk.versions, Normal d.log
  snaps : ∀ x ∈ s.snaps, x.conf.voters ≠ [] → x.conf = C

namespace Server.Fixed

variable {C : Configuration} {s s' : Server} {c : Call} {rep : Reply} {r : Raft}

theorem mem_snaps_record (hx : s.raft.exec c = .ok (r, rep)) {x : SnapshotMeta}
    (h : x ∈ (s.record c r rep).snaps) :
    x ∈ s.snaps ∨ (∃ snap ∈ s.raft.pendingSnap, x.conf = snap.conf) ∨
      x.conf = s.raft.baseConf ∨ ∃ i, s.raft.configurationAt i = .ok x.conf := by
  have hhanded : x ∈ s.snaps ++ (s.raft.pendingSnap.map Snapshot.meta).toList →
      x ∈ s.snaps ∨ ∃ snap ∈ s.raft.pendingSnap, x.conf = snap.conf := fun h =>
    (mem_append.mp h).imp_right fun h => by
      obtain ⟨snap, hsnap, rfl⟩ := Option.map_eq_some_iff.mp (Option.mem_toList.mp h)
      exact ⟨snap, hsnap, rfl⟩
  cases exec_executed hx with
  | plain hp _ =>
    rw [record_plain s hp] at h
    exact .inl h
  | recompacted _ =>
    refine (mem_append.mp h).imp_right fun h => .inr (.inl ?_)
    rw [mem_singleton.mp h]
  | @compacted i _ _ _ _ _ _ hc =>
    refine (mem_append.mp h).imp_right fun h => .inr (.inr ⟨i, ?_⟩)
    rw [mem_singleton.mp h, hc]
  | handOver _ _ _ => exact (hhanded h).imp_right .inl
  | idle _ _ _ => exact (hhanded h).imp_right .inl
  | _ => exact .inl h

theorem exec (hi : s.Fixed C) (hc : c.Fixed C) (h : s.exec c = .ok (s', rep)) : s'.Fixed C := by
  have hsent : ∀ m ∈ s'.sent, m.Fixed C := fun m hm =>
    (mem_sent_exec h hm).elim (hi.sent m) fun h => hi.node.queued m (mem_queued.mpr (.inl h))
  obtain ⟨r, hx, rfl⟩ := exec_raft h
  refine ⟨?_, hsent, fun d hd e he => ?_, fun x hmem hne => ?_⟩
  · rw [record_raft]
    exact (exec_executed hx).fixed hc hi.node
  · rcases mem_log_record hx hd he with he | ⟨v, hv, he⟩
    · exact hi.node.log e he
    · exact hi.disk v hv e he
  · rcases mem_snaps_record hx hmem with hmem | ⟨snap, hsnap, heq⟩ | heq | ⟨i, hconf⟩
    · exact hi.snaps x hmem hne
    · exact heq.trans (hi.node.pending snap hsnap)
    · exact heq.trans hi.node.base
    · exact hi.node.confAt_eq hconf

theorem start (S : Setup) (n : NodeID) : (S.start n).Fixed S.conf := by
  refine ⟨⟨S.conf_eq n, ?_, fresh_tracks _, ?_, ?_⟩, ?_, ?_, ?_⟩
  all_goals simp [Roster.start, fresh, Normal, queued, Journal.versions]

theorem restarted {S : Setup} {n : NodeID} (hi : s.Fixed S.conf) {d : Disk} (hd : Normal d.log)
    {snap : SnapshotMeta} (hs : snap ∈ s.snaps)
    (hr : Raft.restore (S.cfg n) d.hs snap (d.log.filter (snap.index < ·.index)) = .ok r) :
    (s.restarted r d snap).Fixed S.conf := by
  obtain ⟨rfl, -, -⟩ := restore_eq hr
  have hbase : (if snap.conf.voters = [] then (S.cfg n).conf else snap.conf) = S.conf := by
    split_ifs with hv
    · exact S.conf_eq n
    · exact hi.snaps snap hs hv
  refine ⟨⟨hbase, fun e he => hd e (mem_filter.mp he).1, recovered_tracks _ _ _ _, ?_, ?_⟩,
    hi.sent, ?_, hi.snaps⟩
  · rintro snap ⟨⟩
  · intro m hm
    have hnil : (recovered (S.cfg n) d.hs snap
        (d.log.filter (snap.index < ·.index))).queued = [] := rfl
    exact absurd (hnil ▸ hm : m ∈ []) (by simp)
  · intro d' hd'
    rcases mem_cons.mp hd' with rfl | hd'
    · exact hd
    · exact absurd hd' (by simp [Server.restarted])

end Server.Fixed

end Rift
