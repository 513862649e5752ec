import Rift.Raft.HardState

/-!
# What `HasReady` announces

A driver drains a node while `HasReady` says so. The predicate lists, one by one, the outputs that
`Ready` may hand over: a changed hard state, entries, messages, committed entries, a snapshot and
snapshot targets. The confirmed reads are not on the list. Where nothing else is pending, a read that
was confirmed stays behind when the driver's loop ends.
-/

namespace Rift

namespace Raft

variable {r : Raft}

/-- There is something to drain. -/
def hasReady (r : Raft) : Bool :=
  r.hardStateDirty || r.tail.handed < r.lastIndex || r.msgs ≠ [] || r.appliedIdx < r.commitIndex ||
    r.pendingSnap.isSome || r.snapTo ≠ []

/-- A drain that `HasReady` does not announce returns the confirmed reads and nothing else, unless the
loop over the committed entries wraps around. -/
theorem ready_of_not_hasReady (h : r.hasReady = false) (happ : r.appliedIdx + 1 < 2 ^ 64) :
    r.ready = .ok (r.takeOutputs.closeIdle.flushed, { readStates := r.readyReads }) := by
  simp only [hasReady, Bool.or_eq_false_iff, decide_eq_false_iff_not, ne_eq, not_not] at h
  obtain ⟨⟨⟨⟨⟨hhard, hhanded⟩, hmsgs⟩, happlied⟩, hsnap⟩, hto⟩ := h
  have hsnap : r.pendingSnap = none := by simpa using hsnap
  have hunhanded : r.unhanded = .ok [] := by
    unfold unhanded
    rw [if_neg hhanded]
    rfl
  have hunapplied : r.unapplied = .ok [] := by
    have hnone : min r.commitIndex r.lastIndex + 1 - (r.appliedIdx + 1) = 0 := by omega
    unfold unapplied
    rw [Nat.mod_eq_of_lt happ]
    dsimp only
    rw [hnone]
    rfl
  have hout : { r.output [] [] with mark := 0 } = ({ readStates := r.readyReads } : Ready) := by
    simp [output, changedHardState, hhard, hsnap, hmsgs, hto]
  unfold ready
  rw [hunhanded, hunapplied, ← hout]
  simp [bind, Except.bind, hhard, pure, Except.pure]

/-- After the largest index was acknowledged as applied, a drain panics. -/
theorem ready_of_wrapped (h : r.appliedIdx + 1 = 2 ^ 64) (r' : Raft) (rd : Ready) :
    r.ready ≠ .ok (r', rd) := by
  have hunapplied : ∀ es, r.unapplied ≠ .ok es := by
    intro es hes
    unfold unapplied at hes
    rw [h, Nat.mod_self] at hes
    dsimp only at hes
    rw [Nat.sub_zero, List.range'_succ, List.mapM_cons] at hes
    obtain ⟨e, he, -⟩ := bind_eq_ok.mp hes
    simp [entryAt] at he
  intro hr
  unfold ready at hr
  obtain ⟨_, -, hr⟩ := bind_eq_ok.mp hr
  obtain ⟨es, hes, -⟩ := bind_eq_ok.mp hr
  exact hunapplied es hes

/-- In every state of a node in which `HasReady` announces nothing: a drain returns nothing exactly
when no confirmed read waits and the applied index is not the largest one. -/
theorem drained_nothing (happ : r.appliedIdx < 2 ^ 64) (h : r.hasReady = false) :
    (∃ r', r.ready = .ok (r', {})) ↔ r.readyReads = [] ∧ r.appliedIdx ≠ 2 ^ 64 - 1 := by
  constructor
  · rintro ⟨r', hr⟩
    have hne : r.appliedIdx ≠ 2 ^ 64 - 1 := fun heq => ready_of_wrapped (by omega) _ _ hr
    rw [ready_of_not_hasReady h (by omega)] at hr
    injection hr with hr
    exact ⟨congrArg (·.2.readStates) hr, hne⟩
  · rintro ⟨hreads, hne⟩
    rw [ready_of_not_hasReady h (by omega), hreads]
    exact ⟨_, rfl⟩

end Raft

namespace Server

/-- A driver's round: what is drained is persisted at once, and drained again. -/
def drainedRound (mark : ℕ) : List Call := [.ready, .ackPersisted mark, .ready]

theorem drained_nothing_after_append : ∃ s : Server,
    Relation.ReflTransGen (Step fun s c => s.admits c) askedFollower s ∧
      s.raft.hasReady = false ∧ ∃ r', s.raft.ready = .ok (r', {}) := by
  obtain ⟨s, hrun, hq⟩ := exists_run (p := admits) (s := askedFollower)
    (heartbeatOfOne :: drainedRound 1)
    (fun s => !s.raft.hasReady && s.raft.readyReads = [] && s.raft.appliedIdx = 0)
    (by decide +kernel)
  simp only [Bool.and_eq_true, Bool.not_eq_true', decide_eq_true_eq] at hq
  obtain ⟨⟨hready, hreads⟩, happ⟩ := hq
  exact ⟨s, hrun, hready, (Raft.drained_nothing (by omega) hready).mpr ⟨hreads, by omega⟩⟩

/-- A follower asks its leader for a read index, and the leader answers. `HasReady` announces
nothing, so the driver's loop ends, while a drain would return the confirmed read. -/
theorem confirmed_read_left_behind : ∃ (s s' : Server) (rd : Ready),
    askedFollower.Starts ∧
      Relation.ReflTransGen (Step fun s c => s.admits c) askedFollower s ∧
      s.raft.hasReady = false ∧
      s.exec .ready = .ok (s', .drained rd) ∧ rd.readStates = [{ index := 0, ctx := [7] }] := by
  obtain ⟨s, hrun, hq⟩ := exists_run (p := admits) (s := askedFollower)
    (heartbeatOfOne :: drainedRound 1 ++
      [.readIndex [7], .ready,
        .step { type := .readIndexResp, fromID := 2, toID := 1, term := 1, readCtx := [7] }])
    (fun s => !s.raft.hasReady && s.drain?.any fun x =>
      x.2.readStates = [{ index := 0, ctx := [7] }]) (by decide +kernel)
  simp only [Bool.and_eq_true, Bool.not_eq_true'] at hq
  obtain ⟨⟨s', rd⟩, hd, hq'⟩ := Option.any_eq_true _ _ |>.mp hq.2
  exact ⟨s, s', rd, askedFollower_starts, hrun, hq.1, exec_ready_of_drain? hd, by simpa using hq'⟩

end Server

end Rift
