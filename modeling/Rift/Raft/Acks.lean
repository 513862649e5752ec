import Rift.Raft.LogStream

/-!
# Acknowledged entries are durable

A success response to an append or a snapshot is withheld on a mark of the log stream, a mark of
the snapshot stream, or both, and the two streams are acknowledged in any relative order.

The code is right about this under three conditions on the driver's calls, which it does not
check (`Raft.orderly`): an append carries consecutive entries; no index above the snapshot is
acknowledged while the install of that snapshot is in flight; and a response that was released
is drained before the log under it is cut or replaced. Without the second, a response leaves
before its snapshot is durable.
-/

namespace Rift

open List Bool

namespace Raft

variable (r : Raft)

/-- An append with consecutive entries that acknowledges nothing above a snapshot in flight and
cuts nothing a released response speaks about. -/
def orderlyApp (m : Message) : Bool :=
  consecutive m.prevLogIndex m.entries &&
    (r.snapMark = 0 || m.prevLogIndex + m.entries.length ≤ r.snapIndex) &&
    r.msgs.all fun a => !a.isSuccess ||
      m.entries.all fun e => a.matchIndex < e.index || r.termAt e.index = e.term

/-- A snapshot that acknowledges nothing above a snapshot in flight, and replaces no log a released
response speaks about. -/
def orderlySnap (m : Message) : Bool :=
  if m.snapIndex ≤ r.commitIndex then r.snapMark = 0 || r.lastIndex ≤ r.snapIndex
  else r.msgs.all fun a => !a.isSuccess

/-- What the code leaves to the driver for a response to be durable. -/
def orderly : Call → Bool
  | .step m =>
    match m.type with
    | .app => r.orderlyApp m
    | .snap => r.orderlySnap m
    | _ => true
  | _ => true

end Raft

open Raft

/-! ### The invariants -/

/-- The snapshot stream, over its marks: the install that is waited for makes the snapshot durable,
and every response that is not empty waits for it. -/
structure SnapInv (r : Raft) (installs : List (ℕ × ℕ)) (snapped : ℕ → Bool) : Prop where
  settled : r.snapMark = 0 → ∀ i, 0 < i → i ≤ r.snapIndex → snapped i
  /-- The install of `b` makes all of the snapshot durable, compactions after it included. -/
  pending : r.snapMark ≠ 0 → ∃ b, (∀ i, b < i → i ≤ r.snapIndex → snapped i) ∧
    ((∃ p, r.pendingSnap = some p ∧ p.index = b) ∨ (r.snapMark, b) ∈ installs)
  gated : ∀ w ∈ r.gated, isAck w → r.snapMark ≠ 0 →
    w.snapMark = r.snapMark ∨ w.msg.matchIndex = 0
  msgs : ∀ m ∈ r.msgs, m.isSuccess → r.snapMark ≠ 0 → m.matchIndex = 0

/-- The released responses: every disk a crash may leave holds the log they speak about. -/
def MsgsHeld (r : Raft) (d : Journal Disk) : Prop :=
  ∀ m ∈ r.msgs, m.isSuccess → AckHeld r d { msg := m }

/-- Both streams and the released responses. -/
structure RepliesHeld (r : Raft) (d : Journal Disk) (installs : List (ℕ × ℕ))
    (snapped : ℕ → Bool) : Prop where
  log : LogInv r d
  msgs : MsgsHeld r d
  snap : SnapInv r installs snapped

section Node

variable {r r' o : Raft} {d : Journal Disk} {installs : List (ℕ × ℕ)} {snapped : ℕ → Bool}
  {m : Message} {e : Entry} {i k : ℕ}

/-! ### Effects -/

theorem MsgsHeld.congr (hi : MsgsHeld r d) (h : r'.logCore = r.logCore) : MsgsHeld r' d := by
  have hcore : MsgsHeld r.logCore d := fun m hm ha => { hi m hm ha with }
  rw [← h] at hcore
  exact fun m hm ha => { hcore m hm ha with }

theorem SnapInv.congr (hi : SnapInv r installs snapped) (h : r'.logCore = r.logCore) :
    SnapInv r' installs snapped := by
  have hcore : SnapInv r.logCore installs snapped := { hi with }
  rw [← h] at hcore
  exact { hcore with }

section

variable (hi : RepliesHeld r d installs snapped)
include hi

theorem RepliesHeld.congr (h : r'.logCore = r.logCore) : RepliesHeld r' d installs snapped :=
  ⟨hi.log.congr h, hi.msgs.congr h, hi.snap.congr h⟩

theorem RepliesHeld.setTermAndVote (t : ℕ) (v : NodeID) :
    RepliesHeld (r.setTermAndVote t v) d installs snapped := by
  have hlog := hi.log.setTermAndVote t v
  rcases r.setTermAndVote_cases t v with ⟨-, -, h⟩ | ⟨nm, dm, -, h⟩
  · rw [h]
    exact hi
  · rw [h] at hlog ⊢
    exact ⟨hlog, fun m hm ha => { hi.msgs m hm ha with }, { hi.snap with }⟩

theorem RepliesHeld.emit (hack : m.isSuccess → AckHeld r d { msg := m })
    (hsnap : m.isSuccess → r.snapMark ≠ 0 → m.matchIndex = 0) :
    RepliesHeld (r.emit m) d installs snapped := by
  refine ⟨{ hi.log with acks := fun w hw ha => { hi.log.acks w hw ha with } }, fun m' hm' ha => ?_,
    { hi.snap with msgs := fun m' hm' ha => ?_ }⟩
  · rcases mem_append.mp hm' with h | h
    · exact { hi.msgs m' h ha with }
    · rw [mem_singleton.mp h] at ha ⊢
      exact { hack ha with }
  · rcases mem_append.mp hm' with h | h
    · exact hi.snap.msgs m' h ha
    · rw [mem_singleton.mp h] at ha ⊢
      exact hsnap ha

/-- Sending a message: a response must be held, and wait for the snapshot in flight. -/
theorem RepliesHeld.send {mark snapMark : ℕ}
    (hack : m.isSuccess → ∀ t, AckHeld r d ⟨m, mark, snapMark, t⟩ ∧
      (r.Idle → mark = r.dirtyMark → m.matchIndex ≤ r.snapIndex))
    (hsnap : m.isSuccess → r.snapMark ≠ 0 → snapMark = r.snapMark ∨ m.matchIndex = 0) :
    RepliesHeld (r.sendGatedOn mark snapMark m) d installs snapped := by
  have hlog := hi.log.send hack
  unfold sendGatedOn at hlog ⊢
  split_ifs at hlog ⊢ with h
  · obtain ⟨rfl, rfl, -⟩ := h
    refine hi.emit (fun ha => { (hack ha 0).1 with }) fun ha hne => ?_
    exact (hsnap ha hne).resolve_left (Ne.symm hne)
  · refine ⟨hlog, fun m' hm' ha => { hi.msgs m' hm' ha with },
      { hi.snap with gated := fun w hw ha hne => ?_ }⟩
    rcases mem_append.mp hw with hw | hw
    · exact hi.snap.gated w hw ha hne
    · rw [mem_singleton.mp hw] at ha ⊢
      exact hsnap ha hne

theorem RepliesHeld.sendGated (h : m.isSuccess = false) :
    RepliesHeld (r.sendGated m) d installs snapped :=
  hi.send (fun ha => absurd (h.symm.trans ha) (by simp)) fun ha => absurd (h.symm.trans ha) (by simp)

theorem RepliesHeld.extend (hw : r.Watermarks) (he : e.index = r.lastIndex + 1) :
    RepliesHeld (r.extend e) d installs snapped := by
  have hlog := hi.log.toLogHeld.extend hw he
  have hack : ∀ m ∈ r.msgs, m.isSuccess → AckHeld (r.extend e) d { msg := m } := fun m hm ha =>
    (hi.msgs m hm ha).extend hw.contiguous he
  obtain ⟨_, _, _, _, _, -, heq⟩ := r.extend_eq e
  rw [heq] at hlog hack ⊢
  exact ⟨hlog, hack, { hi.snap with }⟩

theorem RepliesHeld.acknowledge (hv : MarkInv r d installs) (hg : r.gate.Inv d)
    (hk : k ≤ r.lastIndex) (hs : r.snapMark = 0 ∨ k ≤ r.snapIndex)
    (h : r.acknowledge m k = .ok r') : RepliesHeld r' d installs snapped := by
  obtain ⟨lm, sm, hm, rfl⟩ := acknowledge_eq h
  refine hi.send (fun _ t => hi.log.marksFor hv hg hk hm rfl rfl) fun _ hne => ?_
  have hk := hs.resolve_left hne
  unfold Raft.marksFor at hm
  split_ifs at hm with h₁
  · exact .inr h₁
  · exact .inl (congrArg Prod.snd (pure_eq_ok.mp hm)).symm

/-! ### Storing the entries of an append -/

theorem RepliesHeld.storeEntry (hw : r.Watermarks)
    (hfree : ∀ a ∈ r.msgs, a.isSuccess → a.matchIndex < e.index ∨ r.termAt e.index = e.term)
    (h : r.storeEntry e = .ok r') : RepliesHeld r' d installs snapped := by
  rcases storeEntry_cases h with ⟨-, -, rfl⟩ | ⟨hle, hne, -, hs, rfl⟩ | ⟨he, rfl⟩
  · exact hi
  · have hlog := hi.log.storeEntry hw h
    have hlast := cutFrom_lastIndex hw.contiguous hs hle
    have hack : ∀ m ∈ r.msgs, m.isSuccess →
        AckHeld ((r.cutFrom e.index).extend e) d { msg := m } := fun m hm ha =>
      ((hi.msgs m hm ha).cutFrom hw.contiguous hs hle
        ((hfree m hm ha).resolve_right hne)).extend (hw.contiguous.cutFrom _) hlast.symm
    have hsnap : SnapInv (r.cutFrom e.index) installs snapped :=
      { hi.snap with gated := fun w hw => hi.snap.gated w (mem_filter.mp hw).1 }
    obtain ⟨_, _, _, _, _, -, heq⟩ := (r.cutFrom e.index).extend_eq e
    rw [heq] at hlog hack ⊢
    exact ⟨hlog, hack, { hsnap with }⟩
  · exact hi.extend hw he

theorem RepliesHeld.storeEntries (hw : r.Watermarks) {es : List Entry}
    (hfree : ∀ a ∈ r.msgs, a.isSuccess → ∀ e ∈ es,
      a.matchIndex < e.index ∨ r.termAt e.index = e.term)
    (h : es.foldlM Raft.storeEntry r = .ok r') : RepliesHeld r' d installs snapped := by
  -- Along the fold the terms a released response speaks about are those of the start.
  have hfold := foldlM_inv
    (P := fun r₁ => RepliesHeld r₁ d installs snapped ∧ r₁.Watermarks ∧ r₁.msgs = r.msgs ∧
      ∀ a ∈ r.msgs, a.isSuccess → ∀ i ≤ a.matchIndex, r₁.termAt i = r.termAt i)
    (fun r₁ e he r₂ ⟨hi₁, hw₁, hmsgs, hterm⟩ h₂ => by
      have hfree₁ : ∀ a ∈ r.msgs, a.isSuccess →
          a.matchIndex < e.index ∨ r₁.termAt e.index = e.term := by
        intro a ha hs
        rcases Nat.lt_or_ge a.matchIndex e.index with hlt | hge
        · exact .inl hlt
        · exact .inr ((hterm a ha hs _ hge).trans ((hfree a ha hs e he).resolve_left
            (not_lt.mpr hge)))
      refine ⟨hi₁.storeEntry hw₁ (hmsgs ▸ hfree₁) h₂, hw₁.storeEntry h₂,
        (storeEntry_proj Raft.msgs h₂ (by intros; rfl)).trans hmsgs, fun a ha hs i hia => ?_⟩
      have hle : i ≤ r₁.lastIndex := hia.trans (hi₁.msgs a (hmsgs ▸ ha) hs).le
      rw [storeEntry_termAt hw₁.contiguous h₂ ?_ hle, hterm a ha hs i hia]
      exact (hfree₁ a ha hs).imp_left hia.trans_lt)
    ⟨hi, hw, rfl, fun _ _ _ _ _ => rfl⟩ h
  exact hfold.1

theorem RepliesHeld.accept (hv : MarkInv r d installs) (hg : r.gate.Inv d) {r₁ : Raft}
    (hm : r.matchesLog m.prevLogIndex m.prevLogTerm) (ho : r.orderlyApp m)
    (hs : m.entries.foldlM Raft.storeEntry r = .ok r₁)
    (ha : (r₁.commitUpTo m.leaderCommit (m.prevLogIndex + m.entries.length)).acknowledge m
      (m.prevLogIndex + m.entries.length) = .ok r') : RepliesHeld r' d installs snapped := by
  simp only [orderlyApp, and_eq_true, or_eq_true, decide_eq_true_eq, all_eq_true,
    not_eq_true'] at ho
  obtain ⟨⟨hcons, hsnap⟩, hfree⟩ := ho
  have hi₁ := hi.storeEntries hv.water
    (fun a ha hs => (hfree a ha).resolve_left (by rw [hs]; simp)) hs
  have hcore : (r₁.commitUpTo m.leaderCommit (m.prevLogIndex + m.entries.length)).logCore =
      r₁.logCore := commitUpTo_proj _ _ _ Raft.logCore fun _ _ => rfl
  have hmark : r₁.snapMark = r.snapMark := storeEntries_proj _ hs (by intros; rfl)
  have hidx : r₁.snapIndex = r.snapIndex := storeEntries_proj _ hs (by intros; rfl)
  have hlast := storeEntries_lastIndex hv.water.contiguous hcons (le_lastIndex_of_matchesLog hm) hs
  refine (hi₁.congr hcore).acknowledge ((hv.storeEntries hs).commitUpTo _ _) ?_ ?_ ?_ ha
  · rw [commitUpTo_gate]
    exact hg.steps (storeEntries_gateSteps hs)
  · have := congrArg Raft.lastIndex hcore
    exact hlast.trans (ge_of_eq this)
  · have h₁ := congrArg Raft.snapMark hcore
    have h₂ := congrArg Raft.snapIndex hcore
    rw [← hmark, ← hidx] at hsnap
    exact h₁ ▸ h₂ ▸ hsnap

end

theorem RepliesHeld.install (conf : Configuration) (hg : ∀ w ∈ r.gated, isAck w = false)
    (hm : ∀ a ∈ r.msgs, a.isSuccess = false) :
    RepliesHeld (r.installSnapshot m conf) d installs snapped := by
  have hlog := LogInv.install d m conf hg
  obtain ⟨_, _, _, _, -, heq⟩ := r.installSnapshot_eq m conf
  rw [heq] at hlog ⊢
  exact ⟨hlog, fun a ha hs => absurd ((hm a ha).symm.trans hs) (by simp),
    { settled := fun h => absurd h (Nat.succ_ne_zero _)
      pending := fun _ =>
        ⟨m.snapIndex, fun i h₁ h₂ => absurd h₁ (not_lt.mpr h₂), .inl ⟨_, rfl, rfl⟩⟩
      gated := fun w hw ha => absurd ((hg w hw).symm.trans ha) (by simp)
      msgs := fun a ha hs => absurd ((hm a ha).symm.trans hs) (by simp) }⟩

end Node

theorem Raft.Steady.orderly {o r : Raft} (h : Steady o r) (c : Call) : r.orderly c = o.orderly c :=
  h.proj (fun r => r.orderly c) fun _ => rfl

variable {d : Journal Disk} {installs : List (ℕ × ℕ)} {snapped : ℕ → Bool}

theorem Micro.repliesHeld {c : Call} {o r r' : Raft} (h : Micro c o r r') (ho : o.orderly c)
    (hg : r.gate.Inv d) (hv : MarkInv r d installs) (hi : RepliesHeld r d installs snapped) :
    RepliesHeld r' d installs snapped := by
  cases h with
  | soft h => exact hi.congr (h.proj Raft.logCore fun _ => rfl)
  | bump m _ _ _ => exact (hi.setTermAndVote m.term 0).congr rfl
  | campaign _ _ _ =>
    have hcand : RepliesHeld r.takeCandidacy d installs snapped := hi.congr rfl
    exact (hcand.setTermAndVote (r.term + 1) r.id).congr rfl
  | grant m _ _ _ _ _ =>
    refine RepliesHeld.sendGated ?_ rfl
    rw [setVote_eq]
    exact (hi.setTermAndVote r.term m.fromID).congr rfl
  | reveal msg hm => exact hi.sendGated (by cases hm <;> rfl)
  | ungated msg hm =>
    have hno : msg.isSuccess = false := by cases hm <;> rfl
    exact hi.emit (fun h => absurd (hno.symm.trans h) (by simp))
      fun h => absurd (hno.symm.trans h) (by simp)
  | append e _ _ hidx _ _ => exact hi.extend hv.water hidx
  | accept r₁ _ m h₀ hc ht _ _ hm hs ha =>
    subst hc
    rw [← h₀.orderly] at ho
    simp only [orderly, ht] at ho
    exact hi.accept hv hg hm ho hs ha
  | covered _ m h₀ hc ht _ _ hle _ ha =>
    subst hc
    rw [← h₀.orderly] at ho
    simp only [orderly, ht, orderlySnap, if_pos hle, or_eq_true, decide_eq_true_eq] at ho
    exact hi.acknowledge hv hg le_rfl ho ha
  | dropAcks =>
    refine ⟨(hi.log.drop fun w hw => (mem_filter.mp hw).1).congr rfl,
      fun m hm ha => { hi.msgs m hm ha with },
      { hi.snap with gated := fun w hw => hi.snap.gated w (mem_filter.mp hw).1 }⟩
  | install r₁ m conf h₀ hc ht _ _ hlt hacks _ _ hr' =>
    subst hc hr'
    rw [← h₀.orderly] at ho
    simp only [orderly, ht, orderlySnap, if_neg (not_le.mpr hlt), all_eq_true,
      not_eq_true'] at ho
    have hinst : RepliesHeld (r.installSnapshot m conf) d installs snapped := .install conf hacks ho
    refine hinst.send (fun _ _ => ?_) fun _ _ => .inl rfl
    have hle : m.snapIndex ≤ (r.installSnapshot m conf).snapIndex := by
      obtain ⟨_, _, _, _, -, heq⟩ := r.installSnapshot_eq m conf
      rw [heq]
    exact ⟨ackHeld_of_le (hv.install m conf hacks).water.contiguous hle, fun _ _ => hle⟩
  | ackApplied i _ =>
    refine hi.congr ?_
    unfold Raft.ackApplied
    split_ifs <;> rfl
  | _ => exact hi.congr rfl

theorem Micros.repliesHeld {c : Call} {o r r' : Raft} (h : Micros c o r r') (ho : o.orderly c)
    (hg : r.gate.Inv d) (hv : MarkInv r d installs) (hi : RepliesHeld r d installs snapped) :
    RepliesHeld r' d installs snapped := by
  induction h with
  | refl => exact hi
  | tail hs h ih => exact h.repliesHeld ho (hg.steps (Micros.gateSteps hs)) (Micros.markInv hs hg hv) ih

/-! ### Drains, acknowledgements and compactions -/

section Driver

variable {r : Raft} {d : Journal Disk} {installs : List (ℕ × ℕ)} {snapped snapped' : ℕ → Bool} {m i : ℕ}

/-- A message that no longer waits is held by every disk a crash may leave, and is empty while an
install is in flight. -/
theorem RepliesHeld.release (hi : RepliesHeld r d installs snapped) (hg : r.gate.Inv d)
    (hgt : r.snapMark ≠ 0 → r.persistedSnap < r.snapMark) :
    RepliesHeld r.release d installs snapped := by
  have hmem : ∀ a ∈ r.release.msgs, a ∈ r.msgs ∨ ∃ w ∈ r.gated, r.released w ∧ w.msg = a := by
    intro a ha
    refine (mem_append.mp ha).imp_right fun h => ?_
    obtain ⟨w, hw, rfl⟩ := mem_map.mp h
    exact ⟨w, (mem_filter.mp hw).1, (mem_filter.mp hw).2, rfl⟩
  have hrel : ∀ w, r.released w → w.mark ≤ r.persisted ∧ w.snapMark ≤ r.persistedSnap := by
    intro w hw
    simp only [released, and_eq_true, decide_eq_true_eq] at hw
    exact ⟨hw.1.1, hw.2⟩
  refine ⟨hi.log.release, fun a ha hs => ?_, { hi.snap with
    gated := fun w hw => hi.snap.gated w (mem_filter.mp hw).1
    msgs := fun a ha hs hne => ?_ }⟩
  · rcases hmem a ha with ha | ⟨w, hw, hr, rfl⟩
    · exact { hi.msgs a ha hs with }
    · have hack := hi.log.acks w hw hs
      exact ⟨hack.le,
        fun x hx _ => hack.inFlight x hx ((hrel w hr).1.trans (hg.inFlight_gt x hx).le),
        fun _ => hack.stable (hrel w hr).1⟩
  · rcases hmem a ha with ha | ⟨w, hw, hr, rfl⟩
    · exact hi.snap.msgs a ha hs hne
    · refine (hi.snap.gated w hw hs hne).resolve_left fun heq => ?_
      exact absurd (heq ▸ (hrel w hr).2) (not_le.mpr (hgt hne))

theorem SnapInv.drain {r' : Raft} (hi : SnapInv r installs snapped)
    (hidx : r'.snapIndex = r.snapIndex) (hmark : r'.snapMark = r.snapMark) (hm : r'.msgs = [])
    (hg : ∀ w ∈ r'.gated, ∃ w' ∈ r.gated, w'.msg = w.msg ∧ w'.snapMark = w.snapMark) :
    SnapInv r' (r.installsAfter installs) snapped := by
  refine ⟨?_, ?_, ?_, ?_⟩
  · rw [hidx, hmark]
    exact hi.settled
  · rw [hidx, hmark]
    intro hne
    obtain ⟨b, hb, h⟩ := hi.pending hne
    refine ⟨b, hb, .inr ?_⟩
    unfold installsAfter
    rcases h with ⟨p, hp, rfl⟩ | h
    · simp [hp]
    · cases r.pendingSnap with
      | none => exact h
      | some snap => exact mem_append_left _ h
  · rw [hmark]
    intro w hw ha hne
    obtain ⟨w', hw', hmsg, hmark⟩ := hg w hw
    have ha' : isAck w' := by
      unfold isAck at ha ⊢
      rwa [hmsg]
    exact hmark ▸ hmsg ▸ hi.gated w' hw' ha' hne
  · rw [hm]
    exact fun a ha => absurd ha (by simp)

theorem SnapInv.land (hi : SnapInv r installs snapped) (hv : SnapWaits r installs)
    (hmem : m ∈ installs.map Prod.fst) :
    SnapInv (r.snapLanded m) (installs.filter (m < ·.1))
      (fun i => snapped i || installs.any fun x => x.1 ≤ m && i ≤ x.2) := by
  have hopen : (r.snapLanded m).snapMark ≠ 0 →
      (r.snapLanded m).snapMark = r.snapMark ∧ m < r.snapMark := by
    intro ho
    have hne : ¬ (r.snapMark ≠ 0 ∧ r.snapMark ≤ m) := fun h => ho (if_pos h)
    have heq : (r.snapLanded m).snapMark = r.snapMark := if_neg hne
    exact ⟨heq, not_le.mp fun h => hne ⟨heq ▸ ho, h⟩⟩
  refine ⟨fun hz i hi₀ hle => ?_, fun ho => ?_, fun w hw ha ho => ?_, fun a ha hs ho => ?_⟩
  · simp only [or_eq_true, any_eq_true, and_eq_true, decide_eq_true_eq]
    by_cases hne : r.snapMark = 0
    · exact .inl (hi.settled hne i hi₀ hle)
    have hlem : r.snapMark ≤ m := by
      by_contra hlt
      have : (r.snapLanded m).snapMark = r.snapMark := if_neg fun h => hlt h.2
      exact hne (this.symm.trans hz)
    obtain ⟨b, hb, ⟨p, hp, -⟩ | hin⟩ := hi.pending hne
    · -- A snapshot still to be handed over is newer than every install in flight.
      obtain ⟨y, hy, rfl⟩ := mem_map.mp hmem
      exact absurd (hv.installs_lt (by rw [hp]; rfl) y hy) (not_lt.mpr hlem)
    · rcases Nat.lt_or_ge b i with hlt | hge
      · exact .inl (hb i hlt hle)
      · exact .inr ⟨_, hin, hlem, hge⟩
  · obtain ⟨heq, hlt⟩ := hopen ho
    rw [heq] at ho ⊢
    obtain ⟨b, hb, h⟩ := hi.pending ho
    refine ⟨b, fun i h₁ h₂ => ?_, h.imp_right fun hin => ?_⟩
    · exact or_eq_true _ _ |>.mpr (.inl (hb i h₁ h₂))
    · exact mem_filter.mpr ⟨hin, by simpa using hlt⟩
  · rw [(hopen ho).1]
    exact hi.gated w hw ha ((hopen ho).1 ▸ ho)
  · exact hi.msgs a ha hs ((hopen ho).1 ▸ ho)

/-- More durable indices, and fewer installs that were already acknowledged. -/
theorem SnapInv.weaken (hi : SnapInv r installs snapped) (hv : SnapWaits r installs)
    {installs' : List (ℕ × ℕ)} (hkeep : ∀ x ∈ installs, r.persistedSnap < x.1 → x ∈ installs')
    (hsnapped : ∀ j, snapped j → snapped' j) : SnapInv r installs' snapped' :=
  { hi with
    settled := fun hz j h₁ h₂ => hsnapped j (hi.settled hz j h₁ h₂)
    pending := fun hne => by
      obtain ⟨b, hb, h⟩ := hi.pending hne
      exact ⟨b, fun j h₁ h₂ => hsnapped j (hb j h₁ h₂),
        h.imp_right fun h => hkeep _ h (hv.snapMark_gt hne)⟩ }

theorem RepliesHeld.land (hi : RepliesHeld r d installs snapped) (hw : r.Watermarks)
    (hg : r.gate.Inv d) (hm : m ∈ d.inFlight.map Prod.fst) :
    RepliesHeld ((r.landed m).closeThrough m) (d.land m) installs snapped := by
  obtain ⟨y, hy, hym, hstable⟩ := Journal.land_stable hg.ordered hm
  refine ⟨hi.log.land hw hg hm, fun a ha hs => ?_, { hi.snap with }⟩
  have hack := hi.msgs a ha hs
  refine ⟨hack.le, fun x hx hle => hack.inFlight x (Journal.mem_land.mp hx).1 hle, fun _ => ?_⟩
  rw [hstable]
  exact hack.inFlight y hy (Nat.zero_le _)

theorem RepliesHeld.dropThrough (hi : RepliesHeld r d installs snapped) (hw : r.Watermarks)
    (hs : r.snapIndex < i) (hle : i ≤ r.tail.persisted) (t : ℕ) (conf : Configuration)
    (hsnapped : ∀ j, snapped j → snapped' j)
    (hnew : ∀ j, r.snapIndex < j → j ≤ i → r.Held d.stable j → snapped' j) :
    RepliesHeld (r.dropThrough i t conf) d installs snapped' := by
  have hlast := dropThrough_lastIndex hw.contiguous hs
    (hle.trans (hw.durable_le.trans hw.handed_le)) t conf
  have hcov : ∀ j, r.snapIndex < j → j ≤ i → snapped' j := fun j h₁ h₂ =>
    hnew j h₁ h₂ (hi.log.durable.mono (h₂.trans hle))
  refine ⟨hi.log.dropThrough hw hs hle t conf, fun a ha hsucc => ?_, { hi.snap with
    settled := fun hz j hj hji => ?_
    pending := fun hne => ?_ }⟩
  · exact (hi.msgs a ha hsucc).congr (hlast ▸ (hi.msgs a ha hsucc).le) rfl hs.le
      fun j hj _ => dropThrough_entryAt hw.contiguous hs t conf hj
  · rcases Nat.lt_or_ge r.snapIndex j with h | h
    · exact hcov j h hji
    · exact hsnapped j (hi.snap.settled hz j hj h)
  · obtain ⟨b, hb, h⟩ := hi.snap.pending hne
    refine ⟨b, fun j hbj hji => ?_, h⟩
    rcases Nat.lt_or_ge r.snapIndex j with h | h
    · exact hcov j h hji
    · exact hsnapped j (hb j hbj h)

end Driver

/-! ### Whole runs -/

namespace Server

variable {s s' s₀ : Server} {c : Call} {rep : Reply}

/-- The gate, the marks and both streams agree with the driver's side. -/
structure AckInv (s : Server) : Prop where
  gate : s.GateInv
  marks : s.MarksHeld
  held : RepliesHeld s.raft s.disk s.installs s.snapped

theorem Starts.ackInv (h : Starts s) : s.AckInv := by
  refine ⟨h.gateInv, h.marksHeld, h.logInv, ?_, ?_⟩ <;> cases h with
  | @new cfg r h =>
    obtain rfl := new_eq h
    first
      | exact fun m hm => absurd hm (by simp [fresh])
      | constructor <;> simp [fresh]; omega
  | @restore cfg hs snap entries r h =>
    obtain ⟨rfl, -, -⟩ := restore_eq h
    first
      | exact fun m hm => absurd hm (by simp [restored, recovered, recomputeConf, setConf, fresh])
      | constructor <;> simp [recovered, fresh, restored, recomputeConf, setConf]

/-- A drain that finds nothing to hand over closes the open mark, and drops what that releases. -/
theorem AckInv.idle (hi : s.AckInv) (hu : s.raft.unhanded = .ok [])
    (hd : s.raft.hardStateDirty = false) :
    LogInv s.raft.takeOutputs.closeIdle.flushed s.disk := by
  have hw := hi.marks.water
  have hall : s.raft.tail.handed = s.raft.lastIndex :=
    unhanded_getD hw.contiguous (hw.snap_le.trans hw.durable_le) hw.handed_le hu
  have htake : LogInv s.raft.takeOutputs s.disk :=
    { hi.held.log with acks := fun w hw ha => { hi.held.log.acks w hw ha with } }
  have hclose : LogInv s.raft.takeOutputs.closeIdle s.disk := by
    unfold closeIdle
    split_ifs with h
    · exact (htake.dropMark hw.contiguous ⟨h.1, by simpa using h.2, hd, hall⟩).release
    · exact htake
  have hdirty : s.raft.takeOutputs.closeIdle.hardStateDirty = false := by
    obtain ⟨_, _, _, _, heq⟩ := s.raft.takeOutputs.closeIdle_eq
    rw [heq]
    exact hd
  exact
    { hclose with
      acks := fun w hw ha => { hclose.acks w hw ha with }
      acks_idle := fun h => hclose.acks_idle ⟨h.1, h.2.1, hdirty, h.2.2.2⟩ }

/-- Every orderly call of a driver that acknowledges only what it was handed keeps the
invariants. -/
theorem AckInv.exec (hi : s.AckInv) (ha : s.admits c) (ho : s.raft.orderly c)
    (h : s.exec c = .ok (s', rep)) : s'.AckInv := by
  have hmark : s.admitsMark c := by
    cases c <;> first | exact ha | rfl
  refine ⟨hi.gate.exec hmark h, hi.marks.exec hi.gate ha h, ?_⟩
  obtain ⟨r, hx, rfl⟩ := exec_raft h
  rw [record_raft]
  cases exec_executed hx with
  | plain hp hm =>
    rw [record_plain s hp]
    exact hm.repliesHeld ho hi.gate hi.marks hi.held
  | @handOver entries committed hu _ hn =>
    have hopen := MarkHeld.open_of_unsaved hi.marks.toMarkHeld hi.gate hu hn
    rw [record_handOver hopen.1]
    exact ⟨hi.held.log.handOver hi.marks.water hi.gate hu hopen committed,
      fun a ha => absurd ha (by simp [flushed]),
      hi.held.snap.drain rfl rfl rfl fun w hw => ⟨w, hw, rfl, rfl⟩⟩
  | @idle committed hu _ hd =>
    refine ⟨hi.idle hu hd, fun a ha => absurd ha (by simp [flushed]), ?_⟩
    refine hi.held.snap.drain ?_ ?_ rfl fun w hw => mem_gated_closeIdle (r := s.raft.takeOutputs) hw
    all_goals
      obtain ⟨_, _, _, _, heq⟩ := s.raft.takeOutputs.closeIdle_eq
      rw [heq]
      rfl
  | @staleAck m hm =>
    rw [record_staleAck s hm]
    exact hi.held
  | @ack m _ hm hs =>
    have hmem := mem_inFlight_of_admitsMark hmark hm
    rw [record_ack s hm]
    refine hs.repliesHeld ho (hi.gate.landMarks hmem) (MarkInv.land hi.marks hi.gate hmem) ?_
    exact (hi.held.land hi.marks.water hi.gate hmem).release (hi.gate.landed hmem)
      hi.marks.snaps.snapMark_gt
  | @staleSnap m hm =>
    refine ⟨hi.held.log, hi.held.msgs, hi.held.snap.weaken hi.marks.snaps
      (fun x hx hlt => mem_filter.mpr ⟨hx, ?_⟩) fun j hj => ?_⟩
    · simpa using hm.trans_lt hlt
    · exact or_eq_true _ _ |>.mpr (.inl hj)
  | @ackSnap m hm =>
    have hmem : m ∈ s.installs.map Prod.fst := by
      simpa [admits, not_le.mpr hm] using ha
    have hland : LogInv (s.raft.snapLanded m) s.disk :=
      { hi.held.log with acks := fun w hw ha => { hi.held.log.acks w hw ha with } }
    have hheld : RepliesHeld (s.raft.snapLanded m) s.disk (s.installs.filter (m < ·.1))
        (fun i => s.snapped i || s.installs.any fun x => x.1 ≤ m && i ≤ x.2) :=
      ⟨hland, fun a ha hs => { hi.held.msgs a ha hs with }, hi.held.snap.land hi.marks.snaps hmem⟩
    exact hheld.release hi.gate (hi.marks.snaps.land hmem hm).snapMark_gt
  | uncompacted => exact hi.held
  | @recompacted i _ =>
    exact ⟨hi.held.log, hi.held.msgs, hi.held.snap.weaken hi.marks.snaps (fun _ h _ => h)
      fun j hj => or_eq_true _ _ |>.mpr (.inl hj)⟩
  | @compacted i e conf hs _ hp he hc =>
    refine hi.held.dropThrough hi.marks.water hs hp e.term conf (fun j hj => ?_) fun j h₁ h₂ hheld => ?_
    · exact or_eq_true _ _ |>.mpr (.inl hj)
    · obtain ⟨e', he', hmem⟩ := hheld j h₁ le_rfl
      have hon : s.onDisk j = true := by simp [onDisk, he', hmem]
      have hle : j ≤ (s.raft.dropThrough i e.term conf).snapIndex := h₂
      show (s.snapped j || (s.raft.snapIndex < j &&
        j ≤ (s.raft.dropThrough i e.term conf).snapIndex && s.onDisk j)) = true
      simp [h₁, hle, hon]

/-- A driver that acknowledges only what it was handed and makes orderly calls. -/
def admitsOrderly (s : Server) (c : Call) : Bool := s.admits c && s.raft.orderly c

section

variable (h₀ : s₀.Starts) (hrun : Relation.ReflTransGen (Step fun s c => s.admitsOrderly c) s₀ s)
include h₀ hrun

theorem AckInv.run : s.AckInv := by
  induction hrun with
  | refl => exact h₀.ackInv
  | tail _ hstep ih =>
    obtain ⟨c, rep, ha, hx⟩ := hstep
    obtain ⟨ha, ho⟩ := and_eq_true _ _ |>.mp ha
    exact ih.exec ha ho hx

/-- Persist before reply, for the log: whatever a drained success response acknowledges is inside a
durable snapshot or on disk. -/
theorem drained_ack_durable {rd : Ready} (h : s.exec .ready = .ok (s', .drained rd)) (m : Message)
    (hm : m ∈ rd.messages) (ht : m.type = .appResp) (hs : m.success = true) (i : ℕ) (hi : 0 < i)
    (hle : i ≤ m.matchIndex) : (i ≤ s.raft.snapIndex ∧ s.snapped i = true) ∨ s.onDisk i = true := by
  have hinv := AckInv.run h₀ hrun
  have hsucc : m.isSuccess := by simp [Message.isSuccess, ht, hs]
  rw [drained_messages h] at hm
  rcases Nat.lt_or_ge s.raft.snapIndex i with hlt | hge
  · obtain ⟨e, he, hmem⟩ := (hinv.held.msgs m hm hsucc).stable (Nat.zero_le _) i hlt hle
    exact .inr (by simp [onDisk, he, hmem])
  · refine .inl ⟨hge, hinv.held.snap.settled ?_ i hi hge⟩
    by_contra hne
    have := hinv.held.snap.msgs m hm hsucc hne
    omega

end

/-- A snapshot through index 5, from the leader of term 1. -/
def snapshotOfFive : Call :=
  .step { type := .snap, fromID := 2, toID := 1, term := 1, snapIndex := 5, snapTerm := 1
          snapConf := encodeConfiguration { voters := [1, 2, 3] } }

/-- An append of entry 6 on top of it. -/
def appendOfSix : Call :=
  .step { type := .app, fromID := 2, toID := 1, term := 1, prevLogIndex := 5, prevLogTerm := 1
          entries := [{ term := 1, index := 6 }] }

/-- With the install acknowledged before the append, the response is durable. -/
theorem drained_ack_of_six_durable : ∃ (s s' : Server) (rd : Ready) (m : Message),
    Relation.ReflTransGen (Step fun s c => s.admitsOrderly c) askedFollower s ∧
      s.exec .ready = .ok (s', .drained rd) ∧ m ∈ rd.messages ∧ m.matchIndex = 6 ∧
      ((3 ≤ s.raft.snapIndex ∧ s.snapped 3 = true) ∨ s.onDisk 3 = true) := by
  obtain ⟨s, hrun, hq⟩ := exists_run (p := admitsOrderly) (s := askedFollower)
    [snapshotOfFive, .ready, .ackPersisted 1, .ackSnapshot 1, appendOfSix, .ready, .ackPersisted 2]
    (fun s => s.drain?.any fun x => x.2.messages.any fun m =>
      m.type = .appResp && m.success && m.matchIndex = 6) (by decide +kernel)
  obtain ⟨⟨s', rd⟩, hd, hq⟩ := Option.any_eq_true _ _ |>.mp hq
  obtain ⟨m, hm, hq⟩ := any_eq_true.mp hq
  simp only [and_eq_true, decide_eq_true_eq] at hq
  have hx := exec_ready_of_drain? hd
  exact ⟨s, s', rd, m, hrun, hx, hm, hq.2, drained_ack_durable askedFollower_starts hrun hx m hm
    hq.1.1 hq.1.2 3 (by decide) (by rw [hq.2]; decide)⟩

/-- With the install still in flight, the log mark alone releases the response to the append: it
acknowledges six entries of which the disk holds one. -/
theorem drained_ack_above_install : ∃ (s s' : Server) (rd : Ready) (m : Message) (i : ℕ),
    askedFollower.Starts ∧
      Relation.ReflTransGen (Step fun s c => s.admits c) askedFollower s ∧
      s.exec .ready = .ok (s', .drained rd) ∧ m ∈ rd.messages ∧
      m.type = .appResp ∧ m.success = true ∧ 0 < i ∧ i ≤ m.matchIndex ∧
      ¬ ((i ≤ s.raft.snapIndex ∧ s.snapped i = true) ∨ s.onDisk i = true) := by
  obtain ⟨s, hrun, hq⟩ := exists_run (p := admits) (s := askedFollower)
    [snapshotOfFive, appendOfSix, .ready, .ackPersisted 1]
    (fun s => s.drain?.any fun x => x.2.messages.any fun m =>
      m.type = .appResp && m.success && 3 ≤ m.matchIndex &&
        !((3 ≤ s.raft.snapIndex && s.snapped 3) || s.onDisk 3)) (by decide +kernel)
  obtain ⟨⟨s', rd⟩, hd, hq⟩ := Option.any_eq_true _ _ |>.mp hq
  obtain ⟨m, hm, hq⟩ := any_eq_true.mp hq
  simp only [and_eq_true, decide_eq_true_eq, not_eq_true', or_eq_false_iff,
    and_eq_false_iff, decide_eq_false_iff_not] at hq
  refine ⟨s, s', rd, m, 3, askedFollower_starts, hrun, exec_ready_of_drain? hd, hm, hq.1.1.1,
    hq.1.1.2, by decide, hq.1.2, ?_⟩
  rintro (⟨h₁, h₂⟩ | h)
  · exact hq.2.1.elim (fun h => h h₁) fun h => absurd (h.symm.trans h₂) (by simp)
  · exact absurd (hq.2.2.symm.trans h) (by simp)

end Server

end Rift
