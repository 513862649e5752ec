import Rift.Raft.Marks

/-!
# The log stream

A success response to an append says that the sender holds its log up to some index, and is
withheld on a mark of the log stream. Here the marks and the index watermarks of a node are
related to the journal of its disk: every disk a response's mark leads to holds the log the
response speaks about.
-/

namespace Rift

open List

namespace Raft

variable {r r' : Raft} {d : Disk} {i k : ℕ}

/-! ### The log on a disk -/

/-- The disk holds the node's log, after the snapshot, through index `k`. -/
def Held (r : Raft) (d : Disk) (k : ℕ) : Prop :=
  ∀ i, r.snapIndex < i → i ≤ k → ∃ e, r.entryAt i = some e ∧ e ∈ d.log

theorem Held.mono {k' : ℕ} (h : r.Held d k) (hle : k' ≤ k) : r.Held d k' :=
  fun i hs hi => h i hs (hi.trans hle)

theorem held_of_le (hle : k ≤ r.snapIndex) : r.Held d k :=
  fun _ hs hi => absurd (hs.trans_le (hi.trans hle)) (lt_irrefl _)

theorem Held.congr (h : r.Held d k) (hs : r.snapIndex ≤ r'.snapIndex)
    (he : ∀ i, r'.snapIndex < i → i ≤ k → r'.entryAt i = r.entryAt i) : r'.Held d k := by
  intro i hi hik
  rw [he i hi hik]
  exact h i (hs.trans_lt hi) hik

theorem Held.write (hc : r.Contiguous) {j : ℕ} {rd : Ready} (h : r.Held d j)
    (hj : r.snapIndex ≤ j) (he : rd.entries = r.log.drop (j - r.snapIndex)) :
    r.Held (d.write rd) r.lastIndex := by
  intro i hi hik
  obtain ⟨e, hent, -, hidx⟩ := exists_entryAt hc hi hik
  refine ⟨e, hent, ?_⟩
  rw [entryAt_eq hc hi] at hent
  show e ∈ overwrite d.log rd.entries
  rcases Nat.lt_or_ge j i with hji | hij
  · have hmem : e ∈ rd.entries := by
      rw [he]
      refine mem_iff_getElem?.mpr ⟨i - j - 1, ?_⟩
      rw [getElem?_drop, ← hent]
      congr 1
      omega
    cases hrd : rd.entries with
    | nil => rw [hrd] at hmem; cases hmem
    | cons e₁ es =>
      rw [hrd] at hmem
      exact mem_append_right _ hmem
  · obtain ⟨e', he', hd⟩ := h i hi hij
    obtain rfl : e' = e := by
      rw [entryAt_eq hc hi, hent] at he'
      exact (Option.some.inj he').symm
    cases hrd : rd.entries with
    | nil => exact hd
    | cons e₁ es =>
      -- The batch starts after `j`, so what the disk already holds stays.
      have hfirst : e₁.index = j + 1 := by
        have hget : r.log[j - r.snapIndex]? = some e₁ := by
          have : (r.log.drop (j - r.snapIndex))[0]? = r.log[j - r.snapIndex + 0]? :=
            getElem?_drop
          rw [← he, hrd] at this
          simpa using this.symm
        rw [hc _ _ hget]
        omega
      refine mem_append_left _ (mem_filter.mpr ⟨hd, ?_⟩)
      simp only [decide_eq_true_eq]
      omega

end Raft

open Raft

/-! ### The invariant of the log stream -/

/-- A withheld response to an append: every disk its mark leads to holds the log it speaks
about. -/
structure AckHeld (r : Raft) (d : Journal Disk) (w : GatedMessage) : Prop where
  le : w.msg.matchIndex ≤ r.lastIndex
  inFlight : ∀ x ∈ d.inFlight, w.mark ≤ x.1 → r.Held x.2 w.msg.matchIndex
  stable : w.mark ≤ r.persisted → r.Held d.stable w.msg.matchIndex

/-- What the disks hold of the log, and of what the withheld responses speak about. -/
structure LogHeld (r : Raft) (d : Journal Disk) : Prop where
  newest : r.Held d.newest r.tail.handed
  inFlight_last : ∀ x ∈ d.inFlight, r.lastHandedMark ≤ x.1 → r.Held x.2 r.tail.handed
  durable : r.Held d.stable r.tail.persisted
  durable_inFlight : ∀ x ∈ d.inFlight, r.Held x.2 r.tail.persisted
  acks : ∀ w ∈ r.gated, isAck w → AckHeld r d w

/-- The invariant of the log stream, over that of the marks. -/
structure LogInv (r : Raft) (d : Journal Disk) : Prop extends LogHeld r d where
  /-- A mark that covers nothing is waited for only by responses inside the snapshot. -/
  acks_idle : r.Idle → ∀ w ∈ r.gated, isAck w → w.mark = r.dirtyMark →
    w.msg.matchIndex ≤ r.snapIndex

section Log

variable {r r' : Raft} {d : Journal Disk} {e : Entry} {i : ℕ} {w : GatedMessage}

/-- A response stays held while the log it speaks about is unchanged or compacted. -/
theorem AckHeld.congr (h : AckHeld r d w) (hl : w.msg.matchIndex ≤ r'.lastIndex)
    (hp : r'.persisted = r.persisted) (hs : r.snapIndex ≤ r'.snapIndex)
    (he : ∀ i, r'.snapIndex < i → i ≤ w.msg.matchIndex → r'.entryAt i = r.entryAt i) :
    AckHeld r' d w where
  le := hl
  inFlight x hx hle := (h.inFlight x hx hle).congr hs he
  stable hle := (h.stable (hp ▸ hle)).congr hs he

theorem AckHeld.extend (h : AckHeld r d w) (hc : r.Contiguous) (he : e.index = r.lastIndex + 1) :
    AckHeld (r.extend e) d w := by
  refine h.congr ?_ ?_ (r.extend_log e).2.ge fun i _ hi => extend_entryAt hc he (hi.trans h.le)
  · rw [extend_lastIndex hc he]
    exact h.le.trans (Nat.le_succ _)
  · obtain ⟨_, _, _, _, _, -, heq⟩ := r.extend_eq e
    rw [heq]

theorem AckHeld.cutFrom (h : AckHeld r d w) (hc : r.Contiguous) (hs : r.snapIndex < i)
    (hle : i ≤ r.lastIndex) (hlt : w.msg.matchIndex < i) : AckHeld (r.cutFrom i) d w := by
  refine h.congr ?_ rfl le_rfl fun j _ hj => cutFrom_entryAt hc (hj.trans_lt hlt)
  have := cutFrom_lastIndex hc hs hle
  omega

theorem LogInv.congr (hi : LogInv r d) (h : r'.logCore = r.logCore) : LogInv r' d := by
  have hcore : LogInv r.logCore d :=
    { hi with acks := fun w hw ha => { hi.acks w hw ha with } }
  rw [← h] at hcore
  exact { hcore with acks := fun w hw ha => { hcore.acks w hw ha with } }

theorem LogInv.busy (hi : LogInv r d) {nm dm t : ℕ} {v : NodeID} :
    LogInv { r with
      term := t, vote := v, hardStateDirty := true, nextMark := nm, dirtyMark := dm,
      markHandedOff := false } d :=
  { hi with
    acks := fun w hw ha => { hi.acks w hw ha with }
    acks_idle := fun h => absurd h.2.2.1 (by simp) }

theorem LogInv.setTermAndVote (hi : LogInv r d) (t : ℕ) (v : NodeID) :
    LogInv (r.setTermAndVote t v) d := by
  rcases r.setTermAndVote_cases t v with ⟨-, -, h⟩ | ⟨nm, dm, -, h⟩
  · rw [h]
    exact hi
  · rw [h]
    exact hi.busy

theorem LogInv.withhold (hi : LogInv r d) (hw : isAck w → AckHeld r d w)
    (hidle : r.Idle → isAck w → w.mark = r.dirtyMark → w.msg.matchIndex ≤ r.snapIndex) :
    LogInv { r with gated := r.gated ++ [w] } d := by
  refine { hi with acks := ?_, acks_idle := ?_ }
  · intro w' hw' ha
    rcases mem_append.mp hw' with h | h
    · exact { hi.acks w' h ha with }
    · rw [mem_singleton.mp h] at ha ⊢
      exact { hw ha with }
  · intro h w' hw' ha
    rcases mem_append.mp hw' with h' | h'
    · exact hi.acks_idle h w' h' ha
    · rw [mem_singleton.mp h'] at ha ⊢
      exact hidle h ha

theorem LogInv.drop (hi : LogInv r d) {gs : List GatedMessage} (h : ∀ w ∈ gs, w ∈ r.gated) :
    LogInv { r with gated := gs } d :=
  { hi with
    acks := fun w hw ha => { hi.acks w (h w hw) ha with }
    acks_idle := fun hidle w hw => hi.acks_idle hidle w (h w hw) }

/-- An appended entry waits under an open mark; what was acknowledged before stays held. -/
theorem LogHeld.extend (hi : LogHeld r d) (hw : r.Watermarks) (he : e.index = r.lastIndex + 1) :
    LogInv (r.extend e) d := by
  have hlast := extend_lastIndex hw.contiguous he
  have hheld : ∀ {a : Disk} {k : ℕ}, k ≤ r.lastIndex → r.Held a k → (r.extend e).Held a k :=
    fun hk h => h.congr (r.extend_log e).2.ge fun i _ hik =>
      extend_entryAt hw.contiguous he (hik.trans hk)
  have hack : ∀ w, AckHeld r d w → AckHeld (r.extend e) d w := fun w h =>
    h.extend hw.contiguous he
  obtain ⟨_, _, _, _, _, -, heq⟩ := r.extend_eq e
  rw [heq] at hlast hheld hack ⊢
  have hdle := hw.durable_le.trans hw.handed_le
  exact
    { newest := hheld hw.handed_le hi.newest
      inFlight_last := fun x hx hle => hheld hw.handed_le (hi.inFlight_last x hx hle)
      durable := hheld hdle hi.durable
      durable_inFlight := fun x hx => hheld hdle (hi.durable_inFlight x hx)
      acks := fun w hw ha => hack w (hi.acks w hw ha)
      acks_idle := fun h => absurd (h.2.2.2.trans hlast) (Nat.lt_succ_of_le hw.handed_le).ne }

/-- The withheld responses that survive a cut speak about the log before it. -/
theorem lt_of_not_attestsFrom (ha : isAck w) (h : attestsFrom i w = false) :
    w.msg.matchIndex < i := by
  unfold isAck at ha
  unfold attestsFrom at h
  rw [ha, Bool.true_and, decide_eq_false_iff_not] at h
  exact not_le.mp h

theorem LogHeld.cutFrom (hi : LogHeld r d) (hc : r.Contiguous) (hs : r.snapIndex < i)
    (hle : i ≤ r.lastIndex) : LogHeld (r.cutFrom i) d := by
  have hheld : ∀ {a : Disk} {k : ℕ}, r.Held a k →
      (r.cutFrom i).Held a (if i ≤ k then i - 1 else k) := by
    -- A watermark at or past the cut falls back to right before it.
    intro a k h
    have hmark : (if i ≤ k then i - 1 else k) ≤ k ∧ (if i ≤ k then i - 1 else k) < i := by
      split_ifs <;> omega
    exact (h.mono hmark.1).congr le_rfl fun l _ hl => cutFrom_entryAt hc (hl.trans_lt hmark.2)
  have hack : ∀ w, w.msg.matchIndex < i → AckHeld r d w → AckHeld (r.cutFrom i) d w :=
    fun w hlt h => h.cutFrom hc hs hle hlt
  obtain ⟨_, _, _, heq⟩ := r.cutFrom_eq i
  rw [heq] at hheld hack ⊢
  refine
    { newest := hheld hi.newest
      inFlight_last := fun x hx h => hheld (hi.inFlight_last x hx h)
      durable := hheld hi.durable
      durable_inFlight := fun x hx => hheld (hi.durable_inFlight x hx)
      acks := fun w hw ha => ?_ }
  obtain ⟨hw, hn⟩ := mem_filter.mp hw
  exact hack w (lt_of_not_attestsFrom ha (by simpa using hn)) (hi.acks w hw ha)

theorem LogInv.storeEntry (hi : LogInv r d) (hw : r.Watermarks) (h : r.storeEntry e = .ok r') :
    LogInv r' d := by
  rcases storeEntry_cases h with ⟨-, -, rfl⟩ | ⟨hle, -, -, hs, rfl⟩ | ⟨he, rfl⟩
  · exact hi
  · exact (hi.toLogHeld.cutFrom hw.contiguous hs hle).extend (hw.cutFrom hs hle)
      (cutFrom_lastIndex hw.contiguous hs hle).symm
  · exact hi.toLogHeld.extend hw he

/-- The marks an index is acknowledged under lead to disks that hold the log through it. -/
theorem LogInv.marksFor {installs : List (ℕ × ℕ)} (hi : LogInv r d) (hv : MarkInv r d installs)
    (hg : r.gate.Inv d) {k lm sm : ℕ} (hk : k ≤ r.lastIndex)
    (h : r.marksFor k = .ok (lm, sm)) (hw : w.mark = lm)
    (hm : w.msg.matchIndex = k) :
    AckHeld r d w ∧ (r.Idle → w.mark = r.dirtyMark → w.msg.matchIndex ≤ r.snapIndex) := by
  have hdirect : k ≤ r.tail.persisted → AckHeld r d w := fun hp =>
    { le := hm ▸ hk
      inFlight := fun x hx _ => hm ▸ (hi.durable_inFlight x hx).mono hp
      stable := fun _ => hm ▸ hi.durable.mono hp }
  have hzero : lm = 0 → ∀ h : r.Idle, w.mark = r.dirtyMark → w.msg.matchIndex ≤ r.snapIndex :=
    fun hlm h heq => absurd (heq.symm.trans (hw.trans hlm)) h.1
  unfold Raft.marksFor at h
  split_ifs at h with h₁ h₂ h₃ h₄
  · cases h
    exact ⟨hdirect (h₁ ▸ Nat.zero_le _), hzero rfl⟩
  · cases h
    exact ⟨hdirect (h₂.trans hv.water.snap_le), hzero rfl⟩
  · cases h
    exact ⟨hdirect h₃, hzero rfl⟩
  · cases h
    refine ⟨⟨hm ▸ hk, fun x hx hle => ?_, fun hle => ?_⟩, fun hidle _ => ?_⟩
    · -- A mark in flight that is not older than the open one is the open one, handed over.
      have hoff : r.markHandedOff = true := by
        by_contra hne
        have := hg.inFlight_lt_open h₄ (Bool.not_eq_true _ |>.mp hne) x hx
        rw [hw] at hle
        exact absurd hle (not_le.mpr this)
      rw [hm]
      refine (hi.inFlight_last x hx ?_).mono (hk.trans (hv.lastIndex_le hoff))
      rw [hv.handed_last h₄ hoff]
      exact hw ▸ hle
    · have := hg.open_gt h₄
      rw [hw] at hle
      exact absurd hle (not_le.mpr this)
    · rw [hv.idle hidle] at h₃
      exact absurd hk h₃

theorem LogInv.send (hi : LogInv r d) {mark snapMark : ℕ} {m : Message}
    (hack : m.isSuccess → ∀ t, AckHeld r d ⟨m, mark, snapMark, t⟩ ∧
      (r.Idle → mark = r.dirtyMark → m.matchIndex ≤ r.snapIndex)) :
    LogInv (r.sendGatedOn mark snapMark m) d := by
  unfold sendGatedOn
  split_ifs
  · exact { hi with acks := fun w hw ha => { hi.acks w hw ha with } }
  · exact hi.withhold (fun ha => (hack ha _).1) fun hidle ha => (hack ha 0).2 hidle

/-- A snapshot that replaces the log leaves nothing to be written but itself. -/
theorem LogInv.install (d : Journal Disk) (m : Message) (conf : Configuration)
    (hg : ∀ w ∈ r.gated, isAck w = false) : LogInv (r.installSnapshot m conf) d := by
  obtain ⟨_, _, _, _, -, heq⟩ := r.installSnapshot_eq m conf
  rw [heq]
  exact
    { newest := held_of_le le_rfl
      inFlight_last := fun _ _ _ => held_of_le le_rfl
      durable := held_of_le le_rfl
      durable_inFlight := fun _ _ => held_of_le le_rfl
      acks := fun w hw ha => absurd ((hg w hw).symm.trans ha) (by simp)
      acks_idle := fun _ w hw ha => absurd ((hg w hw).symm.trans ha) (by simp) }

theorem ackHeld_of_le (hc : r.Contiguous) (h : w.msg.matchIndex ≤ r.snapIndex) : AckHeld r d w where
  le := h.trans (snapIndex_le_lastIndex hc)
  inFlight _ _ _ := held_of_le h
  stable _ := held_of_le h

/-! ### Drains, acknowledgements and compactions -/

/-- A handover: the batch in flight makes every later disk hold the whole log. -/
theorem LogInv.handOver (hi : LogInv r d) (hw : r.Watermarks) (hg : r.gate.Inv d)
    {entries : List Entry} (hu : r.unhanded = .ok entries)
    (ho : r.dirtyMark ≠ 0 ∧ r.markHandedOff = false) (committed : List Entry) :
    LogInv (r.takeOutputs.handOver entries).flushed
      (d.push r.dirtyMark (d.newest.write (r.output entries committed))) := by
  have hs := hw.snap_le.trans hw.durable_le
  have hwrite : r.Held (d.newest.write (r.output entries committed)) r.lastIndex :=
    hi.newest.write hw.contiguous hs (unhanded_eq_drop hw.contiguous hs hu)
  have hlast := unhanded_getD hw.contiguous hs hw.handed_le hu
  unfold Raft.handOver takeOutputs flushed
  dsimp only
  rw [hlast]
  exact
    { newest := by rw [Journal.newest_push]; exact hwrite
      inFlight_last := fun x hx hle => by
        rcases Journal.mem_push.mp hx with hx | rfl
        · exact absurd hle (not_le.mpr (hg.inFlight_lt_open ho.1 ho.2 x hx))
        · exact hwrite
      durable := hi.durable
      durable_inFlight := fun x hx => by
        rcases Journal.mem_push.mp hx with hx | rfl
        · exact hi.durable_inFlight x hx
        · exact hwrite.mono (hw.durable_le.trans hw.handed_le)
      acks := fun w hw ha =>
        { le := (hi.acks w hw ha).le
          inFlight := fun x hx hle => by
            rcases Journal.mem_push.mp hx with hx | rfl
            · exact (hi.acks w hw ha).inFlight x hx hle
            · exact hwrite.mono (hi.acks w hw ha).le
          stable := (hi.acks w hw ha).stable }
      acks_idle := fun h => absurd h.2.1 (by simp) }

theorem LogInv.dropMark (hi : LogInv r d) (hc : r.Contiguous) (h : r.Idle) :
    LogInv (r.dropMark r.dirtyMark) d := by
  have hmem : ∀ w ∈ r.gated.map (strike r.dirtyMark), isAck w → AckHeld r d w := by
    intro w hw ha
    obtain ⟨w', hw', rfl⟩ := mem_map.mp hw
    by_cases hm : w'.mark = r.dirtyMark
    · exact ackHeld_of_le hc (hi.acks_idle h w' hw' ha hm)
    · have hsame : (strike r.dirtyMark w').mark = w'.mark := if_neg hm
      have hack := hi.acks w' hw' ha
      exact ⟨hack.le, fun x hx hle => hack.inFlight x hx (hsame ▸ hle),
        fun hle => hack.stable (hsame ▸ hle)⟩
  exact { hi with
    acks := fun w hw ha => { hmem w hw ha with }
    acks_idle := fun h' => absurd (if_pos rfl) h'.1 }

theorem LogInv.release (hi : LogInv r d) : LogInv r.release d :=
  { hi with
    acks := fun w hw ha => { hi.acks w (mem_filter.mp hw).1 ha with }
    acks_idle := fun hidle w hw => hi.acks_idle hidle w (mem_filter.mp hw).1 }

theorem LogInv.land (hi : LogInv r d) (hw : r.Watermarks) (hg : r.gate.Inv d) {m : ℕ}
    (hm : m ∈ d.inFlight.map Prod.fst) : LogInv ((r.landed m).closeThrough m) (d.land m) := by
  obtain ⟨y, hy, hym, hstable⟩ := Journal.land_stable hg.ordered hm
  have hsub : ∀ x ∈ (d.land m).inFlight, x ∈ d.inFlight ∧ m < x.1 := fun x hx =>
    Journal.mem_land.mp hx
  have hhanded : (r.landed m).tail.handed = r.tail.handed := (landMarks_tail hw m).1
  have hheld : ∀ x ∈ d.inFlight, m ≤ x.1 → r.Held x.2 (r.landed m).tail.persisted := by
    intro x hx hle
    rcases landed_tail hw m with h | ⟨h, hlast⟩
    · rw [h]
      exact hi.durable_inFlight x hx
    · rw [h]
      exact hi.inFlight_last x hx (hlast.trans hle)
  refine
    { newest := ?_, inFlight_last := fun x hx hle => ?_, durable := ?_
      durable_inFlight := fun x hx => hheld x (hsub x hx).1 (hsub x hx).2.le
      acks := fun w hw ha => ?_, acks_idle := fun h w hw ha hmark => ?_ }
  · show Raft.Held r _ (r.landed m).tail.handed
    rw [hhanded, Journal.newest_land hg.ordered]
    exact hi.newest
  · show Raft.Held r _ (r.landed m).tail.handed
    rw [hhanded]
    exact hi.inFlight_last x (hsub x hx).1 hle
  · rw [hstable]
    exact hheld y hy hym.ge
  · have hack := hi.acks w hw ha
    refine ⟨hack.le, fun x hx hle => hack.inFlight x (hsub x hx).1 hle, fun hle => ?_⟩
    have hp : ((r.landed m).closeThrough m).persisted = m := ite_self m
    rw [hp] at hle
    rw [hstable]
    exact hack.inFlight y hy (hym ▸ hle)
  · -- A mark that is still open was open before.
    obtain ⟨ho, hoff, hd, hall⟩ := h
    rcases landMarks_open r m with ⟨-, hz⟩ | ⟨-, hopen, hkept⟩
    · exact absurd hz ho
    · exact hi.acks_idle ⟨hopen ▸ ho, hkept.symm.trans hoff, hd, hhanded.symm.trans hall⟩ w hw ha
        (hmark.trans hopen)

theorem LogInv.dropThrough (hi : LogInv r d) (hw : r.Watermarks) (hs : r.snapIndex < i)
    (hle : i ≤ r.tail.persisted) (t : ℕ) (conf : Configuration) :
    LogInv (r.dropThrough i t conf) d := by
  have hlast := dropThrough_lastIndex hw.contiguous hs
    (hle.trans (hw.durable_le.trans hw.handed_le)) t conf
  have hent : ∀ j, i < j → (r.dropThrough i t conf).entryAt j = r.entryAt j := fun j hj =>
    dropThrough_entryAt hw.contiguous hs t conf hj
  have hheld : ∀ {a : Disk} {k : ℕ}, r.Held a k → (r.dropThrough i t conf).Held a k :=
    fun h => h.congr hs.le fun j hj _ => hent j hj
  exact
    { newest := hheld hi.newest
      inFlight_last := fun x hx h => hheld (hi.inFlight_last x hx h)
      durable := hheld hi.durable
      durable_inFlight := fun x hx => hheld (hi.durable_inFlight x hx)
      acks := fun w hw ha => (hi.acks w hw ha).congr (hlast ▸ (hi.acks w hw ha).le) rfl hs.le
        fun j hj _ => hent j hj
      acks_idle := fun h w hw ha hm =>
        (hi.acks_idle ⟨h.1, h.2.1, h.2.2.1, h.2.2.2.trans hlast⟩ w hw ha hm).trans hs.le }

theorem LogInv.start {a : Disk} (hheld : r.Held a r.lastIndex)
    (htail : r.tail = { persisted := r.lastIndex, handed := r.lastIndex })
    (hopen : r.dirtyMark = 0) (hg : r.gated = []) : LogInv r { stable := a } where
  newest := by rw [htail]; exact hheld
  inFlight_last := by simp
  durable := by rw [htail]; exact hheld
  durable_inFlight := by simp
  acks := by simp [hg]
  acks_idle h := absurd hopen h.1

theorem Server.Starts.logInv {s : Server} (h : s.Starts) : LogInv s.raft s.disk := by
  have hc := h.contiguous
  cases h with
  | @new cfg r h =>
    obtain rfl := new_eq h
    exact .start (held_of_le le_rfl) rfl rfl rfl
  | @restore cfg hs snap entries r h =>
    obtain ⟨rfl, -, -⟩ := restore_eq h
    refine .start (fun i hi hle => ?_) rfl rfl rfl
    obtain ⟨e, he, -, -⟩ := exists_entryAt hc hi hle
    refine ⟨e, he, ?_⟩
    rw [entryAt_eq hc hi] at he
    exact mem_of_getElem? he

end Log

end Rift
