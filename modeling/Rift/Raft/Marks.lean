import Rift.Raft.Panics
import Rift.Raft.Readiness
import Rift.Raft.Watermarks

/-!
# Durability marks cover everything and strand nothing

A mark is opened by a change, frozen when it is handed to the driver, closed when it covers nothing,
and overtaken by a cut of the log or an installed snapshot. Through all of it, every log index that
is not durable is covered by the open mark, and every withheld message waits for marks that the
driver has been handed, or will be handed with the next drain. So a driver that drains and
acknowledges until nothing is left gets every message.

Nothing is assumed about the messages a node receives, except where an acknowledgement must find its
mark: an append whose entries are not consecutive speaks about an index past the log.
-/

namespace Rift

open List Nat

/-- A success response to an append or a snapshot. -/
def Message.isSuccess (m : Message) : Bool := m.type = .appResp && m.success

/-! ### The log stream -/

/-- A mark that is worth waiting for: it has landed, it was handed over and has not landed, or it is
open, and `u` says that there is something to hand over under it. -/
def Gate.Points (g : Gate) (d : Journal Disk) (u : Prop) (m : ℕ) : Prop :=
  m ≤ g.persisted ∨ m ∈ d.inFlight.map Prod.fst ∨ (m = g.dirtyMark ∧ g.markHandedOff = false ∧ u)

/-- Every mark that a message waits for, or may come to wait for, is worth waiting for. -/
structure Gate.Waits (g : Gate) (d : Journal Disk) (u : Prop) : Prop where
  opened : g.Points d u g.dirtyMark
  hsMark : g.Points d u g.hsMark
  gated : ∀ w ∈ g.gated, g.Points d u w.mark ∧ g.Points d u w.termMark

variable {gs : List GatedMessage} {c : Call} {r : Raft} {d : Journal Disk} {installs : List (ℕ × ℕ)}

namespace Gate

variable {g : Gate} {d : Journal Disk} {u u' : Prop} {m mark snapMark : ℕ}

theorem Points.zero : g.Points d u 0 := .inl (zero_le _)

theorem dirty_markHandedOff (g : Gate) : g.dirty.markHandedOff = false := by
  unfold Gate.dirty
  split_ifs with h
  · rfl
  · simpa using fun hh => h (.inr hh)

/-- A change opens a mark, or goes under the one that is open and was not handed over. -/
theorem Points.dirty (h : g.Points d u m) (hu : u') : g.dirty.Points d u' m := by
  have hpersisted : g.dirty.persisted = g.persisted := by
    unfold Gate.dirty
    split_ifs <;> rfl
  rcases h with h | h | ⟨rfl, hh, -⟩
  · exact .inl (hpersisted ▸ h)
  · exact .inr (.inl h)
  · by_cases hz : g.dirtyMark = 0
    · rw [hz]
      exact .zero
    · have hsame : g.dirty = g := if_neg (by simp [hz, hh])
      rw [hsame]
      exact .inr (.inr ⟨rfl, hh, hu⟩)

namespace Waits

section

variable (h : g.Waits d u)
include h

theorem dirty (hu : u') : g.dirty.Waits d u' := by
  have hsame : g.dirty.hsMark = g.hsMark ∧ g.dirty.gated = g.gated := by
    unfold Gate.dirty
    split_ifs <;> exact ⟨rfl, rfl⟩
  refine ⟨.inr (.inr ⟨rfl, g.dirty_markHandedOff, hu⟩), ?_, ?_⟩
  · rw [hsame.1]
    exact h.hsMark.dirty hu
  · rw [hsame.2]
    exact fun w hw => ⟨(h.gated w hw).1.dirty hu, (h.gated w hw).2.dirty hu⟩

theorem set {hs : HardState} (hne : g.hs ≠ hs) (hu : u') : (g.set hs).Waits d u' := by
  have hdirty : Waits { g with hs := hs, hardStateDirty := true } d u := { h with }
  unfold Gate.set
  rw [if_pos hne]
  exact hdirty.dirty hu

/-- What there is to hand over matters only under an open mark that was not handed over. -/
theorem imp (hu : g.dirtyMark ≠ 0 → g.markHandedOff = false → u → u') : g.Waits d u' := by
  have hkeep : ∀ {m}, g.Points d u m → g.Points d u' m := by
    rintro m (h | h | ⟨rfl, hh, h⟩)
    · exact .inl h
    · exact .inr (.inl h)
    · by_cases hz : g.dirtyMark = 0
      · rw [hz]
        exact .zero
      · exact .inr (.inr ⟨rfl, hh, hu hz hh h⟩)
  exact ⟨hkeep h.opened, hkeep h.hsMark, fun w hw =>
    ⟨hkeep (h.gated w hw).1, hkeep (h.gated w hw).2⟩⟩

theorem termMark : g.Points d u g.termMark := by
  unfold Gate.termMark
  split_ifs
  · exact h.opened
  · exact h.hsMark

theorem send (hm : g.Points d u mark) (a : Message) : (g.send mark snapMark a).Waits d u := by
  unfold Gate.send
  split_ifs
  · exact { h with }
  · refine { h with gated := fun w hw => ?_ }
    rcases mem_append.mp hw with hw | hw
    · exact h.gated w hw
    · rw [mem_singleton.mp hw]
      exact ⟨hm, h.termMark⟩

theorem drop (hsub : ∀ w ∈ gs, w ∈ g.gated) : Waits { g with gated := gs } d u :=
  { h with gated := fun w hw => h.gated w (hsub w hw) }

theorem release (p : GatedMessage → Bool) : (g.release p).Waits d u :=
  { h with gated := fun w hw => h.gated w (mem_filter.mp hw).1 }

theorem handOver_push (a : Disk) : g.handOver.Waits (d.push g.dirtyMark a) u' := by
  have hopen : g.handOver.Points (d.push g.dirtyMark a) u' g.dirtyMark :=
    .inr (.inl (mem_map.mpr ⟨(g.dirtyMark, a), Journal.mem_push.mpr (.inr rfl), rfl⟩))
  have hkeep : ∀ {m}, g.Points d u m → g.handOver.Points (d.push g.dirtyMark a) u' m := by
    rintro m (h | h | ⟨rfl, -, -⟩)
    · exact .inl h
    · obtain ⟨x, hx, rfl⟩ := mem_map.mp h
      exact .inr (.inl (mem_map_of_mem (Journal.mem_push.mpr (.inl hx))))
    · exact hopen
  refine ⟨hopen, ?_, fun w hw => ⟨hkeep (h.gated w hw).1, hkeep (h.gated w hw).2⟩⟩
  show g.handOver.Points _ u' (if g.hardStateDirty then g.dirtyMark else g.hsMark)
  split_ifs
  · exact hopen
  · exact hkeep h.hsMark

theorem closeOpen (hi : g.Inv d) (ho : g.dirtyMark ≠ 0) (hh : g.markHandedOff = false) :
    g.closeOpen.Waits d u' := by
  have hkeep : ∀ {m}, m ≠ g.dirtyMark → g.Points d u m → g.closeOpen.Points d u' m := by
    rintro m hne (h | h | ⟨heq, -, -⟩)
    · exact .inl h
    · exact .inr (.inl h)
    · exact absurd heq hne
  have hstrike : ∀ {m}, g.Points d u m →
      g.closeOpen.Points d u' (if m = g.dirtyMark then 0 else m) := by
    intro m h
    split_ifs with heq
    · exact .zero
    · exact hkeep heq h
  refine ⟨.zero, hkeep (hi.hsMark_lt_open ho hh).ne h.hsMark, fun w hw => ?_⟩
  obtain ⟨w', hw', rfl⟩ := mem_map.mp hw
  exact ⟨hstrike (h.gated w' hw').1, hstrike (h.gated w' hw').2⟩

theorem land (hi : g.Inv d) (hm : m ∈ d.inFlight.map Prod.fst) : (g.land m).Waits (d.land m) u := by
  obtain ⟨y, hy, rfl⟩ := mem_map.mp hm
  have hkeep : ∀ {n}, g.Points d u n → (g.land y.1).Points (d.land y.1) u n := by
    rintro n (h | h | ⟨rfl, hh, hu⟩)
    · exact .inl (h.trans (hi.inFlight_gt y hy).le)
    · exact (Journal.le_or_mem_newer h y.1).imp_right .inl
    · rcases lt_or_ge y.1 g.dirtyMark with hlt | hge
      · refine .inr (.inr ⟨(if_neg (not_le.mpr hlt)).symm, ?_, hu⟩)
        show (if g.dirtyMark ≠ 0 ∧ g.dirtyMark ≤ y.1 then false else g.markHandedOff) = false
        split_ifs
        · rfl
        · exact hh
      · exact .inl hge
  have hclose : ∀ {n}, g.Points d u n →
      (g.land y.1).Points (d.land y.1) u (if n ≤ y.1 then 0 else n) := by
    intro n h
    split_ifs
    · exact .zero
    · exact hkeep h
  exact ⟨hclose h.opened, hclose h.hsMark, fun w hw =>
    ⟨hkeep (h.gated w hw).1, hkeep (h.gated w hw).2⟩⟩

end

end Waits

theorem Inv.termMark_gt (hi : g.Inv d) (hne : g.termMark ≠ 0) : g.persisted < g.termMark := by
  unfold Gate.termMark at hne ⊢
  split_ifs at hne ⊢
  · exact hi.open_gt hne
  · exact hi.hsMark_gt hne

end Gate

namespace Raft

/-- There is state for a drain to hand over. -/
def Unsaved (r : Raft) : Prop :=
  r.hardStateDirty = true ∨ r.tail.handed < r.lastIndex ∨ r.pendingSnap.isSome = true

/-- The part of a node the argument reads. -/
def logCore (r : Raft) : Raft where
  id := 0
  peers := []
  conf := {}
  baseConf := {}
  promotionLag := 0
  electionTimeout := 0
  randomizedElectionTimeout := 0
  heartbeatTimeout := 0
  log := r.log
  snapIndex := r.snapIndex
  tail := r.tail
  markLastIdx := r.markLastIdx
  lastHandedMark := r.lastHandedMark
  hardStateDirty := r.hardStateDirty
  dirtyMark := r.dirtyMark
  markHandedOff := r.markHandedOff
  persisted := r.persisted
  gated := r.gated
  msgs := r.msgs
  snapMark := r.snapMark
  nextSnapMark := r.nextSnapMark
  persistedSnap := r.persistedSnap
  pendingSnap := r.pendingSnap

/-- A mark is open, was not handed over, and covers nothing. -/
def Idle (r : Raft) : Prop :=
  r.dirtyMark ≠ 0 ∧ r.markHandedOff = false ∧ r.hardStateDirty = false ∧
    r.tail.handed = r.lastIndex

end Raft

/-! ### The snapshot stream -/

/-- A mark of the snapshot stream that is worth waiting for: it has landed, it was handed over and
has not landed, or its install is still to be handed over. -/
def Raft.SnapPoints (r : Raft) (installs : List (ℕ × ℕ)) (m : ℕ) : Prop :=
  m ≤ r.persistedSnap ∨ m ∈ installs.map Prod.fst ∨ (m = r.snapMark ∧ r.pendingSnap.isSome = true)

/-- The installs in flight after a drain. -/
def Raft.installsAfter (r : Raft) (installs : List (ℕ × ℕ)) : List (ℕ × ℕ) :=
  match r.pendingSnap with
  | some snap => installs ++ [(if r.pendingSnap.isSome then r.snapMark else 0, snap.index)]
  | none => installs

/-- The marks of the snapshot stream; only success responses wait for them. -/
structure SnapWaits (r : Raft) (installs : List (ℕ × ℕ)) : Prop where
  current : r.SnapPoints installs r.snapMark
  snapMark_gt : r.snapMark ≠ 0 → r.persistedSnap < r.snapMark
  snapMark_le : r.snapMark ≤ r.nextSnapMark
  persistedSnap_le : r.persistedSnap ≤ r.nextSnapMark
  installs_le : ∀ x ∈ installs, x.1 ≤ r.nextSnapMark
  installs_lt : r.pendingSnap.isSome = true → ∀ x ∈ installs, x.1 < r.snapMark
  gated : ∀ w ∈ r.gated, r.SnapPoints installs w.snapMark ∧ (w.snapMark ≠ 0 → Raft.isAck w)

open Raft

section Node

variable {r r' o : Raft} {d : Journal Disk} {installs : List (ℕ × ℕ)} {m : Message} {e : Entry}
  {i k n : ℕ} {u : Prop}

theorem Raft.SnapPoints.zero : r.SnapPoints installs 0 := .inl (zero_le _)

theorem SnapWaits.drain (h : SnapWaits r installs) (hmark : r'.snapMark = r.snapMark)
    (hnext : r'.nextSnapMark = r.nextSnapMark) (hpersisted : r'.persistedSnap = r.persistedSnap)
    (hnone : r'.pendingSnap = none)
    (hgated : ∀ w ∈ r'.gated, ∃ w' ∈ r.gated, w'.msg = w.msg ∧ w'.snapMark = w.snapMark) :
    SnapWaits r' (r.installsAfter installs) := by
  have hkeep : ∀ {n}, r.SnapPoints installs n → r'.SnapPoints (r.installsAfter installs) n := by
    unfold installsAfter
    rintro n (h | h | ⟨rfl, h⟩)
    · exact .inl (hpersisted ▸ h)
    · refine .inr (.inl ?_)
      cases r.pendingSnap with
      | none => exact h
      | some snap => simpa using .inl (by simpa using h)
    · refine .inr (.inl ?_)
      obtain ⟨snap, hsnap⟩ := Option.isSome_iff_exists.mp h
      simp [hsnap]
  refine ⟨?_, ?_, ?_, ?_, ?_, ?_, ?_⟩
  · rw [hmark]
    exact hkeep h.current
  · rw [hmark, hpersisted]
    exact h.snapMark_gt
  · rw [hmark, hnext]
    exact h.snapMark_le
  · rw [hpersisted, hnext]
    exact h.persistedSnap_le
  · rw [hnext]
    unfold installsAfter
    cases r.pendingSnap with
    | none => exact h.installs_le
    | some snap =>
      intro x hx
      rcases mem_append.mp hx with hx | hx
      · exact h.installs_le x hx
      · rw [mem_singleton.mp hx]
        exact h.snapMark_le
  · rw [hnone]
    exact fun hs => absurd hs (by simp)
  · intro w hw
    obtain ⟨w', hw', hmsg, hsnap⟩ := hgated w hw
    rw [← hsnap]
    refine ⟨hkeep (h.gated w' hw').1, fun hne => ?_⟩
    have hack := (h.gated w' hw').2 hne
    unfold isAck at hack ⊢
    rwa [← hmsg]

theorem SnapWaits.land (h : SnapWaits r installs) (hn : n ∈ installs.map Prod.fst)
    (hlt : r.persistedSnap < n) : SnapWaits (r.snapLanded n) (installs.filter (n < ·.1)) := by
  obtain ⟨y, hy, rfl⟩ := mem_map.mp hn
  have hmark : (r.snapLanded y.1).snapMark = 0 ∨
      ((r.snapLanded y.1).snapMark = r.snapMark ∧ y.1 < r.snapMark) := by
    show (if r.snapMark ≠ 0 ∧ r.snapMark ≤ y.1 then 0 else r.snapMark) = 0 ∨ _
    by_cases hc : r.snapMark ≠ 0 ∧ r.snapMark ≤ y.1
    · exact .inl (if_pos hc)
    · by_cases hz : r.snapMark = 0
      · exact .inl ((if_neg hc).trans hz)
      · exact .inr ⟨if_neg hc, not_le.mp fun hle => hc ⟨hz, hle⟩⟩
  have hkeep : ∀ {k}, r.SnapPoints installs k →
      (r.snapLanded y.1).SnapPoints (installs.filter (y.1 < ·.1)) k := by
    rintro k (hk | hk | ⟨rfl, hk⟩)
    · exact .inl (hk.trans hlt.le)
    · exact (Journal.le_or_mem_newer hk y.1).imp_right .inl
    · -- an install that is still to be handed over is newer than any in flight
      have hnew := h.installs_lt hk y hy
      exact .inr (.inr ⟨(if_neg fun hc => absurd hc.2 (not_le.mpr hnew)).symm, hk⟩)
  refine ⟨?_, fun hne => ?_, ?_, h.installs_le y hy,
    fun x hx => h.installs_le x (mem_filter.mp hx).1, fun hp x hx => ?_,
    fun w hw => ⟨hkeep (h.gated w hw).1, (h.gated w hw).2⟩⟩
  · rcases hmark with hz | ⟨heq, -⟩
    · rw [hz]
      exact .zero
    · rw [heq]
      exact hkeep h.current
  · rcases hmark with hz | ⟨heq, hgt⟩
    · exact absurd hz hne
    · rw [heq]
      exact hgt
  · rcases hmark with hz | ⟨heq, -⟩
    · rw [hz]
      exact zero_le _
    · rw [heq]
      exact h.snapMark_le
  · have hnew := h.installs_lt hp y hy
    have heq : (r.snapLanded y.1).snapMark = r.snapMark :=
      if_neg fun hc => absurd hc.2 (not_le.mpr hnew)
    rw [heq]
    exact h.installs_lt hp x (mem_filter.mp hx).1

/-- What the snapshot stream reads of a node, the withheld messages apart. -/
def Raft.snapCore (r : Raft) : ℕ × ℕ × ℕ × Option Snapshot :=
  (r.snapMark, r.nextSnapMark, r.persistedSnap, r.pendingSnap)

theorem SnapWaits.of_subset (h : SnapWaits r installs) (heq : r'.snapCore = r.snapCore)
    (hsub : ∀ w ∈ r'.gated, w ∈ r.gated) : SnapWaits r' installs := by
  simp only [snapCore, Prod.mk.injEq] at heq
  obtain ⟨h₁, h₂, h₃, h₄⟩ := heq
  have hpoints : ∀ {k}, r.SnapPoints installs k → r'.SnapPoints installs k := by
    unfold SnapPoints
    rw [h₁, h₃, h₄]
    exact id
  refine ⟨h₁ ▸ hpoints h.current, ?_, ?_, ?_, ?_, ?_, fun w hw => ?_⟩
  · rw [h₁, h₃]
    exact h.snapMark_gt
  · rw [h₁, h₂]
    exact h.snapMark_le
  · rw [h₂, h₃]
    exact h.persistedSnap_le
  · rw [h₂]
    exact h.installs_le
  · rw [h₁, h₄]
    exact h.installs_lt
  · exact ⟨hpoints (h.gated w (hsub w hw)).1, (h.gated w (hsub w hw)).2⟩

theorem SnapWaits.weaken (h : SnapWaits r installs) (hn : n ≤ r.persistedSnap) :
    SnapWaits r (installs.filter (n < ·.1)) := by
  have hkeep : ∀ {k}, r.SnapPoints installs k → r.SnapPoints (installs.filter (n < ·.1)) k := by
    rintro k (hk | hk | hk)
    · exact .inl hk
    · exact (Journal.le_or_mem_newer hk n).imp hn.trans' .inl
    · exact .inr (.inr hk)
  exact { h with
    current := hkeep h.current
    installs_le := fun x hx => h.installs_le x (mem_filter.mp hx).1
    installs_lt := fun hp x hx => h.installs_lt hp x (mem_filter.mp hx).1
    gated := fun w hw => ⟨hkeep (h.gated w hw).1, (h.gated w hw).2⟩ }

/-! ### The marks of a node -/

/-- The marks of a node while a message is stored; `u` says what there is to hand over. -/
structure MarkHeld (r : Raft) (d : Journal Disk) (installs : List (ℕ × ℕ)) (u : Prop) : Prop where
  water : r.Watermarks
  /-- What is not durable is covered by an open mark. -/
  covered : r.tail.persisted < r.lastIndex → r.dirtyMark ≠ 0
  unhanded : r.tail.handed < r.lastIndex → r.dirtyMark ≠ 0 ∧ r.markHandedOff = false
  handed_last : r.dirtyMark ≠ 0 → r.markHandedOff = true → r.lastHandedMark = r.dirtyMark
  waits : r.gate.Waits d u
  /-- What no longer waits for anything was released. -/
  withheld : ∀ w ∈ r.gated, r.released w = false
  snaps : SnapWaits r installs

/-- The marks of a node, against what its driver was handed. -/
structure MarkInv (r : Raft) (d : Journal Disk) (installs : List (ℕ × ℕ)) : Prop extends
    MarkHeld r d installs r.Unsaved where
  /-- A mark that covers nothing may be closed. -/
  idle : r.Idle → r.tail.persisted = r.lastIndex

theorem MarkHeld.lastIndex_le (hi : MarkHeld r d installs u) (hoff : r.markHandedOff = true) :
    r.lastIndex ≤ r.tail.handed := by
  by_contra hlt
  exact absurd (hoff.symm.trans (hi.unhanded (not_le.mp hlt)).2) (by simp)

theorem MarkInv.of_settled (hw : r.Watermarks) (hz : r.dirtyMark = 0)
    (hp : r.tail.persisted = r.lastIndex) (hwaits : r.gate.Waits d u)
    (hwithheld : ∀ w ∈ r.gated, r.released w = false) (hsnaps : SnapWaits r installs) :
    MarkInv r d installs where
  water := hw
  covered h := absurd hp h.ne
  unhanded h := absurd hp (hw.durable_le.trans_lt h).ne
  handed_last h := absurd hz h
  waits := hwaits.imp fun h => absurd hz h
  withheld := hwithheld
  snaps := hsnaps
  idle h := absurd hz h.1

/-- The part of a node the marks are about. -/
def Raft.markCore (r : Raft) : Raft :=
  { r.logCore with msgs := [], hsMark := r.hsMark, nextMark := r.nextMark }

section

variable (hi : MarkInv r d installs)
include hi

theorem MarkInv.congr (h : r'.markCore = r.markCore) : MarkInv r' d installs := by
  have hcore : MarkInv r.markCore d installs :=
    { hi with water := { hi.water with }, waits := { hi.waits with }, snaps := { hi.snaps with } }
  rw [← h] at hcore
  exact
    { hcore with
      water := { hcore.water with }, waits := { hcore.waits with }, snaps := { hcore.snaps with } }

theorem MarkInv.setTermAndVote (t : ℕ) (v : NodeID) :
    MarkInv (r.setTermAndVote t v) d installs := by
  rcases r.setTermAndVote_cases t v with ⟨-, -, h⟩ | ⟨nm, dm, hdm, h⟩
  · rw [h]
    exact hi
  · by_cases hne : r.gate.hs ≠ ⟨t, v⟩
    · have hdirty : (r.setTermAndVote t v).Unsaved := .inl (by rw [h])
      have hwaits := hi.waits.set hne hdirty
      rw [← gate_setTermAndVote] at hwaits
      rw [h] at hwaits ⊢
      exact
        { water := hi.water.of_eq rfl rfl
          covered := fun _ => hdm
          unhanded := fun _ => ⟨hdm, rfl⟩
          handed_last := fun _ hh => absurd hh (by simp)
          waits := hwaits
          withheld := hi.withheld
          snaps := { hi.snaps with }
          idle := fun hidle => absurd hidle.2.2.1 (by simp) }
    · have hsame : r.setTermAndVote t v = r := by
        obtain ⟨ht, hv⟩ := HardState.mk.inj (not_not.mp hne)
        unfold Raft.setTermAndVote
        rw [if_neg (by simp [ht, hv])]
      rw [hsame]
      exact hi

theorem MarkInv.send (hg : r.gate.Inv d) {mark snapMark : ℕ}
    (hmark : r.gate.Points d r.Unsaved mark) (hmark' : mark ≠ 0 → r.persisted < mark)
    (hsnap : r.SnapPoints installs snapMark)
    (hsnap' : snapMark ≠ 0 → r.persistedSnap < snapMark ∧ m.isSuccess) :
    MarkInv (r.sendGatedOn mark snapMark m) d installs := by
  have hwaits : (r.gate.send mark snapMark m).Waits d r.Unsaved := hi.waits.send hmark m
  rw [← gate_sendGatedOn] at hwaits
  unfold sendGatedOn at hwaits ⊢
  split_ifs at hwaits ⊢ with hz
  · exact hi.congr rfl
  · refine { hi with
      water := hi.water.of_eq rfl rfl
      waits := hwaits
      withheld := fun w hw => ?_
      snaps := { hi.snaps with gated := fun w hw => ?_ } }
    · rcases mem_append.mp hw with hw | hw
      · exact hi.withheld w hw
      · rw [mem_singleton.mp hw]
        have hterm : r.termMark ≠ 0 → r.persisted < r.termMark := hg.termMark_gt
        by_contra hrel
        simp only [Bool.not_eq_false, released, Bool.and_eq_true, decide_eq_true_eq] at hrel
        refine hz ⟨?_, ?_, ?_⟩
        · by_contra hne
          exact absurd hrel.1.1 (not_le.mpr (hmark' hne))
        · by_contra hne
          exact absurd hrel.2 (not_le.mpr (hsnap' hne).1)
        · by_contra hne
          exact absurd hrel.1.2 (not_le.mpr (hterm hne))
    · rcases mem_append.mp hw with hw | hw
      · exact hi.snaps.gated w hw
      · rw [mem_singleton.mp hw]
        exact ⟨hsnap, fun hne => (hsnap' hne).2⟩

theorem MarkInv.sendGated (hg : r.gate.Inv d) (m : Message) : MarkInv (r.sendGated m) d installs :=
  hi.send hg .zero (fun h => absurd rfl h) .zero fun h => absurd rfl h

theorem MarkInv.acknowledge (hg : r.gate.Inv d) (h : r.acknowledge m k = .ok r') :
    MarkInv r' d installs := by
  obtain ⟨lm, sm, hm, rfl⟩ := acknowledge_eq h
  unfold marksFor at hm
  split_ifs at hm with h₁ h₂ h₃ h₄
  · cases hm
    exact hi.sendGated hg _
  · cases hm
    exact hi.send hg .zero (fun h => absurd rfl h) hi.snaps.current
      fun hne => ⟨hi.snaps.snapMark_gt hne, rfl⟩
  · cases hm
    exact hi.sendGated hg _
  · cases hm
    exact hi.send hg hi.waits.opened hg.open_gt .zero fun h => absurd rfl h

theorem MarkInv.drop (hsub : ∀ w ∈ gs, w ∈ r.gated) : MarkInv { r with gated := gs } d installs :=
  { hi with
    water := hi.water.of_eq rfl rfl
    waits := { hi.waits.drop hsub with }
    withheld := fun w hw => hi.withheld w (hsub w hw)
    snaps := { hi.snaps with gated := fun w hw => hi.snaps.gated w (hsub w hw) } }

end

/-! ### Storing entries -/

theorem MarkHeld.extend (hi : MarkHeld r d installs u) (he : e.index = r.lastIndex + 1) :
    MarkInv (r.extend e) d installs := by
  have hlast := extend_lastIndex hi.water.contiguous he
  have hwater := hi.water.extend he
  have hlt : (r.extend e).tail.handed < (r.extend e).lastIndex := by
    have htail : (r.extend e).tail = r.tail := congrArg (·.2.1) (r.extend_bounds e)
    rw [hlast, htail]
    exact lt_succ_of_le hi.water.handed_le
  have hunsaved : (r.extend e).Unsaved := .inr (.inl hlt)
  have hwaits := hi.waits.dirty hunsaved
  rw [← gate_extend r e] at hwaits
  obtain ⟨_, _, _, _, dm, hdm, heq⟩ := r.extend_eq e
  rw [heq] at hwater hwaits hlt ⊢
  exact
    { water := hwater
      covered := fun _ => hdm
      unhanded := fun _ => ⟨hdm, rfl⟩
      handed_last := fun _ hh => absurd hh (by simp)
      waits := hwaits
      withheld := hi.withheld
      snaps := { hi.snaps with }
      idle := fun hidle => absurd hidle.2.2.2 hlt.ne }

/-- A cut takes the watermarks and the responses about the suffix with it. What is left under the
open mark is up to what follows. -/
theorem MarkHeld.cutFrom (hi : MarkHeld r d installs u) (hs : r.snapIndex < i)
    (hle : i ≤ r.lastIndex) : MarkHeld (r.cutFrom i) d installs True := by
  have hlast := cutFrom_lastIndex hi.water.contiguous hs hle
  have hsub : ∀ w ∈ r.gated.filter fun g => !attestsFrom i g, w ∈ r.gated :=
    fun w hw => (mem_filter.mp hw).1
  have hwater := hi.water.cutFrom hs hle
  have hdurable : (r.cutFrom i).tail.persisted < (r.cutFrom i).lastIndex →
      r.tail.persisted < r.lastIndex := by
    show (if i ≤ r.tail.persisted then i - 1 else r.tail.persisted) < (r.cutFrom i).lastIndex → _
    split_ifs <;> omega
  have hhanded : (r.cutFrom i).tail.handed < (r.cutFrom i).lastIndex →
      r.tail.handed < r.lastIndex := by
    show (if i ≤ r.tail.handed then i - 1 else r.tail.handed) < (r.cutFrom i).lastIndex → _
    split_ifs <;> omega
  exact
    { water := hwater
      covered := fun h => hi.covered (hdurable h)
      unhanded := fun h => hi.unhanded (hhanded h)
      handed_last := hi.handed_last
      waits := { (hi.waits.drop hsub).imp fun _ _ _ => trivial with }
      withheld := fun w hw => hi.withheld w (hsub w hw)
      snaps := { hi.snaps with gated := fun w hw => hi.snaps.gated w (hsub w hw) } }

theorem MarkInv.storeEntry (hi : MarkInv r d installs) (h : r.storeEntry e = .ok r') :
    MarkInv r' d installs := by
  rcases storeEntry_cases h with ⟨-, -, rfl⟩ | ⟨hle, -, -, hs, rfl⟩ | ⟨he, rfl⟩
  · exact hi
  · exact (hi.toMarkHeld.cutFrom hs hle).extend
      (cutFrom_lastIndex hi.water.contiguous hs hle).symm
  · exact hi.toMarkHeld.extend he

theorem MarkInv.storeEntries (hi : MarkInv r d installs) {es : List Entry}
    (h : es.foldlM Raft.storeEntry r = .ok r') : MarkInv r' d installs :=
  foldlM_inv (P := fun r => MarkInv r d installs) (fun _ _ _ _ h₁ h₂ => h₁.storeEntry h₂) hi h

theorem MarkInv.commitUpTo (hi : MarkInv r d installs) (i j : ℕ) :
    MarkInv (r.commitUpTo i j) d installs :=
  hi.congr (commitUpTo_proj r i j Raft.markCore fun _ _ => rfl)

/-- An installed snapshot replaces the log and opens a mark on either stream. Nothing waits for an
older snapshot any more. -/
theorem MarkInv.install (hi : MarkInv r d installs) (m : Message) (conf : Configuration)
    (hg : ∀ w ∈ r.gated, isAck w = false) : MarkInv (r.installSnapshot m conf) d installs := by
  have hzero : ∀ w ∈ r.gated, w.snapMark = 0 := by
    intro w hw
    by_contra hne
    exact absurd ((hg w hw).symm.trans ((hi.snaps.gated w hw).2 hne)) (by simp)
  have hpending : (r.installSnapshot m conf).pendingSnap.isSome = true := by
    obtain ⟨_, _, _, _, -, heq⟩ := r.installSnapshot_eq m conf
    rw [heq]
    rfl
  have hunsaved : (r.installSnapshot m conf).Unsaved := .inr (.inr hpending)
  have hwaits := hi.waits.dirty hunsaved
  rw [← gate_installSnapshot r m conf] at hwaits
  have hle := hi.snaps.persistedSnap_le
  have hinstalls := hi.snaps.installs_le
  obtain ⟨_, _, nm, dm, hdm, heq⟩ := r.installSnapshot_eq m conf
  rw [heq] at hwaits ⊢
  exact
    { water := ⟨fun j e hj => absurd hj (by simp), le_rfl, le_rfl, le_rfl, rfl, by
        rintro s ⟨⟩
        exact ⟨rfl, rfl⟩⟩
      covered := fun _ => hdm
      unhanded := fun h => absurd h (lt_irrefl _)
      handed_last := fun _ hh => absurd hh (by simp)
      waits := hwaits
      withheld := hi.withheld
      snaps :=
        { current := .inr (.inr ⟨rfl, rfl⟩)
          snapMark_gt := fun _ => lt_succ_of_le hle
          snapMark_le := le_rfl
          persistedSnap_le := hle.trans (le_succ _)
          installs_le := fun x hx => (hinstalls x hx).trans (le_succ _)
          installs_lt := fun _ x hx => lt_succ_of_le (hinstalls x hx)
          gated := fun w hw => by
            rw [hzero w hw]
            exact ⟨.zero, fun hne => absurd rfl hne⟩ }
      idle := fun _ => rfl }

end Node

theorem Micro.markInv {o r' : Raft} (h : Micro c o r r') (hg : r.gate.Inv d)
    (hi : MarkInv r d installs) : MarkInv r' d installs := by
  cases h with
  | soft h => exact hi.congr (h.proj Raft.markCore fun _ => rfl)
  | bump m _ _ _ => exact (hi.setTermAndVote m.term 0).congr rfl
  | campaign _ _ _ =>
    have hcand : MarkInv r.takeCandidacy d installs := hi.congr rfl
    exact (hcand.setTermAndVote (r.term + 1) r.id).congr rfl
  | grant m _ _ _ hv _ =>
    rw [setVote_eq]
    have hset : MarkInv (r.setTermAndVote r.term m.fromID).resetElection d installs :=
      (hi.setTermAndVote r.term m.fromID).congr rfl
    refine hset.sendGated ?_ _
    show (r.setTermAndVote r.term m.fromID).gate.Inv d
    rw [gate_setTermAndVote]
    exact hg.set (.inr ⟨rfl, hv⟩)
  | reveal msg _ => exact hi.sendGated hg msg
  | append e _ _ hidx _ _ => exact hi.toMarkHeld.extend hidx
  | accept r₁ _ m _ _ _ _ _ _ hs ha =>
    refine ((hi.storeEntries hs).commitUpTo _ _).acknowledge ?_ ha
    rw [commitUpTo_gate]
    exact hg.steps (storeEntries_gateSteps hs)
  | covered _ m _ _ _ _ _ _ _ ha => exact hi.acknowledge hg ha
  | dropAcks => exact hi.drop fun w hw => (mem_filter.mp hw).1
  | install r₁ m conf _ _ _ _ _ _ hacks _ _ hr' =>
    subst hr'
    have hinst := hi.install m conf hacks
    have hgate : (r.installSnapshot m conf).gate.Inv d := hg.step (installSnapshot_gateStep r m conf)
    exact hinst.send hgate hinst.waits.opened hgate.open_gt hinst.snaps.current
      fun hne => ⟨hinst.snaps.snapMark_gt hne, rfl⟩
  | ackApplied i _ =>
    refine hi.congr ?_
    unfold Raft.ackApplied
    split_ifs <;> rfl
  | _ => exact hi.congr rfl

theorem Micros.markInv {o r' : Raft} (h : Micros c o r r') (hg : r.gate.Inv d)
    (hi : MarkInv r d installs) : MarkInv r' d installs := by
  induction h with
  | refl => exact hi
  | tail hs h ih => exact h.markInv (hg.steps (Micros.gateSteps hs)) ih

/-! ### Drains, acknowledgements and compactions -/

variable {entries : List Entry}

section Driver

variable {r : Raft} {d : Journal Disk} {installs : List (ℕ × ℕ)} {i n : ℕ}

theorem withheld_release (r : Raft) : ∀ w ∈ r.release.gated, r.released w = false := by
  intro w hw
  simpa using (mem_filter.mp hw).2

theorem MarkHeld.open_of_unsaved {u : Prop} (hi : MarkHeld r d installs u) (hg : r.gate.Inv d)
    (hu : r.unhanded = .ok entries) (hn : r.hardStateDirty = true ∨ entries ≠ []) :
    r.dirtyMark ≠ 0 ∧ r.markHandedOff = false := by
  rcases hn with hd | hne
  · exact hg.dirty_open hd
  · refine hi.unhanded ?_
    by_contra hge
    refine hne ?_
    unfold Raft.unhanded at hu
    rw [if_neg hge] at hu
    exact (pure_eq_ok.mp hu).symm

/-- A drain that hands something over freezes the open mark and puts it in flight. -/
theorem MarkInv.handOver (hi : MarkInv r d installs) (hu : r.unhanded = .ok entries)
    (ho : r.dirtyMark ≠ 0) (a : Disk) :
    MarkInv (r.takeOutputs.handOver entries).flushed (d.push r.dirtyMark a)
      (r.installsAfter installs) := by
  have htail := (handOver_tail hi.water hu).1
  have hall : ¬ (r.takeOutputs.handOver entries).flushed.tail.handed <
      (r.takeOutputs.handOver entries).flushed.lastIndex := by
    rw [htail]
    exact lt_irrefl _
  exact
    { water := hi.water.handOver hu
      covered := fun _ => ho
      unhanded := fun h => absurd h hall
      handed_last := fun _ _ => rfl
      waits := Server.gate_handOver r entries ▸ hi.waits.handOver_push a
      withheld := hi.withheld
      snaps := hi.snaps.drain rfl rfl rfl rfl fun w hw => ⟨w, hw, rfl, rfl⟩
      idle := fun h => absurd h.2.1 (by simp [flushed, Raft.handOver]) }

theorem Server.mem_gated_closeIdle {w : GatedMessage} (hw : w ∈ r.closeIdle.gated) :
    ∃ w' ∈ r.gated, w'.msg = w.msg ∧ w'.snapMark = w.snapMark := by
  unfold closeIdle at hw
  split_ifs at hw
  · obtain ⟨w', hw', rfl⟩ := mem_map.mp (mem_filter.mp hw).1
    exact ⟨w', hw', rfl, rfl⟩
  · exact ⟨w, hw, rfl, rfl⟩

/-- A drain that finds nothing to hand over closes the open mark. What waited for it waits for
nothing more on this stream. -/
theorem MarkInv.closeIdle (hi : MarkInv r d installs) (hg : r.gate.Inv d)
    (hu : r.unhanded = .ok []) (hd : r.hardStateDirty = false) :
    MarkInv r.takeOutputs.closeIdle.flushed d (r.installsAfter installs) := by
  have hall : r.tail.handed = r.lastIndex := unhanded_getD hi.water.contiguous
    (hi.water.snap_le.trans hi.water.durable_le) hi.water.handed_le hu
  have hwater := hi.water.closeIdle
  have hwaits : r.takeOutputs.gate.Waits d r.Unsaved := gate_takeOutputs hd ▸ hi.waits
  have hgate : r.takeOutputs.gate.Inv d := gate_takeOutputs hd ▸ hg
  have hsnaps : SnapWaits r.takeOutputs.closeIdle.flushed (r.installsAfter installs) := by
    refine hi.snaps.drain ?_ ?_ ?_ ?_ fun w hw =>
      Server.mem_gated_closeIdle (r := r.takeOutputs) hw
    all_goals
      obtain ⟨_, _, _, _, heq⟩ := r.takeOutputs.closeIdle_eq
      rw [heq]
      rfl
  have hsame : r.takeOutputs.closeIdle.flushed.tail = r.tail ∧
      r.takeOutputs.closeIdle.flushed.lastIndex = r.lastIndex := by
    obtain ⟨_, _, _, _, heq⟩ := r.takeOutputs.closeIdle_eq
    rw [heq]
    exact ⟨rfl, rfl⟩
  by_cases hc : r.takeOutputs.dirtyMark ≠ 0 ∧ !r.takeOutputs.markHandedOff
  · have hclose : r.takeOutputs.closeIdle = r.takeOutputs.closeEmptyMark r.takeOutputs.dirtyMark :=
      if_pos hc
    obtain ⟨ho, hh⟩ := hc
    rw [Bool.not_eq_true'] at hh
    have hnothing : r.takeOutputs.gate.closeOpen.Waits d False := hwaits.closeOpen hgate ho hh
    have hclosed := hnothing.release (r.takeOutputs.dropMark r.takeOutputs.dirtyMark).released
    rw [← gate_dropMark, ← gate_release] at hclosed
    rw [hclose] at hwater hsnaps hsame ⊢
    refine .of_settled hwater (if_pos rfl) ?_ (u := False) { hclosed with }
      (withheld_release (r.takeOutputs.dropMark r.takeOutputs.dirtyMark)) hsnaps
    rw [hsame.1, hsame.2]
    exact hi.idle ⟨ho, hh, hd, hall⟩
  · have hkeep : r.takeOutputs.closeIdle = r.takeOutputs := if_neg hc
    have hopen : r.dirtyMark = 0 ∨ r.markHandedOff = true := by
      by_contra hne
      push Not at hne
      exact hc ⟨hne.1, Bool.not_eq_true' _ |>.mpr (Bool.not_eq_true _ |>.mp hne.2)⟩
    rw [hkeep] at hwater hsnaps ⊢
    exact
      { water := hwater
        covered := hi.covered
        unhanded := fun h => absurd hall (Nat.ne_of_lt h)
        handed_last := hi.handed_last
        waits := { hwaits.imp fun ho hh => absurd (hopen.resolve_left ho) (Bool.not_eq_true _ |>.mpr hh)
          with }
        withheld := hi.withheld
        snaps := hsnaps
        idle := fun h => absurd (hopen.resolve_left h.1) (Bool.not_eq_true _ |>.mpr h.2.1) }

/-- The watermark of what is durable stays, or moves up to what the last landed mark carried. -/
theorem landed_tail (hw : r.Watermarks) (n : ℕ) :
    (r.landed n).tail.persisted = r.tail.persisted ∨
      (r.landed n).tail.persisted = r.tail.handed ∧ r.lastHandedMark ≤ n := by
  unfold landed
  dsimp only
  split_ifs with hc
  · exact .inr ⟨hw.markLastIdx_eq, hc.2.1⟩
  · exact .inl rfl

theorem landMarks_tail (hw : r.Watermarks) (n : ℕ) :
    (r.landMarks n).tail.handed = r.tail.handed ∧
      r.tail.persisted ≤ (r.landMarks n).tail.persisted ∧
      (r.lastHandedMark ≠ 0 → r.lastHandedMark ≤ n →
        (r.landMarks n).tail.persisted = r.tail.handed) := by
  have hmark := hw.markLastIdx_eq
  have hdurable := hw.durable_le
  show (r.landed n).tail.handed = _ ∧ _ ≤ (r.landed n).tail.persisted ∧
    (_ → _ → (r.landed n).tail.persisted = _)
  unfold landed
  dsimp only
  split_ifs with hc
  · exact ⟨rfl, hc.2.2.le, fun _ _ => hmark⟩
  · refine ⟨rfl, le_rfl, fun h₁ h₂ => ?_⟩
    have : ¬ r.tail.persisted < r.markLastIdx := fun h₃ => hc ⟨h₁, h₂, h₃⟩
    omega

theorem landMarks_open (r : Raft) (n : ℕ) :
    (r.dirtyMark ≤ n ∧ (r.landMarks n).dirtyMark = 0) ∨
      (n < r.dirtyMark ∧ (r.landMarks n).dirtyMark = r.dirtyMark ∧
        (r.landMarks n).markHandedOff = r.markHandedOff) := by
  have hmark : (r.landMarks n).dirtyMark =
      if r.dirtyMark ≠ 0 ∧ r.dirtyMark ≤ n then 0 else r.dirtyMark := rfl
  have hoff : (r.landMarks n).markHandedOff =
      if r.dirtyMark ≠ 0 ∧ r.dirtyMark ≤ n then false else r.markHandedOff := rfl
  rw [hmark, hoff]
  rcases lt_or_ge n r.dirtyMark with hlt | hge
  · have hc : ¬ (r.dirtyMark ≠ 0 ∧ r.dirtyMark ≤ n) := fun h => absurd h.2 (not_le.mpr hlt)
    exact .inr ⟨hlt, if_neg hc, if_neg hc⟩
  · refine .inl ⟨hge, ?_⟩
    split_ifs with hc
    · rfl
    · exact not_not.mp fun hne => hc ⟨hne, hge⟩

theorem landMarks_same (r : Raft) (n : ℕ) : (r.landMarks n).lastIndex = r.lastIndex ∧
    (r.landMarks n).hardStateDirty = r.hardStateDirty ∧
    (r.landMarks n).pendingSnap = r.pendingSnap ∧
    (r.landMarks n).lastHandedMark = r.lastHandedMark ∧
    (r.landMarks n).snapCore = r.snapCore := by
  obtain ⟨_, _, _, _, _, _, _, heq⟩ := r.landMarks_eq n
  rw [heq]
  exact ⟨rfl, rfl, rfl, rfl, rfl⟩

/-- Marks of the log stream land. An open mark that lands was handed over with the whole log. -/
theorem MarkInv.land (hi : MarkInv r d installs) (hg : r.gate.Inv d)
    (hn : n ∈ d.inFlight.map Prod.fst) : MarkInv (r.landMarks n) (d.land n) installs := by
  obtain ⟨y, hy, rfl⟩ := mem_map.mp hn
  obtain ⟨hhanded, hup, hfull⟩ := landMarks_tail hi.water y.1
  have hwater := hi.water.landMarks y.1
  obtain ⟨hlast, hdirty, hpending, hcarried, hcore⟩ := landMarks_same r y.1
  have hunsaved : r.Unsaved → (r.landMarks y.1).Unsaved := by
    unfold Unsaved
    rw [hhanded, hlast, hdirty, hpending]
    exact id
  have hwaits := ((hi.waits.land hg hn).release
    ((r.landed y.1).closeThrough y.1).released).imp fun _ _ => hunsaved
  have hwithheld := withheld_release ((r.landed y.1).closeThrough y.1)
  have hsub : ∀ w ∈ ((r.landed y.1).closeThrough y.1).release.gated, w ∈ r.gated := fun w hw =>
    (mem_filter.mp hw).1
  have hland : ((r.landed y.1).closeThrough y.1).release = r.landMarks y.1 := rfl
  rw [← Server.gate_landed, ← gate_release, hland] at hwaits
  rw [hland] at hwithheld hsub
  have hnewer : r.dirtyMark ≠ 0 → r.markHandedOff = false → y.1 < r.dirtyMark := fun ho hh =>
    hg.inFlight_lt_open ho hh y hy
  refine
    { water := hwater, covered := fun h => ?_, unhanded := fun h => ?_
      handed_last := fun hne hh => ?_, waits := hwaits
      withheld := hwithheld, snaps := hi.snaps.of_subset hcore hsub
      idle := fun h => ?_ }
  · rw [hlast] at h
    have ho := hi.covered (hup.trans_lt h)
    rcases landMarks_open r y.1 with ⟨hle, -⟩ | ⟨-, heq, -⟩
    · -- the open mark lands: it was handed over, and the whole log with it
      exfalso
      have hh : r.markHandedOff = true := by
        by_contra hne
        exact absurd (hnewer ho (Bool.not_eq_true _ |>.mp hne)) (not_lt.mpr hle)
      have hmark := hi.handed_last ho hh
      have hpersisted := hfull (hmark ▸ ho) (hmark ▸ hle)
      exact absurd (hi.lastIndex_le hh) (not_le.mpr (hpersisted ▸ h))
    · rwa [heq]
  · rw [hhanded, hlast] at h
    obtain ⟨ho, hh⟩ := hi.unhanded h
    rcases landMarks_open r y.1 with ⟨hle, -⟩ | ⟨-, heq, hoff⟩
    · exact absurd (hnewer ho hh) (not_lt.mpr hle)
    · rw [heq, hoff]
      exact ⟨ho, hh⟩
  · rcases landMarks_open r y.1 with ⟨-, hz⟩ | ⟨-, heq, hoff⟩
    · exact absurd hz hne
    · rw [heq] at hne ⊢
      rw [hcarried]
      exact hi.handed_last hne (hoff.symm.trans hh)
  · obtain ⟨hne, hh, hclean, hall⟩ := h
    rcases landMarks_open r y.1 with ⟨-, hz⟩ | ⟨-, heq, hoff⟩
    · exact absurd hz hne
    · rw [hhanded, hlast] at hall
      have hdurable := hi.idle ⟨heq ▸ hne, hoff.symm.trans hh, hdirty.symm.trans hclean, hall⟩
      have hle := hwater.durable_le.trans hwater.handed_le
      rw [hlast] at hle ⊢
      omega

theorem MarkInv.landSnap (hi : MarkInv r d installs) (hn : n ∈ installs.map Prod.fst)
    (hlt : r.persistedSnap < n) :
    MarkInv (r.snapLanded n).release d (installs.filter (n < ·.1)) :=
  { hi with
    water := hi.water.of_eq rfl rfl
    waits := { hi.waits.release (r.snapLanded n).released with }
    withheld := withheld_release (r.snapLanded n)
    snaps :=
      { hi.snaps.land hn hlt with
        gated := fun w hw => (hi.snaps.land hn hlt).gated w (mem_filter.mp hw).1 } }

theorem MarkInv.dropThrough (hi : MarkInv r d installs) (hs : r.snapIndex < i)
    (hp : i ≤ r.tail.persisted) (t : ℕ) (conf : Configuration) :
    MarkInv (r.dropThrough i t conf) d installs := by
  have hnone : r.pendingSnap = none := by
    by_contra hne
    obtain ⟨s, hsome⟩ := Option.ne_none_iff_exists'.mp hne
    have hhanded := (hi.water.install s hsome).2
    have := hi.water.durable_le
    omega
  have hlast := dropThrough_lastIndex hi.water.contiguous hs
    (hp.trans (hi.water.durable_le.trans hi.water.handed_le)) t conf
  have hunsaved : (r.dropThrough i t conf).Unsaved ↔ r.Unsaved := by
    unfold Unsaved
    rw [hlast]
    exact Iff.rfl
  exact
    { water := hi.water.dropThrough hs hp hnone t conf
      covered := fun h => hi.covered (hlast ▸ h)
      unhanded := fun h => hi.unhanded (hlast ▸ h)
      handed_last := hi.handed_last
      waits := { hi.waits.imp fun _ _ => hunsaved.mpr with }
      withheld := hi.withheld
      snaps := { hi.snaps with }
      idle := fun h => by
        rw [hlast]
        exact hi.idle ⟨h.1, h.2.1, h.2.2.1, h.2.2.2.trans hlast⟩ }

end Driver

/-! ### Whole runs -/

/-- The open mark covers an index: it has not landed, a message about the index waits for it, and
once it was handed over, its landing makes the index durable. -/
def Raft.CoveredByOpen (r : Raft) (i : ℕ) : Prop :=
  r.persisted < r.dirtyMark ∧ r.marksFor i = .ok (r.dirtyMark, 0) ∧
    (r.markHandedOff = true → i ≤ (r.landMarks r.dirtyMark).tail.persisted)

theorem MarkInv.coveredByOpen {i : ℕ} (hi : MarkInv r d installs) (hg : r.gate.Inv d)
    (hp : r.tail.persisted < i) (hle : i ≤ r.lastIndex) : r.CoveredByOpen i := by
  have hopen : r.dirtyMark ≠ 0 := hi.covered (hp.trans_le hle)
  have hsnap : ¬ i ≤ r.snapIndex := fun h => absurd (h.trans hi.water.snap_le) (not_le.mpr hp)
  refine ⟨hg.open_gt hopen, ?_, fun hoff => ?_⟩
  · unfold marksFor
    rw [if_neg (ne_zero_of_lt hp), if_neg hsnap, if_neg (not_le.mpr hp), if_neg hopen]
    rfl
  · have hlast := hi.handed_last hopen hoff
    rw [(landMarks_tail hi.water r.dirtyMark).2.2 (hlast ▸ hopen) hlast.le]
    exact hle.trans (hi.lastIndex_le hoff)

/-- An append carries the entries right after the index it builds on. -/
def Call.consecutive : Call → Bool
  | .step m => m.type ≠ .app || Rift.consecutive m.prevLogIndex m.entries
  | _ => true

theorem MarkHeld.acknowledge_avoids {u : Prop} {k : ℕ} (hi : MarkHeld r d installs u)
    (hk : k ≤ r.lastIndex) (m : Message) : Avoids .marksUncovered (r.acknowledge m k) := by
  refine Avoids.bind ?_ fun _ _ => .pure _
  unfold marksFor
  split_ifs with h₁ h₂ h₃ h₄
  · exact .pure _
  · exact .pure _
  · exact .pure _
  · exact absurd h₄ (hi.covered (by omega))
  · exact .pure _

theorem MarkInv.exec_avoids (hi : MarkInv r d installs) (hg : r.gate.Inv d) (hc : c.consecutive) :
    Avoids .marksUncovered (r.exec c) := by
  -- the node that handles a message from its leader is one a few effects away
  have hfollow : ∀ m, m.type = .app ∨ m.type = .snap →
      MarkInv ((r.observeTerm m).followLeader m) d installs := by
    intro m ht
    have hle : m.term ≤ (r.observeTerm m).term := by
      rcases ht with ht | ht <;> exact le_observeTerm_term (by simp [ht]) (by simp [ht])
    have hm : Micros (.step m) r r ((r.observeTerm m).followLeader m) :=
      (observeTerm_micros r m).trans (followLeader_micros hle)
    exact hm.markInv hg hi
  refine Raft.exec_avoids rfl (fun m heq ht => ?_) (fun m _ ht => ?_) fun h => nomatch h
  · subst heq
    have hcons : Rift.consecutive m.prevLogIndex m.entries := by
      simpa [Call.consecutive, ht] using hc
    have hm := hfollow m (.inl ht)
    refine stepApp_avoids rfl fun r₁ _ hmatch hs => ?_
    refine ((hm.storeEntries hs).commitUpTo _ _).toMarkHeld.acknowledge_avoids ?_ m
    rw [commitUpTo_proj _ _ _ Raft.lastIndex fun _ _ => rfl]
    exact storeEntries_lastIndex hm.water.contiguous hcons (le_lastIndex_of_matchesLog hmatch) hs
  · exact stepSnap_avoids fun _ _ =>
      (hfollow m (.inr ht)).toMarkHeld.acknowledge_avoids le_rfl m

namespace Server

variable {s s' s₀ : Server} {c : Call} {rep : Reply}

/-- The marks of a server. -/
def MarksHeld (s : Server) : Prop := MarkInv s.raft s.disk s.installs

theorem Starts.marksHeld (h : Starts s) : s.MarksHeld := by
  have hstart : ∀ {r : Raft} {d : Journal Disk}, r.Watermarks → r.tail.persisted = r.lastIndex →
      r.dirtyMark = 0 → r.hsMark = 0 → r.gated = [] → r.snapMark = 0 → r.persistedSnap = 0 →
      r.pendingSnap = none → MarkInv r d [] := by
    intro r d hw hp hz hh hg hs hps hpe
    refine .of_settled (u := False) hw hz hp ⟨?_, ?_, ?_⟩ ?_ ⟨?_, ?_, ?_, ?_, ?_, ?_, ?_⟩
    · exact .inl (hz.trans_le (zero_le _))
    · exact .inl (hh.trans_le (zero_le _))
    · intro w hw
      exact absurd (show w ∈ r.gated from hw) (by simp [hg])
    · simp [hg]
    · exact .inl (hs.trans_le (zero_le _))
    · exact fun hne => absurd hs hne
    · omega
    · omega
    · simp
    · simp [hpe]
    · simp [hg]
  cases h with
  | @new cfg r h =>
    obtain rfl := new_eq h
    exact hstart (.fresh cfg) rfl rfl rfl rfl rfl rfl rfl
  | @restore cfg hs snap entries r h =>
    obtain ⟨rfl, -, hgap⟩ := restore_eq h
    refine hstart (.recovered cfg hs snap fun j e hj => ?_) rfl rfl rfl rfl rfl rfl rfl
    have := firstGap_contiguous hgap j e hj
    omega

theorem record_handOver {committed : List Entry} (ho : s.raft.dirtyMark ≠ 0) :
    (s.record .ready (s.raft.takeOutputs.handOver entries).flushed
      (.drained (s.raft.output entries committed))).disk =
      s.disk.push s.raft.dirtyMark (s.disk.newest.write (s.raft.output entries committed)) :=
  if_neg ho

/-- Every call of a driver that acknowledges only what it was handed keeps the marks. -/
theorem MarksHeld.exec (hi : s.MarksHeld) (hg : s.GateInv) (ha : s.admits c)
    (h : s.exec c = .ok (s', rep)) : s'.MarksHeld := by
  obtain ⟨r, hx, rfl⟩ := exec_raft h
  unfold MarksHeld
  rw [record_raft]
  cases exec_executed hx with
  | plain hp hm =>
    rw [record_plain s hp]
    exact hm.markInv hg hi
  | @handOver entries committed hu _ hn =>
    have hopen := (MarkHeld.open_of_unsaved hi.toMarkHeld hg hu hn).1
    rw [record_handOver hopen]
    exact MarkInv.handOver hi hu hopen _
  | idle hu _ hd => exact MarkInv.closeIdle hi hg hu hd
  | @staleAck m hm =>
    rw [record_staleAck s hm]
    exact hi
  | @ack m _ hm hs =>
    have hmem := mem_inFlight_of_admitsMark (s := s) ha hm
    rw [record_ack s hm]
    exact hs.markInv (hg.landMarks hmem) (MarkInv.land hi hg hmem)
  | staleSnap hm => exact { hi with snaps := hi.snaps.weaken hm }
  | @ackSnap m hm =>
    have hmem : m ∈ s.installs.map Prod.fst := by
      simpa [admits, not_le.mpr hm] using ha
    exact MarkInv.landSnap hi hmem hm
  | uncompacted => exact hi
  | recompacted _ => exact hi
  | @compacted i e conf hs _ hp _ _ => exact MarkInv.dropThrough hi hs hp e.term conf

theorem MarksHeld.run (h₀ : s₀.Starts)
    (hrun : Relation.ReflTransGen (Step fun s c => s.admits c) s₀ s) : s.GateInv ∧ s.MarksHeld := by
  induction hrun with
  | refl => exact ⟨h₀.gateInv, h₀.marksHeld⟩
  | @tail s₁ _ _ hstep ih =>
    obtain ⟨c, rep, ha, hx⟩ := hstep
    have hmark : s₁.admitsMark c := by
      cases c <;> first | exact ha | rfl
    exact ⟨ih.1.exec hmark hx, ih.2.exec ih.1 ha hx⟩

/-- A withheld message waits only for marks that were handed to the driver and not acknowledged, or
for what the next drain hands over. -/
def WaitsForDriver (s : Server) (w : GatedMessage) : Prop :=
  s.raft.gate.Points s.disk s.raft.Unsaved w.mark ∧
    s.raft.gate.Points s.disk s.raft.Unsaved w.termMark ∧
    s.raft.SnapPoints s.installs w.snapMark

/-- Nothing waits for a driver that has nothing left to write or to acknowledge. -/
theorem MarksHeld.gated_eq_nil (hi : s.MarksHeld) (hu : ¬ s.raft.Unsaved)
    (hlog : s.disk.inFlight = []) (hsnap : s.installs = []) : s.raft.gated = [] := by
  refine eq_nil_iff_forall_not_mem.mpr fun w hw => ?_
  have hpoints : ∀ {m}, s.raft.gate.Points s.disk s.raft.Unsaved m → m ≤ s.raft.persisted := by
    rintro m (h | h | ⟨-, -, h⟩)
    · exact h
    · exact absurd h (by simp [hlog])
    · exact absurd h hu
  have hsnapped : w.snapMark ≤ s.raft.persistedSnap := by
    rcases (hi.snaps.gated w hw).1 with h | h | ⟨-, h⟩
    · exact h
    · exact absurd h (by simp [hsnap])
    · exact absurd (.inr (.inr h)) hu
  have hrel : s.raft.released w = true := by
    simp [released, hpoints (hi.waits.gated w hw).1, hpoints (hi.waits.gated w hw).2, hsnapped]
  exact absurd (hrel.symm.trans (hi.withheld w hw)) (by simp)

/-- Three entries from the leader of term 1. -/
def appendOfThree : Call :=
  .step { type := .app, fromID := 2, toID := 1, term := 1
          entries := [{ term := 1, index := 1 }, { term := 1, index := 2 },
            { term := 1, index := 3 }] }

end Server

end Rift
