import Rift.Raft.Log
import Rift.Raft.Queues

/-!
# Watermarks of the log

How far a node's log is compacted, durable and handed over, and what a pending snapshot install says
about it. None of it depends on which marks a driver acknowledges, so it holds of any sequence of calls.
-/

namespace Rift

namespace Raft

variable {r r' : Raft} {e : Entry} {i : ℕ} {c : Call} {o : Raft}

/-- The watermarks of a log. -/
structure Watermarks (r : Raft) : Prop where
  contiguous : r.Contiguous
  snap_le : r.snapIndex ≤ r.tail.persisted
  durable_le : r.tail.persisted ≤ r.tail.handed
  handed_le : r.tail.handed ≤ r.lastIndex
  markLastIdx_eq : r.markLastIdx = r.tail.handed
  /-- Nothing above an install that is still to be handed over was handed over. -/
  install : ∀ s ∈ r.pendingSnap, s.index = r.snapIndex ∧ r.tail.handed = r.snapIndex

/-- What the watermarks speak about, the log apart. -/
def bounds (r : Raft) : ℕ × LogTail × ℕ × Option Snapshot :=
  (r.snapIndex, r.tail, r.markLastIdx, r.pendingSnap)

theorem Watermarks.of_eq (h : r.Watermarks) (hlog : r'.log = r.log) (hb : r'.bounds = r.bounds) :
    r'.Watermarks := by
  simp only [bounds, Prod.mk.injEq] at hb
  obtain ⟨hsnap, htail, hmark, hpending⟩ := hb
  have hlast : r'.lastIndex = r.lastIndex := by
    unfold lastIndex
    rw [hlog, hsnap]
  exact
    { contiguous := h.contiguous.of_log hlog hsnap
      snap_le := by rw [hsnap, htail]; exact h.snap_le
      durable_le := by rw [htail]; exact h.durable_le
      handed_le := by rw [htail, hlast]; exact h.handed_le
      markLastIdx_eq := by rw [hmark, htail]; exact h.markLastIdx_eq
      install := by rw [hpending, hsnap, htail]; exact h.install }

theorem extend_bounds (r : Raft) (e : Entry) : (r.extend e).bounds = r.bounds := by
  obtain ⟨_, _, _, _, _, -, heq⟩ := r.extend_eq e
  rw [heq]
  rfl

theorem ackApplied_bounds (r : Raft) (i : ℕ) : (r.ackApplied i).bounds = r.bounds := by
  unfold ackApplied
  split_ifs <;> rfl

theorem Watermarks.extend (h : r.Watermarks) (he : e.index = r.lastIndex + 1) :
    (r.extend e).Watermarks := by
  have hb := r.extend_bounds e
  simp only [bounds, Prod.mk.injEq] at hb
  obtain ⟨hsnap, htail, hmark, hpending⟩ := hb
  have hlast := extend_lastIndex h.contiguous he
  exact
    { contiguous := h.contiguous.extend he
      snap_le := by rw [hsnap, htail]; exact h.snap_le
      durable_le := by rw [htail]; exact h.durable_le
      handed_le := by rw [htail, hlast]; exact h.handed_le.trans (Nat.le_succ _)
      markLastIdx_eq := by rw [hmark, htail]; exact h.markLastIdx_eq
      install := by rw [hpending, hsnap, htail]; exact h.install }

theorem Watermarks.cutFrom (h : r.Watermarks) (hs : r.snapIndex < i) (hi : i ≤ r.lastIndex) :
    (r.cutFrom i).Watermarks := by
  have hlast := cutFrom_lastIndex h.contiguous hs hi
  have hsnap := h.snap_le
  have hdurable := h.durable_le
  have hhanded := h.handed_le
  have hmark := h.markLastIdx_eq
  refine ⟨h.contiguous.cutFrom i, ?_, ?_, ?_, ?_, fun s hpending => ?_⟩
  · change r.snapIndex ≤ if i ≤ r.tail.persisted then i - 1 else r.tail.persisted
    split_ifs <;> omega
  · change (if i ≤ r.tail.persisted then i - 1 else r.tail.persisted) ≤
      if i ≤ r.tail.handed then i - 1 else r.tail.handed
    split_ifs <;> omega
  · change (if i ≤ r.tail.handed then i - 1 else r.tail.handed) ≤ _
    split_ifs <;> omega
  · change (if i ≤ r.markLastIdx then i - 1 else r.markLastIdx) =
      if i ≤ r.tail.handed then i - 1 else r.tail.handed
    rw [hmark]
  · -- A pending install was not handed over, so nothing handed over is cut.
    obtain ⟨hindex, hhanded'⟩ := h.install s hpending
    refine ⟨hindex, ?_⟩
    change (if i ≤ r.tail.handed then i - 1 else r.tail.handed) = r.snapIndex
    rw [if_neg (by omega)]
    exact hhanded'

theorem Watermarks.storeEntry (h : r.Watermarks) (hs : r.storeEntry e = .ok r') :
    r'.Watermarks := by
  rcases storeEntry_cases hs with ⟨-, -, rfl⟩ | ⟨hle, -, -, hsnap, rfl⟩ | ⟨he, rfl⟩
  · exact h
  · exact (h.cutFrom hsnap hle).extend (cutFrom_lastIndex h.contiguous hsnap hle).symm
  · exact h.extend he

end Raft

open Raft

variable {r r' : Raft} {c : Call} {o : Raft}

theorem Micro.watermarks (hm : Micro c o r r') (h : r.Watermarks) : r'.Watermarks := by
  have hof : ∀ {r₁ : Raft}, r'.ledger = r₁.ledger → r₁.Watermarks → r'.Watermarks := fun heq h =>
    h.of_eq (ledger_proj heq Raft.log fun _ => rfl) (ledger_proj heq bounds fun _ => rfl)
  cases hm.entered with
  | same heq => exact hof heq h
  | turn _ heq _ => exact hof heq (h.of_eq rfl rfl)
  | append e _ hi _ _ => exact h.extend hi
  | @accept m r₁ _ _ _ _ _ hs heq =>
    have h₁ : r₁.Watermarks := foldlM_inv (P := Raft.Watermarks)
      (fun _ _ _ _ h₁ h₂ => h₁.storeEntry h₂) h hs
    exact hof heq (h₁.of_eq (commitUpTo_proj _ _ _ Raft.log fun _ _ => rfl)
      (commitUpTo_proj _ _ _ bounds fun _ _ => rfl))
  | commit _ _ => exact h.of_eq rfl rfl
  | @install m conf _ _ _ _ _ _ heq =>
    refine hof heq ?_
    obtain ⟨_, _, _, _, -, hinstall⟩ := r.installSnapshot_eq m conf
    rw [hinstall]
    refine ⟨fun j e hj => absurd hj (by simp), le_rfl, le_rfl, le_rfl, rfl, ?_⟩
    rintro s ⟨⟩
    exact ⟨rfl, rfl⟩
  | applied _ => exact h.of_eq rfl rfl

theorem Micros.watermarks (hm : Micros c o r r') (h : r.Watermarks) : r'.Watermarks := by
  induction hm with
  | refl => exact h
  | tail _ hm ih => exact hm.watermarks ih

namespace Raft

/-! ### Calls -/

theorem Watermarks.landMarks (h : r.Watermarks) (m : ℕ) : (r.landMarks m).Watermarks := by
  have htail : (r.landed m).tail = r.tail ∨
      (r.landed m).tail = { r.tail with persisted := r.markLastIdx } := by
    unfold landed
    dsimp only
    split_ifs
    · exact .inr rfl
    · exact .inl rfl
  have hsnap := h.snap_le
  have hdurable := h.durable_le
  have hmark := h.markLastIdx_eq
  have hlanded : (r.landed m).Watermarks := by
    rcases htail with ht | ht
    · exact h.of_eq rfl (by unfold bounds; rw [ht]; rfl)
    · refine ⟨h.contiguous, ?_, ?_, ?_, ?_, ?_⟩ <;> rw [ht]
      · exact hmark ▸ hsnap.trans hdurable
      · exact hmark.le
      · exact h.handed_le
      · exact hmark
      · exact h.install
  exact hlanded.of_eq rfl rfl

theorem Watermarks.dropThrough (h : r.Watermarks) (hs : r.snapIndex < i) (hp : i ≤ r.tail.persisted)
    (hn : r.pendingSnap = none) (t : ℕ) (conf : Configuration) :
    (r.dropThrough i t conf).Watermarks where
  contiguous := h.contiguous.dropThrough hs t conf
  snap_le := hp
  durable_le := h.durable_le
  handed_le := by
    have hle : i ≤ r.lastIndex := hp.trans (h.durable_le.trans h.handed_le)
    rw [dropThrough_lastIndex h.contiguous hs hle]
    exact h.handed_le
  markLastIdx_eq := h.markLastIdx_eq
  install s hpending := absurd (hn.symm.trans hpending) (by simp)

/-- What a drain returns, and what it leaves. -/
structure Handed (r r' : Raft) (rd : Ready) : Prop where
  snapshot : rd.snapshot = r.pendingSnap
  entries : rd.entries = r.log.drop (r.tail.handed - r.snapIndex)
  handed : r'.tail.handed = r.lastIndex
  snapIndex : r'.snapIndex = r.snapIndex
  pendingSnap : r'.pendingSnap = none
  hardState : rd.hardState = r.changedHardState

theorem Watermarks.takeOutputs (h : r.Watermarks) : r.takeOutputs.Watermarks :=
  ⟨h.contiguous, h.snap_le, h.durable_le, h.handed_le, h.markLastIdx_eq,
    fun s hs => absurd hs (by simp [Raft.takeOutputs])⟩

variable {entries : List Entry} {rd : Ready} {e : Entry}

theorem handOver_tail (h : r.Watermarks) (hu : r.unhanded = .ok entries) :
    (r.takeOutputs.handOver entries).flushed.tail = { r.tail with handed := r.lastIndex } ∧
      (r.takeOutputs.handOver entries).flushed.markLastIdx = r.lastIndex := by
  have hlast := unhanded_getD h.contiguous (h.snap_le.trans h.durable_le) h.handed_le hu
  have hmark := hlast
  rw [← h.markLastIdx_eq] at hmark
  refine ⟨?_, hmark⟩
  show LogTail.mk r.tail.persisted ((entries.getLast?.map (·.index)).getD r.tail.handed) = _
  rw [hlast]

theorem Watermarks.handOver (h : r.Watermarks) (hu : r.unhanded = .ok entries) :
    (r.takeOutputs.handOver entries).flushed.Watermarks := by
  obtain ⟨htail, hmark⟩ := handOver_tail h hu
  refine ⟨h.contiguous, ?_, ?_, ?_, ?_, fun s hs => absurd hs (by simp [flushed, Raft.handOver,
    Raft.takeOutputs])⟩
  · rw [htail]
    exact h.snap_le
  · rw [htail]
    exact h.durable_le.trans h.handed_le
  · rw [htail]
    exact le_rfl
  · rw [htail, hmark]

theorem Watermarks.closeIdle (h : r.Watermarks) : r.takeOutputs.closeIdle.flushed.Watermarks := by
  obtain ⟨_, _, _, _, heq⟩ := r.takeOutputs.closeIdle_eq
  rw [heq]
  exact h.takeOutputs.of_eq rfl rfl

theorem Watermarks.ready (h : r.Watermarks) (hr : r.ready = .ok (r', rd)) :
    r'.Watermarks ∧ r.Handed r' rd := by
  have hs := h.snap_le.trans h.durable_le
  cases ready_executed hr with
  | plain hp _ => exact absurd hp (by simp [Call.plain])
  | handOver hu _ _ =>
    exact ⟨h.handOver hu, ⟨rfl, unhanded_eq_drop h.contiguous hs hu,
      congrArg LogTail.handed (handOver_tail h hu).1, rfl, rfl, rfl⟩⟩
  | idle hu _ _ =>
    have hlast := unhanded_getD h.contiguous hs h.handed_le hu
    refine ⟨h.closeIdle, ?_⟩
    obtain ⟨_, _, _, _, heq⟩ := r.takeOutputs.closeIdle_eq
    rw [heq]
    exact ⟨rfl, unhanded_eq_drop h.contiguous hs hu, hlast, rfl, rfl, rfl⟩

theorem Handed.index (hd : r.Handed r' rd) (h : r.Watermarks) {j : ℕ}
    (he : rd.entries[j]? = some e) : e.index = r.tail.handed + j + 1 := by
  have hs := h.snap_le.trans h.durable_le
  rw [hd.entries, List.getElem?_drop] at he
  rw [h.contiguous _ e he]
  omega

theorem Handed.length (hd : r.Handed r' rd) (h : r.Watermarks) :
    r.tail.handed + rd.entries.length = r.lastIndex := by
  have hs := h.snap_le.trans h.durable_le
  have hle := h.handed_le
  rw [hd.entries, List.length_drop]
  rw [lastIndex_eq h.contiguous] at hle ⊢
  omega

/-- What the inputs of a node do to the watermarks: a log is only ever replaced by an install. -/
structure Inherits (r r' : Raft) : Prop where
  pendingSnap : r'.pendingSnap = none → r.pendingSnap = none
  snapIndex : r'.pendingSnap = none → r'.snapIndex = r.snapIndex
  handed : r'.pendingSnap = none → r'.tail.handed ≤ r.tail.handed

theorem Inherits.of_bounds (hb : r'.bounds = r.bounds) : r.Inherits r' := by
  simp only [bounds, Prod.mk.injEq] at hb
  obtain ⟨hsnap, htail, -, hpending⟩ := hb
  exact ⟨fun h => hpending ▸ h, fun _ => hsnap, fun _ => htail ▸ le_rfl⟩

theorem Inherits.trans {r₁ r₂ r₃ : Raft} (h₁ : r₁.Inherits r₂) (h₂ : r₂.Inherits r₃) :
    r₁.Inherits r₃ where
  pendingSnap h := h₁.pendingSnap (h₂.pendingSnap h)
  snapIndex h := (h₂.snapIndex h).trans (h₁.snapIndex (h₂.pendingSnap h))
  handed h := (h₂.handed h).trans (h₁.handed (h₂.pendingSnap h))

theorem cutFrom_inherits (r : Raft) (i : ℕ) : r.Inherits (r.cutFrom i) := by
  refine ⟨fun h => h, fun _ => rfl, fun _ => ?_⟩
  change (if i ≤ r.tail.handed then i - 1 else r.tail.handed) ≤ r.tail.handed
  split_ifs <;> omega

theorem extend_inherits (r : Raft) (e : Entry) : r.Inherits (r.extend e) :=
  .of_bounds (r.extend_bounds e)

theorem storeEntry_inherits (hs : r.storeEntry e = .ok r') : r.Inherits r' := by
  rcases storeEntry_cases hs with ⟨-, -, rfl⟩ | ⟨-, -, -, -, rfl⟩ | ⟨-, rfl⟩
  · exact .of_bounds rfl
  · exact (r.cutFrom_inherits _).trans (extend_inherits _ _)
  · exact extend_inherits _ _

end Raft

theorem Micro.inherits (hm : Micro c o r r') : r.Inherits r' := by
  have hof : ∀ {r₁ : Raft}, r'.ledger = r₁.ledger → r₁.Inherits r' := fun heq =>
    .of_bounds (ledger_proj heq bounds fun _ => rfl)
  cases hm.entered with
  | same heq => exact hof heq
  | turn role heq _ =>
    have hrole : r.Inherits { r with role := role } := .of_bounds rfl
    exact hrole.trans (hof heq)
  | append e _ _ _ _ => exact r.extend_inherits e
  | @accept m r₁ _ _ _ _ _ hs heq =>
    have h₁ : r.Inherits r₁ := foldlM_inv (P := r.Inherits)
      (fun _ _ _ _ h₁ h₂ => h₁.trans (storeEntry_inherits h₂)) (.of_bounds rfl) hs
    exact (h₁.trans (.of_bounds (commitUpTo_proj _ _ _ bounds fun _ _ => rfl))).trans (hof heq)
  | @install m conf _ _ _ _ _ _ heq =>
    -- An install leaves a snapshot to be handed over.
    refine Raft.Inherits.trans ?_ (hof heq)
    obtain ⟨_, _, _, _, -, hinstall⟩ := r.installSnapshot_eq m conf
    rw [hinstall]
    exact ⟨fun h => absurd h (by simp), fun h => absurd h (by simp), fun h => absurd h (by simp)⟩
  | _ => exact .of_bounds rfl

theorem Micro.pendingSnap_eq (hm : Micro c o r r') (hc : ∀ m, c ≠ .step m) :
    r'.pendingSnap = r.pendingSnap := by
  cases hm.entered with
  | same heq => exact ledger_proj heq Raft.pendingSnap fun _ => rfl
  | turn _ heq _ => exact ledger_proj heq Raft.pendingSnap fun _ => rfl
  | append e _ _ _ _ => exact congrArg (·.2.2.2) (r.extend_bounds e)
  | accept h _ _ _ _ _ => exact absurd h (hc _)
  | install h _ _ _ _ _ => exact absurd h (hc _)
  | _ => rfl

theorem Micros.pendingSnap_eq (hm : Micros c o r r') (hc : ∀ m, c ≠ .step m) :
    r'.pendingSnap = r.pendingSnap := by
  induction hm with
  | refl => rfl
  | tail _ hm ih => exact (hm.pendingSnap_eq hc).trans ih

theorem Micros.inherits (hm : Micros c o r r') : r.Inherits r' := by
  induction hm with
  | refl => exact .of_bounds rfl
  | tail _ hm ih => exact ih.trans hm.inherits

namespace Raft

theorem landMarks_inherits (r : Raft) (m : ℕ) : r.Inherits (r.landMarks m) := by
  have hlanded : r.Inherits (r.landed m) := by
    refine ⟨fun h => h, fun _ => rfl, fun _ => ?_⟩
    unfold landed
    dsimp only
    split_ifs <;> exact le_rfl
  exact hlanded.trans (.of_bounds rfl)

theorem Watermarks.exec {rep : Reply} (h : r.Watermarks) (he : r.exec c = .ok (r', rep))
    (hr : c ≠ .ready) (hc : ∀ i, c ≠ .compact i) : r'.Watermarks ∧ r.Inherits r' := by
  cases exec_executed he with
  | plain _ hm => exact ⟨hm.watermarks h, hm.inherits⟩
  | handOver => exact absurd rfl hr
  | idle => exact absurd rfl hr
  | staleAck => exact ⟨h, .of_bounds rfl⟩
  | ack _ hm => exact ⟨hm.watermarks (h.landMarks _), (r.landMarks_inherits _).trans hm.inherits⟩
  | staleSnap => exact ⟨h, .of_bounds rfl⟩
  | ackSnap _ => exact ⟨h.of_eq rfl rfl, .of_bounds rfl⟩
  | uncompacted => exact absurd rfl (hc _)
  | recompacted => exact absurd rfl (hc _)
  | compacted => exact absurd rfl (hc _)

theorem Watermarks.recovered (cfg : Config) (hs : HardState) (snap : SnapshotMeta)
    {es : List Entry} (hes : ∀ j e, es[j]? = some e → e.index = snap.index + j + 1) :
    (Raft.recovered cfg hs snap es).Watermarks where
  contiguous := hes
  snap_le := snapIndex_le_lastIndex (r := Raft.recovered cfg hs snap es) hes
  durable_le := le_rfl
  handed_le := le_rfl
  markLastIdx_eq := rfl
  install _ h := absurd h (by simp [Raft.recovered, fresh, recomputeConf, setConf])

theorem Watermarks.fresh (cfg : Config) : (Raft.fresh cfg).Watermarks where
  contiguous := fun _ _ h => absurd h (by simp [Raft.fresh])
  snap_le := le_rfl
  durable_le := le_rfl
  handed_le := le_rfl
  markLastIdx_eq := rfl
  install _ h := absurd h (by simp [Raft.fresh])

end Raft

end Rift
