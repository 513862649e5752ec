import Rift.Raft.SelfLookup

/-!
# The active configuration

A configuration entry takes effect when it is appended, so the active configuration is a function of
the base configuration and of the log, whatever was appended, cut off, compacted or replaced by a
snapshot. A compaction moves entries from the log into the base: the configuration at every index
from the compaction point on stays what it was.
-/

namespace Rift

open List

/-! ### Sorted lists of servers -/

theorem insertSorted_pairwise {x : NodeID} {ys : List NodeID} (h : ys.Pairwise (· < ·))
    (hx : x ∉ ys) : (insertSorted x ys).Pairwise (· < ·) := by
  induction ys with
  | nil => exact pairwise_singleton _ _
  | cons y ys ih =>
    obtain ⟨hy, hys⟩ := pairwise_cons.mp h
    unfold insertSorted
    split_ifs with hlt
    · refine pairwise_cons.mpr ⟨fun z hz => ?_, h⟩
      rcases mem_cons.mp hz with rfl | hz
      · exact hlt
      · exact UInt64.lt_trans hlt (hy z hz)
    · have hne : y ≠ x := fun heq => hx (heq ▸ mem_cons_self)
      have hyx : y < x := UInt64.lt_of_le_of_ne (UInt64.not_lt.mp hlt) hne
      refine pairwise_cons.mpr
        ⟨fun z hz => ?_, ih hys fun hmem => hx (mem_cons_of_mem _ hmem)⟩
      rcases mem_cons.mp ((insertSorted_perm x ys).mem_iff.mp hz) with rfl | hz
      · exact hyx
      · exact hy z hz

variable {xs : List NodeID}

theorem sortIDs_pairwise (h : xs.Nodup) : (sortIDs xs).Pairwise (· < ·) := by
  have hfold : ∀ (xs acc : List NodeID), (xs ++ acc).Nodup → acc.Pairwise (· < ·) →
      (xs.foldl (fun acc x => insertSorted x acc) acc).Pairwise (· < ·) := by
    intro xs
    induction xs with
    | nil => exact fun _ _ hacc => hacc
    | cons x xs ih =>
      intro acc hnd hacc
      obtain ⟨hx, hnd⟩ := nodup_cons.mp hnd
      refine ih _ ?_ (insertSorted_pairwise hacc fun hmem => hx (mem_append_right _ hmem))
      have hperm := ((insertSorted_perm x acc).append_left xs).trans perm_middle
      exact hperm.nodup_iff.mpr (nodup_cons.mpr ⟨hx, hnd⟩)
  exact hfold xs [] (by rwa [append_nil]) .nil

theorem insertID_pairwise (n : NodeID) (h : xs.Pairwise (· < ·)) :
    (insertID xs n).Pairwise (· < ·) := by
  by_cases hn : n ∈ xs
  · rwa [insertID, if_pos hn]
  · rw [insertID, if_neg hn]
    refine sortIDs_pairwise ((perm_append_singleton n xs).nodup_iff.mpr ?_)
    exact nodup_cons.mpr ⟨hn, h.imp fun hlt => UInt64.ne_of_lt hlt⟩

namespace Configuration

variable {c c' : Configuration}

/-- Voters and learners are sorted without duplicates, no server is both, and somebody votes. -/
structure Proper (c : Configuration) : Prop where
  voters : c.voters.Pairwise (· < ·)
  learners : c.learners.Pairwise (· < ·)
  disjoint : c.voters.Disjoint c.learners
  voters_ne : c.voters ≠ []

theorem Proper.wf (h : c.Proper) : c.WF :=
  ⟨h.voters.imp fun hlt => UInt64.ne_of_lt hlt, h.learners.imp fun hlt => UInt64.ne_of_lt hlt,
    h.disjoint⟩

/-- A change that is not refused leads from a proper configuration to a proper one. -/
theorem Proper.apply {ch : ConfChangeSingle} (hp : c.Proper) (h : c.apply ch = .ok c') :
    c'.Proper := by
  obtain ⟨hne, hcases⟩ := apply_cases h
  have hdisjoint := (hp.wf.apply h).disjoint
  rcases hcases with ⟨hv, hl⟩ | ⟨-, hv, hl⟩ | ⟨hv, hl⟩ | rfl
  · exact ⟨hv ▸ insertID_pairwise _ hp.voters, hl ▸ hp.learners.filter _, hdisjoint, hne⟩
  · exact ⟨hv ▸ hp.voters, hl ▸ insertID_pairwise _ hp.learners, hdisjoint, hne⟩
  · exact ⟨hv ▸ hp.voters.filter _, hl ▸ hp.learners.filter _, hdisjoint, hne⟩
  · exact hp

end Configuration

/-! ### The configuration a log says -/

namespace Raft

variable {r r' : Raft} {c : Call} {i j : ℕ}

/-! ### Compaction -/

/-- From the compaction point on, the configuration is that of the log's prefix. -/
theorem Contiguous.configurationAt_eq (h : r.Contiguous) (hi : r.snapIndex ≤ i)
    (hle : i ≤ r.lastIndex) :
    r.configurationAt i = .ok (confOf r.baseConf (r.log.take (i - r.snapIndex))) := by
  unfold configurationAt
  rw [if_neg hi.not_gt]
  split_ifs with heq hnone
  · rw [heq, Nat.sub_self]
    rfl
  · obtain ⟨e, he⟩ := exists_entryAt h (lt_of_le_of_ne hi (Ne.symm heq)) hle
    exact absurd hnone (by simp [he])
  · rw [h.takeWhile_index_le hi]
    rfl

/-- A compaction keeps the configuration at every index it leaves in reach. -/
theorem configurationAt_dropThrough {conf : Configuration} (h : r.Contiguous)
    (hs : r.snapIndex < i) (hi : i ≤ r.lastIndex) (hc : r.configurationAt i = .ok conf) (t : ℕ)
    (hj : i ≤ j) (hle : j ≤ r.lastIndex) :
    (r.dropThrough i t conf).configurationAt j = r.configurationAt j := by
  have hlast : (r.dropThrough i t conf).lastIndex = r.lastIndex :=
    dropThrough_lastIndex h hs hi t conf
  have hconf : confOf r.baseConf (r.log.take (i - r.snapIndex)) = conf := by
    rw [h.configurationAt_eq hs.le hi] at hc
    injection hc
  -- the entries through `j` are those through `i`, now in the base, and the rest
  have hsplit : r.log.take (j - r.snapIndex) =
      r.log.take (i - r.snapIndex) ++ (r.log.drop (i - r.snapIndex)).take (j - i) := by
    rw [← take_add, show i - r.snapIndex + (j - i) = j - r.snapIndex by omega]
  have hdrop : (r.dropThrough i t conf).configurationAt j =
      .ok (confOf conf ((r.log.drop (i - r.snapIndex)).take (j - i))) :=
    (h.dropThrough hs t conf).configurationAt_eq hj (hlast ▸ hle)
  rw [hdrop, h.configurationAt_eq (hs.le.trans hj) hle, hsplit, confOf_append, hconf]

end Raft

/-! ### Whole runs -/

open Raft

/-- The call hands over a message. -/
def Call.isStep : Call → Bool
  | .step _ => true
  | _ => false

/-- The configuration of a snapshot that is delivered is proper. -/
def Call.SnapProper (c : Call) : Prop :=
  ∀ m conf, c = .step m → m.type = .snap → decodeConfiguration m.snapConf = some conf →
    conf.Proper

/-- What holds of a node between calls: the log has no gap, the configuration follows it, and the
base it starts from is proper. -/
structure Raft.ConfHeld (r : Raft) : Prop extends r.SelfHeld where
  base : r.baseConf.Proper

theorem Raft.ConfHeld.proper {r : Raft} (h : r.ConfHeld) : r.conf.Proper :=
  h.tracks.conf ▸ confOf_induct (fun hp => hp.apply) h.base r.log

namespace Server

variable {s s' s₀ : Server} {c : Call} {rep : Reply}

theorem confHeld_exec (h : s.raft.ConfHeld) (hc : c.SnapProper)
    (hx : s.exec c = .ok (s', rep)) : s'.raft.ConfHeld := by
  refine ⟨selfHeld_exec h.toSelfHeld hx, ?_⟩
  obtain ⟨r, hr, rfl⟩ := exec_raft hx
  rw [record_raft]
  rcases (exec_executed hr).baseConf with heq | ⟨m, hm, ht, hd⟩ | ⟨i, hi⟩
  · exact heq ▸ h.base
  · exact hc m _ hm ht hd
  · exact configurationAt_induct (fun hp => hp.apply) h.base hi

theorem exists_exec_compact (s : Server) (i : ℕ) :
    ∃ s' rep, s.exec (.compact i) = .ok (s', rep) := by
  have hraft : ∃ r rep, s.raft.exec (.compact i) = .ok (r, rep) := by
    simp only [Raft.exec]
    split
    · exact ⟨_, _, rfl⟩
    · exact ⟨_, _, rfl⟩
  obtain ⟨r, rep, hr⟩ := hraft
  exact ⟨s.record (.compact i) r rep, rep, by rw [Server.exec, hr]; rfl⟩

/-- A compaction changes neither the end of the log nor the configuration at a later index. -/
theorem compact_keeps {i : ℕ} (h : s.raft.ConfHeld)
    (hx : s.exec (.compact i) = .ok (s', rep)) :
    s'.raft.lastIndex = s.raft.lastIndex ∧
      ∀ j, i ≤ j → j ≤ s.raft.lastIndex →
        s'.raft.configurationAt j = s.raft.configurationAt j := by
  obtain ⟨r, hr, rfl⟩ := exec_raft hx
  rw [record_raft]
  cases exec_executed hr with
  | plain hp _ => exact absurd hp (by simp [Call.plain])
  | uncompacted => exact ⟨rfl, fun _ _ _ => rfl⟩
  | recompacted _ => exact ⟨rfl, fun _ _ _ => rfl⟩
  | @compacted _ e conf hs _ _ he hc =>
    have hi := le_lastIndex_of_entryAt he
    exact ⟨dropThrough_lastIndex h.contiguous hs hi e.term conf,
      fun j hj hle => configurationAt_dropThrough h.contiguous hs hi hc e.term hj hle⟩

/-- Along every run of a node from `New` or `Restore` whose snapshots carry proper configurations:
the active configuration is the base configuration with the configuration entries of the log applied
in order, the refused ones skipped; it is proper; and a compaction at `i` changes neither the last
index nor the configuration at any index from `i` on. -/
theorem conf_function_of_log (h₀ : s₀.Starts) (hbase : s₀.raft.baseConf.Proper)
    (hrun : Relation.ReflTransGen (Step fun _ c => c.SnapProper) s₀ s) :
    s.raft.conf = s.raft.log.foldl applyLogged s.raft.baseConf ∧ s.raft.conf.Proper ∧
      ∀ i, ∃ s' rep, s.exec (.compact i) = .ok (s', rep) ∧
        s'.raft.lastIndex = s.raft.lastIndex ∧
        ∀ j, i ≤ j → j ≤ s.raft.lastIndex →
          s'.raft.configurationAt j = s.raft.configurationAt j := by
  have hheld : s.raft.ConfHeld := by
    induction hrun with
    | refl => exact ⟨h₀.selfHeld, hbase⟩
    | tail _ hstep ih =>
      obtain ⟨c, rep, hc, hx⟩ := hstep
      exact confHeld_exec ih hc hx
  refine ⟨hheld.tracks.conf.trans (foldl_applyLogged _ _).symm, hheld.proper, fun i => ?_⟩
  obtain ⟨s', rep, hx⟩ := s.exists_exec_compact i
  exact ⟨s', rep, hx, compact_keeps hheld hx⟩

/-- The only voter of its cluster. -/
def onlyOne : Config := { id := 1, peers := [1], electionTimeout := 10, heartbeatTimeout := 1 }

def soleVoter : Server := { raft := Raft.fresh onlyOne }

/-- Take node 2 in as a learner. -/
def additionOfTwo : ConfChangeV2 :=
  { changes := [{ type := .addLearner, node := 2 }], transition := .simple }

theorem conf_function_of_log_addition : ∃ s : Server, soleVoter.Starts ∧
    Relation.ReflTransGen (Step fun _ c => c.SnapProper) soleVoter s ∧
      s.raft.snapIndex = 0 ∧ s.raft.conf = { voters := [1], learners := [2] } ∧
      s.raft.conf.Proper ∧
      ∃ s' rep, s.exec (.compact 2) = .ok (s', rep) ∧
        s'.raft.lastIndex = s.raft.lastIndex ∧
        ∀ j, 2 ≤ j → j ≤ s.raft.lastIndex →
          s'.raft.configurationAt j = s.raft.configurationAt j := by
  have hstart : soleVoter.Starts := @Starts.new onlyOne _ rfl
  have hbase : soleVoter.raft.baseConf.Proper :=
    ⟨pairwise_singleton _ _, .nil, disjoint_nil_right _, cons_ne_nil _ _⟩
  obtain ⟨s, hrun, hq⟩ := exists_run (p := fun _ c => !c.isStep) (s := soleVoter)
    [.campaign, .proposeConfChange { node := 1, seq := 1 } additionOfTwo, .ready, .ackPersisted 1,
      .ready, .ackApplied 2]
    (fun s => s.raft.snapIndex = 0 && s.raft.conf = { voters := [1], learners := [2] })
    (by decide +kernel)
  have hproper : Relation.ReflTransGen (Step fun _ c => c.SnapProper) soleVoter s := by
    refine steps_mono (fun s c hc m conf hm => ?_) hrun
    subst hm
    exact absurd hc (by simp [Call.isStep])
  simp only [Bool.and_eq_true, decide_eq_true_eq] at hq
  obtain ⟨-, hp, hcompact⟩ := conf_function_of_log hstart hbase hproper
  exact ⟨s, hstart, hproper, hq.1, hq.2, hp, hcompact 2⟩

end Server

end Rift
