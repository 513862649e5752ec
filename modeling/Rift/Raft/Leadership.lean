import Rift.Raft.ActiveConf
import Rift.Raft.PreVote

/-!
# A leader's log only grows

As long as a node leads in a term it appends to its log and compacts it; it changes no entry and cuts
none off. A node that steps down may take over another log, but it does not lead in that term again:
whoever becomes a leader was a candidate, and a candidacy takes a new term.
-/

namespace Rift

open Raft List

namespace Raft

variable {r₀ r r' : Raft}

/-- `r'` has the log of `r` and what was appended to it, but for the entries compacted since. -/
def Grows (r r' : Raft) : Prop := ∃ k, r'.snapIndex = r.snapIndex + k ∧ r.log.drop k <+: r'.log

theorem Grows.trans {r₁ : Raft} (h : r.Grows r₁) (h' : r₁.Grows r') : r.Grows r' := by
  obtain ⟨k, hk, hlog⟩ := h
  obtain ⟨k', hk', hlog'⟩ := h'
  refine ⟨k + k', by rw [hk', hk, Nat.add_assoc], ?_⟩
  rw [← drop_drop]
  exact (hlog.drop k').trans hlog'

/-- The role, the term and the log. -/
def office (r : Raft) : Role × ℕ × List Entry × ℕ := (r.role, r.term, r.log, r.snapIndex)

/-- The term of `r₀` is over, or the node has stepped down in it, or it leads and its log has grown. -/
def Outgrown (r₀ r : Raft) : Prop :=
  r₀.term < r.term ∨ r.term = r₀.term ∧ (r.role = .follower ∨ r.role = .leader ∧ r₀.Grows r)

/-- A log that grows, in the same role and term. -/
theorem Outgrown.grow (h : r₀.Outgrown r) (hrole : r'.role = r.role) (hterm : r'.term = r.term)
    (hg : r.Grows r') : r₀.Outgrown r' := by
  unfold Outgrown
  rw [hterm, hrole]
  exact h.imp_right (And.imp_right (Or.imp_right (And.imp_right fun h₀ => h₀.trans hg)))

theorem Outgrown.of_eq (h : r₀.Outgrown r) (heq : r'.office = r.office) : r₀.Outgrown r' := by
  simp only [office, Prod.mk.injEq] at heq
  obtain ⟨hrole, hterm, hlog, hsnap⟩ := heq
  exact h.grow hrole hterm ⟨0, hsnap, by rw [hlog]; exact prefix_refl _⟩

/-- A follower is not tied to its log. -/
theorem Outgrown.follow (h : r₀.Outgrown r) (hrole : r'.role = .follower) (hterm : r'.term = r.term) :
    r₀.Outgrown r' := by
  unfold Outgrown
  rw [hterm]
  exact h.imp_right (And.imp_right fun _ => .inl hrole)

theorem sendGatedOn_office (r : Raft) (mark snapMark : ℕ) (m : Message) :
    (r.sendGatedOn mark snapMark m).office = r.office :=
  sendGatedOn_proj r mark snapMark m office (by intros; rfl)

end Raft

variable {c : Call} {o r₀ r r' : Raft}

theorem Micro.outgrown (h : Micro c o r r') (hr : r₀.Outgrown r) : r₀.Outgrown r' := by
  have hle : r₀.term ≤ r.term := hr.elim le_of_lt fun h => h.1.ge
  have hstay : r.role = .follower → r'.standing = r.standing → r₀.Outgrown r' := fun hf heq =>
    hr.follow ((congrArg Prod.fst heq).trans hf) (congrArg (·.2.1) heq)
  cases h with
  | soft h => exact hr.of_eq (h.proj office fun _ => rfl)
  | demote => exact hr.follow rfl rfl
  | bump m _ hlt _ =>
    obtain ⟨_, _, _, _, heq⟩ := r.setTermAndVote_eq m.term 0
    exact .inl (by rw [bumped, heq]; exact hle.trans_lt hlt)
  | campaign _ _ _ =>
    obtain ⟨_, _, _, _, heq⟩ := r.takeCandidacy.setTermAndVote_eq (r.term + 1) r.id
    exact .inl (by rw [campaigned, heq]; exact Nat.lt_succ_of_le hle)
  | grant m _ _ _ _ _ =>
    obtain ⟨_, _, _, _, heq⟩ := r.setTermAndVote_eq r.term m.fromID
    exact hr.of_eq ((sendGatedOn_office _ _ _ _).trans (by rw [setVote_eq, heq]; rfl))
  | reveal msg _ => exact hr.of_eq (sendGatedOn_office _ _ _ _)
  | lead hcand _ _ =>
    -- A candidate of the term is no former leader of it.
    rcases hr with hlt | ⟨-, hf | ⟨hl, -⟩⟩
    · exact .inl hlt
    · simp [hcand] at hf
    · simp [hcand] at hl
  | append e _ _ _ _ _ =>
    obtain ⟨_, _, _, _, _, -, heq⟩ := r.extend_eq e
    exact hr.grow (by rw [heq]) (by rw [heq])
      ⟨0, (r.extend_log e).2, (r.extend_log e).1 ▸ prefix_append _ _⟩
  -- Only a follower takes over the log or the snapshot of another node.
  | accept r₁ _ m _ _ _ _ hf _ hs ha =>
    exact hstay hf ((acknowledge_standing ha).trans
      ((commitUpTo_proj _ _ _ standing fun _ _ => rfl).trans
        (storeEntries_proj standing hs (by intros; rfl))))
  | covered _ m _ _ _ _ hf _ _ ha => exact hstay hf (acknowledge_standing ha)
  | install r₁ m conf _ _ _ _ hf _ _ _ _ hr' =>
    subst hr'
    obtain ⟨_, _, _, _, -, heq⟩ := r.installSnapshot_eq m conf
    exact hstay hf (by rw [sendGatedOn_standing, heq]; rfl)
  | ackApplied i _ =>
    unfold Raft.ackApplied
    split_ifs <;> exact hr.of_eq rfl
  | _ => exact hr.of_eq rfl

theorem Executed.outgrown {rep : Reply} (h : Executed r c r' rep) (hr : r₀.Outgrown r) :
    r₀.Outgrown r' :=
  h.keeps (fun hd => hr.of_eq (hd.proj office fun _ => rfl)) Micro.outgrown
    (fun hi _ _ => hr.grow rfl rfl ⟨_, (Nat.add_sub_of_le hi.le).symm, prefix_refl _⟩) hr

namespace Server

/-- **Leader append-only.** In any run of one incarnation of a node, with any messages and any calls
that do not panic and bring no counter to the end of its 64 bits, from a state in which the node leads
to a later one in which it leads in the same term: its log has only grown, and but for what was
compacted every entry is where it was. -/
theorem leader_append_only {s s' : Server}
    (h : Relation.ReflTransGen (Step fun s c => s.inRange c) s s') (hl : s.raft.role = .leader)
    (hl' : s'.raft.role = .leader) (ht : s'.raft.term = s.raft.term) : s.raft.Grows s'.raft := by
  have hrun : s.raft.Outgrown s'.raft := by
    clear hl' ht
    induction h with
    | refl => exact .inr ⟨rfl, .inr ⟨hl, 0, rfl, prefix_refl _⟩⟩
    | tail _ hstep ih =>
      obtain ⟨_, _, -, hx⟩ := hstep
      obtain ⟨r, hexec, rfl⟩ := exec_raft hx
      rw [record_raft]
      exact (exec_executed hexec).outgrown ih
  rcases hrun with hlt | ⟨-, hf | ⟨-, hg⟩⟩
  · exact absurd ht hlt.ne'
  · simp [hl'] at hf
  · exact hg

/-- A leader appends a proposal, has it applied and compacts its log. -/
theorem leader_append_only_compacted : ∃ s s' : Server, s.raft.role = .leader ∧
    s.raft.lastIndex = 1 ∧ s'.raft.snapIndex = 1 ∧ s'.raft.lastIndex = 2 ∧ s.raft.Grows s'.raft := by
  obtain ⟨s, hs, hq⟩ := exists_run (p := inRange) (s := soleVoter) [.campaign]
    (fun s => s.raft.role = .leader && s.raft.lastIndex = 1 && (s.run inRange
      [.propose { node := 1, seq := 1 } [7], .ready, .ackPersisted 1, .ready, .ackApplied 2,
        .compact 1]).any fun s' => s'.raft.role = .leader && s'.raft.term = s.raft.term &&
          s'.raft.snapIndex = 1 && s'.raft.lastIndex = 2) (by decide +kernel)
  simp only [Bool.and_eq_true, decide_eq_true_eq] at hq
  obtain ⟨⟨hl, hlast⟩, hq⟩ := hq
  obtain ⟨s', hs', hq⟩ := exists_run _ _ hq
  simp only [Bool.and_eq_true, decide_eq_true_eq] at hq
  obtain ⟨⟨⟨hl', ht⟩, hsnap⟩, hlast'⟩ := hq
  exact ⟨s, s', hl, hlast, hsnap, hlast', leader_append_only hs' hl hl' ht⟩

end Server

end Rift
