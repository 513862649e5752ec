import Rift.Driver.Replication
import Rift.Lib.Runs

/-!
# Atomic commitment across ranges

A transaction writes keys of several ranges and is decided by one record, at its primary key. Commands
are proposed, and applied later, any number of times and in any order, on whichever range covers their
key. The coordinator and the resolvers propose an effect on a key only when they know the decision,
and that suffices: no two keys of the transaction are ever settled differently.

## Main results

* `Txn.atomic` — a transaction is seen whole or not at all
-/

namespace Rift.Driver

open Kv Model

/-! ### What one command can do -/

variable {r : TxnRecord} {ts : Timestamp} {key : Key}

namespace TxnCommand

variable (c : TxnCommand)

/-- The command writes a commit record. -/
def commits : Prop := c.op = .commitKey ∨ c.op = .applyResolution ∧ c.status ≠ .rolledBack

/-- The command writes a rollback record. -/
def rollsBack : Prop := c.op = .rollbackKey ∨ c.op = .applyResolution ∧ c.status = .rolledBack

/-- The command writes a decision. -/
def decides (r : TxnRecord) : Prop :=
  c.op = .putTxnRecord ∧ r = { status := c.status, startTS := c.startTS, commitTS := c.commitTS } ∨
    c.op = .resolveStatus ∧ r = { status := .rolledBack, startTS := c.startTS }

theorem startTS_of_decides {c : TxnCommand} (h : c.decides r) : r.startTS = c.startTS := by
  rcases h with ⟨-, rfl⟩ | ⟨-, rfl⟩ <;> rfl

end TxnCommand

/-- What a transaction step can do to commit records and decisions. -/
inductive TxnOutcome (c : TxnCommand) (v v' : View) : Prop
  | keep (hwrite : v'.write = v.write) (htxn : v'.txn = v.txn)
  | commit (hop : c.commits) (hwrite : v'.write = (v.commit c.key c.startTS c.commitTS).write)
      (htxn : v'.txn = v.txn)
  | rollback (hop : c.rollsBack) (hwrite : v'.write = (v.rollback c.key c.startTS).write)
      (htxn : v'.txn = v.txn)
  | decide (r : TxnRecord) (hop : c.decides r) (hnone : v.txn c.key c.startTS = none)
      (hwrite : v'.write = v.write) (htxn : v'.txn = (v.decide c.key r).txn)

section TxnOutcome

variable {s : Store} {c : TxnCommand} {b : Batch}

theorem outcome_orKeep {r : Except KvError Batch}
    (h : ∀ b, r = .ok b → TxnOutcome c s.view (s.flush b).view) :
    TxnOutcome c s.view (s.flush (orKeep [] r)).view := by
  cases r with
  | ok b => exact h b rfl
  | error e => exact .keep rfl rfl

theorem view_noteReadInto_frame (h : s.noteReadInto [] key ts = .ok b) :
    (s.flush b).view.write = s.view.write ∧ (s.flush b).view.txn = s.view.txn := by
  obtain ⟨-, -, h⟩ := bind_eq_ok.mp h
  have hmark : ∀ (s : Store) (ts : Timestamp),
      (s.flush [.set (readMarkKey s.ns key ts) []]).view.write = s.view.write ∧
        (s.flush [.set (readMarkKey s.ns key ts) []]).view.txn = s.view.txn := by
    intro s ts
    rw [Store.view_flush_mark]
    exact ⟨rfl, rfl⟩
  split at h
  · next cur _ =>
    split at h <;> cases h
    · exact ⟨rfl, rfl⟩
    · rw [List.nil_append, ← List.singleton_append, Store.flush_append]
      obtain ⟨hwrite, htxn⟩ := hmark (s.flush [.delete (readMarkKey s.ns key cur)]) ts
      rw [Store.view_flush_delete_mark] at hwrite htxn
      exact ⟨hwrite, htxn⟩
  · cases h
    exact hmark s ts

theorem outcome_commitInto (hop : c.commits)
    (h : s.commitInto [] c.key c.startTS c.commitTS = .ok b) :
    TxnOutcome c s.view (s.flush b).view := by
  rw [Store.view_commitInto h]
  exact .commit hop rfl rfl

theorem outcome_rollbackInto (hop : c.rollsBack) (h : s.rollbackInto [] c.key c.startTS = .ok b) :
    TxnOutcome c s.view (s.flush b).view := by
  rw [Store.view_rollbackInto h]
  exact .rollback hop rfl rfl

theorem outcome_putTxnInto (hop : c.decides r) (hstart : r.startTS = c.startTS)
    (h : s.putTxnInto [] c.key r = .ok b) : TxnOutcome c s.view (s.flush b).view := by
  obtain ⟨⟨-, -, hnone⟩, -⟩ := Store.putTxnInto_eq_ok.mp h
  rw [Store.view_putTxnInto h]
  exact .decide r hop (hstart ▸ hnone) rfl rfl

theorem outcome_applyTxnTo (s : Store) (c : TxnCommand) :
    TxnOutcome c s.view (s.flush (applyTxnTo s [] c)).view := by
  unfold applyTxnTo
  split
  · refine outcome_orKeep fun b h => ?_
    rw [Store.view_prewriteInto h]
    exact .keep rfl rfl
  · next hop => exact outcome_orKeep fun b => outcome_commitInto (.inl hop)
  · next hop => exact outcome_orKeep fun b => outcome_rollbackInto (.inl hop)
  · next hop => exact outcome_orKeep fun b => outcome_putTxnInto (.inl ⟨hop, rfl⟩) rfl
  · exact outcome_orKeep fun b h =>
      .keep (view_noteReadInto_frame h).1 (view_noteReadInto_frame h).2
  · next hop =>
    dsimp only
    split
    · exact .keep rfl rfl
    · split
      · exact outcome_orKeep fun b => outcome_putTxnInto (.inr ⟨hop, rfl⟩) rfl
      · exact .keep rfl rfl
  · next hop =>
    split
    · exact .keep rfl rfl
    · next l hl =>
      split
      · exact .keep rfl rfl
      · next howner =>
        have hstart : l.startTS = c.startTS := not_not.mp howner
        refine outcome_orKeep fun b h => ?_
        by_cases hstatus : c.status = .rolledBack
        · rw [if_pos hstatus, Store.applyResolutionInto, hstart] at h
          exact outcome_rollbackInto (.inr ⟨hop, hstatus⟩) h
        · rw [if_neg hstatus, Store.applyResolutionInto, hstart] at h
          exact outcome_commitInto (.inr ⟨hop, hstatus⟩) h
  · exact .keep rfl rfl

end TxnOutcome

/-! ### The ranges of a cluster -/

/-- The stores of the ranges, and the transaction commands proposed so far. -/
structure Cluster (ι : Type*) where
  store : ι → Store
  proposed : List TxnCommand := []

/-- What happens: somebody proposes a command, a range applies one, or a range applies something that
is no transaction step. -/
inductive Event (ι : Type*)
  | propose (c : TxnCommand)
  | apply (i : ι) (c : TxnCommand)
  | put (i : ι) (key : Key) (ts : Timestamp) (value : Bytes)
  | collect (i : ι) (upTo : Timestamp)
  deriving DecidableEq

variable {ι : Type*}

/-- Run an event in a cluster whose ranges have these descriptors. -/
def Cluster.step [DecidableEq ι] (desc : ι → RangeDescriptor) (w : Cluster ι) :
    Event ι → Cluster ι
  | .propose c => { w with proposed := c :: w.proposed }
  | .apply i c =>
    if (desc i).contains c.key then
      let s := w.store i
      { w with store := Function.update w.store i (s.flush (applyTxn s [] c).1) }
    else w
  | .put i key ts x =>
    if (desc i).contains key then
      { w with store := Function.update w.store i ((w.store i).step (.put key ts x)) }
    else w
  | .collect i upTo => { w with store := Function.update w.store i ((w.store i).step (.gc upTo)) }

/-- A transaction: its start, its primary key with the range that covers it, and whether its
coordinator ever proposes to commit. -/
structure Txn (desc : ι → RangeDescriptor) where
  startTS : Timestamp
  primary : Key
  home : ι
  covers : (desc home).contains primary
  commits : Bool

namespace Txn

variable {desc : ι → RangeDescriptor} (T : Txn desc) (w : Cluster ι) {e : Event ι}

/-- The decision. -/
def record : Option TxnRecord := (w.store T.home).txn T.primary T.startTS

def committedAt (commitTS : Timestamp) : Bool :=
  (T.record w).any fun r => r.status = .committed && r.commitTS = commitTS

/-- The transaction is rolled back, or never will be committed. -/
def mayRollBack : Bool := (T.record w).any (·.status = .rolledBack) || !T.commits

/-- When a command of the transaction may be proposed. A resolver may ask for the decision at any time
and with any deadline. The coordinator proposes its decision when it likes: that it waits for its
prewrites is not needed here. -/
def mayPropose (c : TxnCommand) : Prop :=
  match c.op with
  | .prewrite => c.primary = T.primary
  | .putTxnRecord => c.key = T.primary ∧ (c.status = .committed → T.commits)
  | .resolveStatus => c.key = T.primary
  | .commitKey => T.committedAt w c.commitTS
  | .rollbackKey => T.mayRollBack w
  | .applyResolution =>
    if c.status = .rolledBack then T.mayRollBack w else T.committedAt w c.commitTS
  | .txnGet | .other _ _ => True

/-- The protocol. Nobody else uses the transaction's start timestamp, so only commands with it are
bound: they are applied only once proposed, and then as often as the network likes. -/
def allows : Event ι → Prop
  | .propose c => c.startTS = T.startTS → T.mayPropose w c
  | .apply _ c => c.startTS = T.startTS → c ∈ w.proposed
  | .put .. | .collect .. => True

instance (c : TxnCommand) : Decidable (T.mayPropose w c) := by
  unfold mayPropose
  split <;> infer_instance

instance (e : Event ι) : Decidable (T.allows w e) := by
  unfold allows
  split <;> infer_instance

/-- Nothing of the transaction has happened yet. -/
structure Unstarted : Prop where
  record : T.record w = none
  write : ∀ i key ts b, (w.store i).view.write key ts ≠ some (T.startTS, b)
  proposed : ∀ c ∈ w.proposed, c.startTS ≠ T.startTS

/-- What the protocol keeps: commit records have a decision to commit behind them, rollback records
one to roll back, and so have the commands that are under way. -/
structure Coherent : Prop where
  commit : ∀ i key ts, (w.store i).view.write key ts = some (T.startTS, false) → T.committedAt w ts
  rollback : ∀ i key ts, (w.store i).view.write key ts = some (T.startTS, true) → T.mayRollBack w
  aborts : T.commits = false → ∀ r ∈ T.record w, r.status ≠ .committed
  proposed : ∀ c ∈ w.proposed, c.startTS = T.startTS → T.mayPropose w c

variable {T w}

theorem Unstarted.coherent (h : T.Unstarted w) : T.Coherent w where
  commit i key ts hw := absurd hw (h.write i key ts false)
  rollback i key ts hw := absurd hw (h.write i key ts true)
  aborts _ r hr := by simp [h.record] at hr
  proposed c hc hstart := absurd hstart (h.proposed c hc)

/-! ### One step -/

variable [DecidableEq ι]

/-- A step changes no commit record and no decision, or it applies a command and changes what the
command can change. -/
theorem step_cases (desc : ι → RangeDescriptor) (w : Cluster ι) (e : Event ι) :
    (∀ i, ((w.step desc e).store i).view.write = (w.store i).view.write ∧
      ((w.step desc e).store i).view.txn = (w.store i).view.txn) ∨
    ∃ i c, e = .apply i c ∧ TxnOutcome c (w.store i).view ((w.step desc e).store i).view ∧
      ∀ j ≠ i, (w.step desc e).store j = w.store j := by
  -- Replacing one range's store by one with the same commit records and decisions.
  have hupdate : ∀ (i : ι) (s : Store), s.view.write = (w.store i).view.write →
      s.view.txn = (w.store i).view.txn → ∀ j,
        (Function.update w.store i s j).view.write = (w.store j).view.write ∧
        (Function.update w.store i s j).view.txn = (w.store j).view.txn := by
    intro i s hwrite htxn j
    by_cases hj : j = i
    · subst hj
      rw [Function.update_self]
      exact ⟨hwrite, htxn⟩
    · rw [Function.update_of_ne hj]
      exact ⟨rfl, rfl⟩
  cases e with
  | propose c => exact .inl fun _ => ⟨rfl, rfl⟩
  | apply i c =>
    simp only [Cluster.step]
    split
    · refine .inr ⟨i, c, rfl, ?_, fun j hj => Function.update_of_ne hj _ _⟩
      dsimp only
      rw [Function.update_self, flush_applyTxn]
      exact outcome_applyTxnTo _ c
    · exact .inl fun _ => ⟨rfl, rfl⟩
  | put i key ts x =>
    simp only [Cluster.step]
    split
    · have hput : ((w.store i).step (.put key ts x)).view.write = (w.store i).view.write ∧
          ((w.store i).step (.put key ts x)).view.txn = (w.store i).view.txn := by
        refine Store.perform_cases (P := fun s => s.view.write = _ ∧ s.view.txn = _) ⟨rfl, rfl⟩ ?_
        intro b h
        rw [Store.view_putInto h]
        exact ⟨rfl, rfl⟩
      exact .inl (hupdate i _ hput.1 hput.2)
    · exact .inl fun _ => ⟨rfl, rfl⟩
  | collect i upTo =>
    refine .inl (hupdate i _ ?_ ?_) <;>
    · rw [Store.view_gc]

/-- The decision after a step: as it was, or newly written by a command for it. -/
theorem record_step_cases (T : Txn desc) (w : Cluster ι) (e : Event ι) :
    T.record (w.step desc e) = T.record w ∨
      T.record w = none ∧ ∃ c r, e = .apply T.home c ∧ c.startTS = T.startTS ∧ c.decides r ∧
        T.record (w.step desc e) = some r := by
  rcases step_cases desc w e with h | ⟨i, c, rfl, hout, hother⟩
  · exact .inl (congrFun (congrFun (h T.home).2 T.primary) T.startTS)
  by_cases hi : T.home = i
  · subst hi
    rcases hout with ⟨-, htxn⟩ | ⟨-, -, htxn⟩ | ⟨-, -, htxn⟩ | ⟨r, hop, hnone, -, htxn⟩
    · exact .inl (congrFun (congrFun htxn T.primary) T.startTS)
    · exact .inl (congrFun (congrFun htxn T.primary) T.startTS)
    · exact .inl (congrFun (congrFun htxn T.primary) T.startTS)
    · have hrecord : T.record (w.step desc (.apply T.home c)) =
          if c.key = T.primary ∧ r.startTS = T.startTS then some r else T.record w :=
        congrFun (congrFun htxn T.primary) T.startTS
      rw [hrecord]
      split
      · next hkey =>
        have hstart : c.startTS = T.startTS := (TxnCommand.startTS_of_decides hop).symm.trans hkey.2
        rw [hkey.1, hstart] at hnone
        exact .inr ⟨hnone, c, r, rfl, hstart, hop, rfl⟩
      · exact .inl rfl
  · left
    rw [record, hother T.home hi]
    rfl

theorem record_step (h : T.record w = some r) (e : Event ι) :
    T.record (w.step desc e) = some r := by
  rcases record_step_cases T w e with heq | ⟨hnone, -⟩
  · rw [heq, h]
  · simp [h] at hnone

theorem committedAt_step (h : T.committedAt w ts) (e : Event ι) :
    T.committedAt (w.step desc e) ts := by
  rw [committedAt, Option.any_eq_true] at h ⊢
  obtain ⟨r, hr, hstatus⟩ := h
  exact ⟨r, record_step hr e, hstatus⟩

theorem mayRollBack_step (h : T.mayRollBack w) (e : Event ι) : T.mayRollBack (w.step desc e) := by
  rw [mayRollBack, Bool.or_eq_true, Option.any_eq_true] at h ⊢
  rcases h with ⟨r, hr, hstatus⟩ | h
  · exact .inl ⟨r, record_step hr e, hstatus⟩
  · exact .inr h

theorem mayPropose_step {c : TxnCommand} (h : T.mayPropose w c) (e : Event ι) :
    T.mayPropose (w.step desc e) c := by
  cases hop : c.op <;> simp only [mayPropose, hop] at h ⊢
  case prewrite | putTxnRecord | resolveStatus => exact h
  case commitKey => exact committedAt_step h e
  case rollbackKey => exact mayRollBack_step h e
  case applyResolution =>
    split at h
    · next hstatus => exact (if_pos hstatus).trans (mayRollBack_step h e)
    · next hstatus => exact (if_neg hstatus).trans (committedAt_step h e)

/-! ### What a proposed command knows -/

section Knows

omit [DecidableEq ι]

variable {c : TxnCommand} (h : T.mayPropose w c)
include h

theorem committedAt_of_commits (hc : c.commits) : T.committedAt w c.commitTS := by
  rcases hc with hop | ⟨hop, hstatus⟩
  · simpa [mayPropose, hop] using h
  · simpa [mayPropose, hop, hstatus] using h

theorem mayRollBack_of_rollsBack (hc : c.rollsBack) : T.mayRollBack w := by
  rcases hc with hop | ⟨hop, hstatus⟩
  · simpa [mayPropose, hop] using h
  · simpa [mayPropose, hop, hstatus] using h

theorem commits_of_decides (hc : c.decides r) (hr : r.status = .committed) : T.commits := by
  rcases hc with ⟨hop, rfl⟩ | ⟨hop, rfl⟩
  · simp only [mayPropose, hop] at h
    exact h.2 hr
  · simp at hr

end Knows

/-- A commit or rollback record of the transaction after a step was there before, or was written by a
command of the transaction. -/
theorem write_step_cases {i : ι} {b : Bool}
    (h : ((w.step desc e).store i).view.write key ts = some (T.startTS, b)) :
    (w.store i).view.write key ts = some (T.startTS, b) ∨
      ∃ c, e = .apply i c ∧ c.startTS = T.startTS ∧
        (b = false ∧ c.commits ∧ c.commitTS = ts ∨ b = true ∧ c.rollsBack) := by
  rcases step_cases desc w e with hsame | ⟨j, c, rfl, hout, hother⟩
  · exact .inl ((congrFun (congrFun (hsame i).1 key) ts) ▸ h)
  by_cases hj : i = j
  · subst hj
    rcases hout with ⟨hwrite, -⟩ | ⟨hop, hwrite, -⟩ | ⟨hop, hwrite, -⟩ | ⟨r, -, -, hwrite, -⟩
    · exact .inl (hwrite ▸ h)
    · rw [hwrite] at h
      simp only [View.commit] at h
      split at h
      · next hk =>
        simp only [Option.some.injEq, Prod.mk.injEq] at h
        exact .inr ⟨c, rfl, h.1, .inl ⟨h.2.symm, hop, hk.2⟩⟩
      · exact .inl h
    · rw [hwrite] at h
      simp only [View.rollback] at h
      split at h
      · simp only [Option.some.injEq, Prod.mk.injEq] at h
        exact .inr ⟨c, rfl, h.1, .inr ⟨h.2.symm, hop⟩⟩
      · exact .inl h
    · exact .inl (hwrite ▸ h)
  · rw [hother i hj] at h
    exact .inl h

theorem Coherent.step (h : T.Coherent w) (hok : T.allows w e) : T.Coherent (w.step desc e) where
  commit i key ts hw := by
    apply committedAt_step
    rcases write_step_cases hw with hw | ⟨c, rfl, hstart, ⟨-, hc, rfl⟩ | ⟨hb, -⟩⟩
    · exact h.commit i key ts hw
    · exact committedAt_of_commits (h.proposed c (hok hstart) hstart) hc
    · simp at hb
  rollback i key ts hw := by
    apply mayRollBack_step
    rcases write_step_cases hw with hw | ⟨c, rfl, hstart, ⟨hb, -⟩ | ⟨-, hc⟩⟩
    · exact h.rollback i key ts hw
    · simp at hb
    · exact mayRollBack_of_rollsBack (h.proposed c (hok hstart) hstart) hc
  aborts hcommits r hr := by
    rcases record_step_cases T w e with heq | ⟨-, c, r', rfl, hstart, hdecides, heq⟩
    · exact h.aborts hcommits r (heq ▸ hr)
    · obtain rfl : r' = r := by simpa [heq] using hr
      intro hstatus
      have := commits_of_decides (h.proposed c (hok hstart) hstart) hdecides hstatus
      simp [hcommits] at this
  proposed c hc hstart := by
    apply mayPropose_step
    cases e with
    | propose c' =>
      rcases List.mem_cons.mp hc with rfl | hc
      · exact hok hstart
      · exact h.proposed c hc hstart
    | apply i c' =>
      simp only [Cluster.step] at hc
      split at hc <;> exact h.proposed c hc hstart
    | put i key ts x =>
      simp only [Cluster.step] at hc
      split at hc <;> exact h.proposed c hc hstart
    | collect i upTo => exact h.proposed c hc hstart

/-! ### Whole runs -/

theorem record_run (h : T.record w = some r) (es : List (Event ι)) :
    T.record (es.foldl (Cluster.step desc) w) = some r := by
  induction es generalizing w with
  | nil => exact h
  | cons e es ih => exact ih (record_step h e)

/-- **A transaction is committed or rolled back as a whole.** In every run that keeps the protocol of a
transaction, its decision never changes once written, no key of it has a commit record while another
has a rollback record, and all its commit records carry the commit timestamp of its decision. -/
theorem atomic {T : Txn desc} {w : Cluster ι} (hstart : T.Unstarted w) {es : List (Event ι)}
    (h : Follows (Cluster.step desc) T.allows w es) :
    (∀ before after, es = before ++ after → ∀ r,
      T.record (before.foldl (Cluster.step desc) w) = some r →
        T.record (es.foldl (Cluster.step desc) w) = some r) ∧
    (∀ i key ts, ((es.foldl (Cluster.step desc) w).store i).view.write key ts =
        some (T.startTS, false) →
      (∃ r, T.record (es.foldl (Cluster.step desc) w) = some r ∧ r.status = .committed ∧
        r.commitTS = ts) ∧
      ∀ j key' ts', ((es.foldl (Cluster.step desc) w).store j).view.write key' ts' ≠
        some (T.startTS, true)) := by
  have hcoherent : T.Coherent (es.foldl (Cluster.step desc) w) :=
    h.invariant (fun _ _ hw hok => hw.step hok) hstart.coherent
  refine ⟨?_, fun i key ts hw => ?_⟩
  · rintro before after rfl r hr
    rw [List.foldl_append]
    exact record_run hr after
  · have hcommitted := hcoherent.commit i key ts hw
    rw [committedAt, Option.any_eq_true] at hcommitted
    obtain ⟨r, hr, hstatus⟩ := hcommitted
    simp only [Bool.and_eq_true, decide_eq_true_eq] at hstatus
    refine ⟨⟨r, hr, hstatus⟩, fun j key' ts' hw' => ?_⟩
    -- The decision is to commit, so it is not to roll back, and the coordinator does commit.
    have hroll := hcoherent.rollback j key' ts' hw'
    rw [mayRollBack, hr, Option.any_some, Bool.or_eq_true, decide_eq_true_eq] at hroll
    rcases hroll with hback | hnever
    · rw [hstatus.1] at hback
      simp at hback
    · exact hcoherent.aborts (by simpa using hnever) r hr hstatus.1

end Txn

/-! ### A transaction over two ranges -/

def lowKey : Key := ⟨[97], by decide⟩

def highKey : Key := ⟨[122], by decide⟩

/-- Two ranges that meet at a key. -/
def twoRanges : Bool → RangeDescriptor
  | false => { id := 1, fin := some ⟨[109], by decide⟩, epoch := 2 }
  | true => { id := 2, start := ⟨[109], by decide⟩, epoch := 1 }

def twoStores : Cluster Bool where
  store i := { ns := rangePrefix (twoRanges i).id }

def crossing : Txn twoRanges where
  startTS := { wall := 5 }
  primary := lowKey
  home := false
  covers := by decide
  commits := true

/-- Both keys are prewritten, the decision is made, and one effect arrives twice. -/
def crossingRun : List (Event Bool) :=
  let write key : TxnCommand :=
    { op := .prewrite, key := key, value := someKey, primary := lowKey, startTS := { wall := 5 } }
  let decision : TxnCommand :=
    { op := .putTxnRecord, key := lowKey, startTS := { wall := 5 }, commitTS := { wall := 10 },
      status := .committed }
  let commit key : TxnCommand :=
    { op := .commitKey, key := key, startTS := { wall := 5 }, commitTS := { wall := 10 } }
  [.propose (write lowKey), .propose (write highKey), .apply true (write highKey),
    .apply false (write lowKey), .propose decision, .apply false decision,
    .propose (commit highKey), .propose (commit lowKey), .apply true (commit highKey),
    .apply true (commit highKey), .apply false (commit lowKey)]

theorem crossing_unstarted : crossing.Unstarted twoStores where
  record := rfl
  write i key ts b h := by simp [twoStores, Store.view] at h
  proposed := by simp [twoStores]

/-- The run keeps the protocol, and what it writes on the other range agrees with the decision. -/
theorem atomic_crossing :
    ((crossingRun.foldl (Cluster.step twoRanges) twoStores).store true).view.write highKey
      { wall := 10 } = some ({ wall := 5 }, false) ∧
    (∃ r, crossing.record (crossingRun.foldl (Cluster.step twoRanges) twoStores) = some r ∧
      r.status = .committed ∧ r.commitTS = { wall := 10 }) ∧
    ∀ j key ts, ((crossingRun.foldl (Cluster.step twoRanges) twoStores).store j).view.write key ts ≠
      some ({ wall := 5 }, true) :=
  have h : Follows (Cluster.step twoRanges) crossing.allows twoStores crossingRun := by
    decide +kernel
  ⟨by decide +kernel,
    (Txn.atomic crossing_unstarted h).2 true highKey { wall := 10 } (by decide +kernel)⟩

end Rift.Driver
