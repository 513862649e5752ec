import Rift.Kv.Snapshot
import Rift.Kv.Uncertainty

/-!
# Which transaction owns which record

A key holds one lock at a time and the lock's address does not name its holder, so a commit and a
rollback read the lock before they drop it. What they leave alone is everything that is not the
transaction's own: the locks of other transactions, the versions at other timestamps, and every record
but the one they write. From this it follows that no version of a prewrite is ever orphaned.

A rollback leaves a tombstone among the commit records, at the start timestamp itself. A prewrite is
refused when the newest record lies *strictly* above its start, so the tombstone does not stop a
prewrite of the transaction it belongs to: only a later commit, a later read or a collection does.
-/

namespace Rift.Kv

open Model Store List

/-- The key and the start timestamp of a step that ends a transaction there, and the timestamp of the
record it writes. A resolution that waits writes none. -/
def Step.ends : Step → Option (Key × Timestamp × Timestamp)
  | .commit key startTS c => some (key, startTS, c)
  | .rollback key startTS => some (key, startTS, startTS)
  | .resolve key l .forward c => some (key, l.startTS, c)
  | .resolve key l _ _ => some (key, l.startTS, l.startTS)
  | _ => none

theorem Step.ends_of_commits {st : Step} {key : Key} {startTS c : Timestamp}
    (h : st.commits = some (key, startTS, c)) : st.ends = some (key, startTS, c) := by
  unfold Step.commits at h
  split at h <;> cases h <;> rfl

theorem Step.ends_of_rollsBack {st : Step} {key : Key} {startTS : Timestamp}
    (h : st.rollsBack = some (key, startTS)) : st.ends = some (key, startTS, startTS) := by
  unfold Step.rollsBack at h
  split at h <;> cases h <;> rfl

/-- Two views that agree on all locks but one of the transaction on its key, on all versions but the
transaction's own, and on all commit records but one. -/
structure View.SameBut (key : Key) (startTS record : Timestamp) (v v' : View) : Prop where
  lock : ∀ k, ¬ (k = key ∧ (v.lock k).any (·.startTS = startTS)) → v'.lock k = v.lock k
  version : ∀ k t, ¬ (k = key ∧ t = startTS) → v'.version k t = v.version k t
  write : ∀ k t, ¬ (k = key ∧ t = record) → v'.write k t = v.write k t

section Frame

variable {key : Key} {startTS record : Timestamp}

theorem View.SameBut.refl (v : View) : v.SameBut key startTS record v :=
  ⟨fun _ _ => rfl, fun _ _ _ => rfl, fun _ _ _ => rfl⟩

theorem View.sameBut_commit (v : View) :
    v.SameBut key startTS record (v.commit key startTS record) where
  lock _ hk := if_neg fun ⟨heq, howner⟩ => hk ⟨heq.symm, heq ▸ howner⟩
  version _ _ _ := rfl
  write _ _ hk := if_neg fun h => hk ⟨h.1.symm, h.2.symm⟩

theorem View.sameBut_rollback (v : View) :
    v.SameBut key startTS startTS (v.rollback key startTS) where
  lock _ hk := if_neg fun ⟨heq, howner⟩ => hk ⟨heq.symm, heq ▸ howner⟩
  version _ _ hk := if_neg fun h => hk ⟨h.1.symm, h.2.symm⟩
  write _ _ hk := if_neg fun h => hk ⟨h.1.symm, h.2.symm⟩

/-- A step that ends a transaction on a key leaves the records of all others alone. -/
theorem Store.sameBut_step (s : Store) {st : Step} (h : st.ends = some (key, startTS, record)) :
    s.view.SameBut key startTS record (s.step st).view := by
  have hcommit : ∀ r, (∀ b, r = .ok b → (s.flush b).view = s.view.commit key startTS record) →
      s.view.SameBut key startTS record (s.perform r).view := fun r hr =>
    perform_cases (P := fun s' => s.view.SameBut key startTS record s'.view) (.refl _)
      fun b hb => hr b hb ▸ s.view.sameBut_commit
  have hrollback : ∀ r, (∀ b, r = .ok b → (s.flush b).view = s.view.rollback key startTS) →
      s.view.SameBut key startTS startTS (s.perform r).view := fun r hr =>
    perform_cases (P := fun s' => s.view.SameBut key startTS startTS s'.view) (.refl _)
      fun b hb => hr b hb ▸ s.view.sameBut_rollback
  cases st with
  | commit k t c =>
    cases h
    exact hcommit _ fun _ => view_commitInto
  | rollback k t =>
    cases h
    exact hrollback _ fun _ => view_rollbackInto
  | resolve k l r c =>
    cases r with
    | forward =>
      cases h
      exact hcommit _ fun _ => view_commitInto
    | back =>
      cases h
      exact hrollback _ fun _ => view_rollbackInto
    | wait =>
      cases h
      exact .refl _
  | _ => cases h

end Frame

/-! ### No version is orphaned -/

/-- The step is no collection. -/
def Step.keepsVersions : Step → Bool
  | .gc _ => false
  | _ => true

variable {m : Mint} {g : Ledger} {st : Step} {key : Key} {startTS : Timestamp} {s : Store}

/-- A transaction's version is named by the key's lock or by one of its real commit records. -/
def View.Names (v : View) (key : Key) (startTS : Timestamp) : Prop :=
  (∃ l, v.lock key = some l ∧ l.startTS = startTS) ∨ ∃ c, v.write key c = some (startTS, false)

/-- What a run without collections keeps. -/
structure Named (m : Mint) (g : Ledger) : Prop extends Settled m g where
  named : ∀ {key startTS}, m.starts startTS → (g.store.view.version key startTS).isSome →
    g.store.view.Names key startTS

theorem Named.step (hg : Named m g) (hok : m.allows g st) (hkeeps : st.keepsVersions) :
    Named m (g.step st) := by
  refine { hg.toSettled.step hok with named := ?_ }
  intro key startTS hstart hsome
  -- no real commit record is lost, so only versions and locks have to be looked at
  have hwrite : ∀ {c}, g.store.view.write key c = some (startTS, false) →
      (g.step st).store.view.Names key startTS := fun hw => .inr ⟨_, hg.toSettled.keep hok hw⟩
  have hchange : Change g.store st (g.step st).store.view := change_step hg.wf hg.oneMark st
  generalize (g.step st).store.view = v at hchange hsome hwrite ⊢
  cases hchange with
  | none => exact hg.named hstart hsome
  | prewrite key' l x b hb =>
    simp only [View.prewrite] at hsome
    split at hsome
    · next hk => exact .inl ⟨l, by simp [View.prewrite, hk.1], hk.2⟩
    · rcases hg.named hstart hsome with ⟨l', hl', rfl⟩ | ⟨c, hw⟩
      · -- the key was not locked before, so this lock is another key's
        have hk : key' ≠ key := by
          rintro rfl
          obtain ⟨⟨-, -, hfree, -⟩, -⟩ := prewriteInto_eq_ok.mp hb
          cases hfree.symm.trans hl'
        exact .inl ⟨l', by simpa [View.prewrite, hk] using hl', rfl⟩
      · exact hwrite hw
  | commit _ key' startTS' c hc =>
    rcases hg.named hstart hsome with ⟨l, hl, rfl⟩ | ⟨c', hw⟩
    · by_cases hk : key = key' ∧ l.startTS = startTS'
      · obtain ⟨rfl, rfl⟩ := hk
        exact .inr ⟨c, by simp [View.commit]⟩
      · refine .inl ⟨l, ?_, rfl⟩
        rw [(View.sameBut_commit _).lock _ (by rw [hl]; simpa using hk), hl]
    · exact hwrite hw
  | rollback _ key' startTS' hr =>
    by_cases hk : key = key' ∧ startTS = startTS'
    · simp [View.rollback, hk] at hsome
    · rw [(View.sameBut_rollback _).version _ _ hk] at hsome
      rcases hg.named hstart hsome with ⟨l, hl, rfl⟩ | ⟨c', hw⟩
      · refine .inl ⟨l, ?_, rfl⟩
        rw [(View.sameBut_rollback _).lock _ (by rw [hl]; simpa using hk), hl]
      · exact hwrite hw
  | put key' ts x =>
    simp only [View.put] at hsome
    split at hsome
    · next hk => exact absurd hstart (hk.2 ▸ hok)
    · exact hg.named hstart hsome
  | gc => cases hkeeps
  | read => exact hg.named hstart hsome

theorem Store.Fresh.named (hs : s.Fresh) : Named m { store := s } :=
  { hs.settled with named := by simp [hs.view] }

/-- Transactions do not touch each other's records. A step that ends a transaction on a key changes no
other transaction's lock, no other version and no other commit record. And along every run without
collections, of transactions whose timestamps are distinct and which commit on a key only after a
prewrite there and not after a rollback, every version a prewrite has written is named by the key's
lock or by one of its commit records. -/
theorem records_apart :
    (∀ (s : Store) (st : Step) (key : Key) (startTS record : Timestamp),
      st.ends = some (key, startTS, record) →
      s.view.SameBut key startTS record (s.step st).view) ∧
    ∀ (m : Mint) (s : Store) (steps : List Step), s.Fresh →
      Follows Ledger.step (fun g st => m.allows g st ∧ st.keepsVersions) { store := s } steps →
      ∀ key startTS,
        (key, startTS) ∈ (steps.foldl Ledger.step { store := s }).prewritten →
        ((steps.foldl Ledger.step { store := s }).store.versionAt key startTS).isSome →
        (steps.foldl Ledger.step { store := s }).store.view.Names key startTS := by
  refine ⟨fun s st key startTS record h => s.sameBut_step h, ?_⟩
  intro m s steps hfresh h key startTS hmem hsome
  have hg : Named m (steps.foldl Ledger.step { store := s }) :=
    h.invariant (fun _ _ hg hok => hg.step hok.1 hok.2) hfresh.named
  exact hg.named (hg.started hmem) hsome

/-- A transaction whose prewrite was refused rolls back: the lock and the version of the transaction
that holds the key stay, and its version is named after it has committed. -/
theorem records_apart_rival :
    let held := [Step.prewrite someKey { primary := someKey, startTS := { wall := 5 } } [1],
      .prewrite someKey { primary := someKey, startTS := { wall := 30 } } [2]]
    let steps := held ++ [Step.rollback someKey { wall := 30 },
      .commit someKey { wall := 5 } { wall := 10 }]
    (held.foldl Store.step { ns := [] }).view.SameBut someKey { wall := 30 } { wall := 30 }
        ((held.foldl Store.step { ns := [] }).step (.rollback someKey { wall := 30 })).view ∧
      (steps.foldl Ledger.step { store := { ns := [] } }).store.view.Names someKey { wall := 5 } :=
  ⟨records_apart.1 _ _ _ _ _ rfl,
    records_apart.2 committedMint _ _ (fresh_empty []) (by decide +kernel) _ _
      (by decide +kernel) (by decide +kernel)⟩

/-! ### Rolled-back transactions -/

namespace Store

variable {s : Store}

/-- Something on the key lies above a timestamp: the collection mark covers it, or the key has been
read, committed or rolled back above it. -/
def Fenced (s : Store) (key : Key) (ts : Timestamp) : Prop :=
  ts ≤ s.gcMark ∨ (∃ t, s.view.marked key t ∧ ts < t) ∨
    ∃ c, (s.view.write key c).isSome ∧ ts < c

theorem Change.write_isSome {v : View} (h : Change s st v) {c : Timestamp}
    (hw : (s.view.write key c).isSome) : (v.write key c).isSome := by
  cases h with
  | commit =>
    simp only [View.commit]
    split
    · rfl
    · exact hw
  | rollback =>
    simp only [View.rollback]
    split
    · rfl
    · exact hw
  | _ => exact hw

theorem Fenced.step (h : s.Fenced key startTS) (hwf : s.Wf) (hone : s.OneMark) (st : Step) :
    (s.step st).Fenced key startTS := by
  have hchange := change_step hwf hone st
  rcases h with hmark | ⟨t, ht, hlt⟩ | ⟨c, hc, hlt⟩
  · exact .inl (hmark.trans (gcMark_le_step s st))
  · obtain ⟨t', hle, ht'⟩ := hchange.marked ht
    exact .inr (.inl ⟨t', ht', hlt.trans_le hle⟩)
  · exact .inr (.inr ⟨c, hchange.write_isSome hc, hlt⟩)

theorem Fenced.refused (h : s.Fenced key startTS) (hwf : s.Wf) (hone : s.OneMark)
    (hneg : ∀ {c w}, s.view.write key c = some w → c.Nonneg) {l : Lock} (hl : l.startTS = startTS)
    (x : Bytes) (b : Batch) : s.prewriteInto [] key l x ≠ .ok b := by
  intro hok
  obtain ⟨⟨-, hmark, -, hnewest, hread⟩, -⟩ := prewriteInto_eq_ok.mp hok
  subst hl
  rcases h with hle | ⟨t, ht, hlt⟩ | ⟨c, hc, hlt⟩
  · exact hle.not_gt hmark
  · exact (hread t ((hwf.readMark_eq_some hone).mpr ht)).not_gt hlt
  · obtain ⟨w, hw⟩ := Option.isSome_iff_exists.mp hc
    obtain ⟨c', w', hc', hw', hrank⟩ := hwf.newestCommit_of_write hw
    -- on walls that are not negative the first record is the newest one
    have hle : c ≤ c' := by
      rw [← not_lt, ← Timestamp.rank_lt_rank (hneg hw') (hneg hw)]
      exact hrank.not_gt
    exact ((hle.trans (hnewest _ hc')).trans_lt hlt).false

end Store

/-- A step that ends a transaction writes its record at a wall that is not negative. -/
def Step.recordNonneg (st : Step) : Prop := ∀ e ∈ st.ends, e.2.2.Nonneg

/-- What every run of such steps keeps. -/
structure Store.Dated (s : Store) : Prop where
  wf : s.Wf
  oneMark : s.OneMark
  nonneg : ∀ {key c w}, s.view.write key c = some w → c.Nonneg

theorem Store.Dated.step (hs : s.Dated) (hneg : st.recordNonneg) : (s.step st).Dated := by
  refine ⟨hs.wf.step st, hs.oneMark.step hs.wf st, ?_⟩
  intro key c w hw
  cases hends : st.ends with
  | some e =>
    obtain ⟨k, t, record⟩ := e
    by_cases hk : key = k ∧ c = record
    · exact hk.2 ▸ hneg (k, t, record) hends
    · rw [(s.sameBut_step hends).write _ _ hk] at hw
      exact hs.nonneg hw
  | none =>
    -- the other steps write no commit record
    have hchange := change_step hs.wf hs.oneMark st
    generalize (s.step st).view = v at hchange hw
    cases hchange with
    | commit _ k t r h => cases hends.symm.trans (Step.ends_of_commits h)
    | rollback _ k t h => cases hends.symm.trans (Step.ends_of_rollsBack h)
    | _ => exact hs.nonneg hw

theorem Store.Fresh.dated (hs : s.Fresh) : s.Dated :=
  ⟨hs.wf, hs.oneMark, by simp [hs.view]⟩

theorem Store.Dated.run (hs : s.Dated) {steps : List Step} (hneg : ∀ st ∈ steps, st.recordNonneg) :
    (steps.foldl Store.step s).Dated :=
  foldlRecOn steps Store.step hs fun _ h st hst => h.step (hneg st hst)

/-- A transaction that was rolled back on a key never prewrites the key again, once something on the
key lies above its start: in every run, whatever steps come before the rollback, between it and the
fence, and after the fence. -/
theorem rolled_back_stays_dead (hfresh : s.Fresh) (key : Key) (startTS : Timestamp)
    (before after later : List Step)
    (hneg : ∀ st ∈ before ++ Step.rollback key startTS :: (after ++ later), st.recordNonneg)
    (hfence : ((before ++ Step.rollback key startTS :: after).foldl Store.step s).Fenced key startTS)
    (l : Lock) (hl : l.startTS = startTS) (x : Bytes) (b : Batch) :
    ((before ++ Step.rollback key startTS :: (after ++ later)).foldl Store.step s).prewriteInto []
      key l x ≠ .ok b := by
  have hsplit : before ++ Step.rollback key startTS :: (after ++ later) =
      (before ++ Step.rollback key startTS :: after) ++ later := by simp
  rw [hsplit] at hneg ⊢
  have hdated := hfresh.dated.run fun st hst => hneg st (mem_append_left _ hst)
  rw [foldl_append]
  -- the fence stands after every later step
  have hlater : (later.foldl Store.step ((before ++ Step.rollback key startTS :: after).foldl
      Store.step s)).Dated ∧ (later.foldl Store.step ((before ++ Step.rollback key startTS ::
        after).foldl Store.step s)).Fenced key startTS := by
    refine foldlRecOn later Store.step (motive := fun s => s.Dated ∧ s.Fenced key startTS)
      ⟨hdated, hfence⟩ fun s' h st hst => ?_
    exact ⟨h.1.step (hneg st (mem_append_right _ hst)), h.2.step h.1.wf h.1.oneMark st⟩
  exact hlater.2.refused hlater.1.wf hlater.1.oneMark hlater.1.nonneg hl x b

theorem exists_error {ε α : Type} {x : Except ε α} (h : ∀ a, x ≠ .ok a) : ∃ e, x = .error e := by
  cases x with
  | error e => exact ⟨e, rfl⟩
  | ok a => exact absurd rfl (h a)

/-- A read above the start of a transaction that was rolled back fences it. -/
theorem rolled_back_stays_dead_read :
    ∃ e, ([Step.rollback someKey { wall := 5 }, .read someKey { wall := 8 },
      .gc { wall := 2 }].foldl Store.step { ns := [] }).prewriteInto [] someKey
      { primary := someKey, startTS := { wall := 5 } } [1] = .error e := by
  refine exists_error fun b => rolled_back_stays_dead (fresh_empty []) someKey { wall := 5 } []
    [.read someKey { wall := 8 }] [.gc { wall := 2 }] ?_ ?_ _ rfl [1] b
  · intro st hst e he
    simp only [nil_append, cons_append, mem_cons, not_mem_nil, or_false] at hst
    rcases hst with rfl | rfl | rfl
    · cases he
      decide
    · cases he
    · cases he
  · exact .inr (.inl ⟨{ wall := 8 }, by decide +kernel, by decide⟩)

/-- A transaction prewrites a key, is rolled back there, and prewrites it again: the lock and the
version are back. -/
theorem rolled_back_revived :
    let l : Lock := { primary := someKey, startTS := { wall := 5 } }
    let s := [Step.prewrite someKey l [1], .rollback someKey { wall := 5 }].foldl Store.step
      { ns := [] }
    s.view.write someKey { wall := 5 } = some ({ wall := 5 }, true) ∧ s.lock someKey = none ∧
      s.versionAt someKey { wall := 5 } = none ∧
      (s.step (.prewrite someKey l [1])).lock someKey = some l ∧
      (s.step (.prewrite someKey l [1])).versionAt someKey { wall := 5 } = some [1] := by
  decide +kernel

end Rift.Kv
