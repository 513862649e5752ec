import Rift.Kv.Steps

/-!
# Snapshot reads are stable

Once a read of a key at a timestamp has answered, no later read of the key at that timestamp answers
differently. The read leaves its mark, so a transaction that prewrites the key afterwards starts at or
above the read and commits above it; a transaction that prewrote the key before holds no lock on it
any more, or the read would have been blocked, so what it commits at or below the read is there
already. A later read can fail: a lock, a commit inside the uncertainty interval, the collection mark,
or a version that was collected, or rolled back after its commit, stand in its way.
-/

namespace Rift.Kv

open Model Store

/-- A store, and on which keys which transactions have prewritten and rolled back. -/
structure Ledger where
  store : Store
  prewritten : List (Key × Timestamp) := []
  rolledBack : List (Key × Timestamp) := []

/-- The key and the start timestamp of a prewrite that is not refused. -/
def Store.prewrites (s : Store) : Step → Option (Key × Timestamp)
  | .prewrite key l x =>
    match s.prewriteInto [] key l x with
    | .ok _ => some (key, l.startTS)
    | .error _ => none
  | _ => none

def Ledger.step (g : Ledger) (st : Step) : Ledger where
  store := g.store.step st
  prewritten := (g.store.prewrites st).toList ++ g.prewritten
  rolledBack := st.rollsBack.toList ++ g.rolledBack

/-- A commit comes after a successful prewrite of its key and not after a rollback of it. -/
def Mint.allowsCommit (m : Mint) (g : Ledger) (key : Key) (startTS c : Timestamp) : Prop :=
  m.commitOf startTS = some c ∧ (key, startTS) ∈ g.prewritten ∧ (key, startTS) ∉ g.rolledBack

/-- The steps of transactions that keep to the mint's timestamps. -/
def Mint.allows (m : Mint) (g : Ledger) : Step → Prop
  | .prewrite _ l _ => m.starts l.startTS
  | .commit key startTS c => m.allowsCommit g key startTS c
  | .rollback _ startTS => m.starts startTS
  | .resolve key l .forward c => m.allowsCommit g key l.startTS c
  | .resolve _ l .back _ => m.starts l.startTS
  | .resolve _ _ .wait _ => True
  | .put _ ts _ => ¬ m.starts ts
  | .gc _ => True
  | .read _ _ => True

instance (m : Mint) (g : Ledger) (st : Step) : Decidable (m.allows g st) := by
  unfold Mint.allows Mint.allowsCommit
  split <;> infer_instance

variable {m : Mint} {g : Ledger} {st : Step} {key : Key} {startTS c : Timestamp} {s : Store}

theorem Mint.allows.commit (h : m.allows g st) (hc : st.commits = some (key, startTS, c)) :
    m.allowsCommit g key startTS c := by
  unfold Step.commits at hc
  split at hc <;> cases hc <;> exact h

theorem Mint.allows.rollback (h : m.allows g st) (hr : st.rollsBack = some (key, startTS)) :
    m.starts startTS := by
  unfold Step.rollsBack at hr
  split at hr <;> cases hr <;> exact h

/-! ### Along every run -/

/-- Real commits are at the mint's timestamps, and a transaction that prewrote a key holds its lock,
has committed there, or has been rolled back there. -/
structure Settled (m : Mint) (g : Ledger) : Prop where
  wf : g.store.Wf
  oneMark : g.store.OneMark
  real : ∀ {key c startTS}, g.store.view.write key c = some (startTS, false) →
    m.starts startTS ∧ m.commitOf startTS = some c
  started : ∀ {key startTS}, (key, startTS) ∈ g.prewritten → m.starts startTS
  settled : ∀ {key startTS}, (key, startTS) ∈ g.prewritten →
    (∃ l, g.store.view.lock key = some l ∧ l.startTS = startTS) ∨
      (∃ c, g.store.view.write key c = some (startTS, false)) ∨ (key, startTS) ∈ g.rolledBack

theorem mem_prewritten_step :
    (key, startTS) ∈ (g.step st).prewritten ↔
      g.store.prewrites st = some (key, startTS) ∨ (key, startTS) ∈ g.prewritten := by
  simp [Ledger.step]

theorem prewrites_eq_some :
    s.prewrites st = some (key, startTS) ↔
      ∃ l x b, st = .prewrite key l x ∧ l.startTS = startTS ∧ s.prewriteInto [] key l x = .ok b := by
  constructor
  · intro h
    cases st with
    | prewrite key' l x =>
      cases hb : s.prewriteInto [] key' l x with
      | ok b =>
        simp only [Store.prewrites, hb, Option.some.injEq, Prod.mk.injEq] at h
        obtain ⟨rfl, rfl⟩ := h
        exact ⟨l, x, b, rfl, rfl, hb⟩
      | error e => simp [Store.prewrites, hb] at h
    | _ => simp [Store.prewrites] at h
  · rintro ⟨l, x, b, rfl, rfl, hb⟩
    simp [Store.prewrites, hb]

theorem Settled.keep (hg : Settled m g) (hok : m.allows g st)
    (hw : g.store.view.write key c = some (startTS, false)) :
    (g.step st).store.view.write key c = some (startTS, false) := by
  rcases (change_step hg.wf hg.oneMark st).keep hw with h | ⟨startTS', hc, h⟩ | hr
  · exact h
  · -- A repeated commit: commit timestamps are not shared.
    rwa [m.inj (hg.real hw).2 (hok.commit hc).1]
  · exact absurd (hok.rollback hr) (by simpa using m.fresh (hg.real hw).2)

theorem Settled.step (hg : Settled m g) (hok : m.allows g st) : Settled m (g.step st) := by
  have hchange := change_step hg.wf hg.oneMark st
  constructor
  · exact hg.wf.step st
  · exact hg.oneMark.step hg.wf st
  · intro key c startTS hw
    rcases hchange.real hw with hw | hc
    · exact hg.real hw
    · exact ⟨hg.started (hok.commit hc).2.1, (hok.commit hc).1⟩
  · intro key startTS hmem
    rcases mem_prewritten_step.mp hmem with h | h
    · obtain ⟨l, x, b, rfl, rfl, -⟩ := prewrites_eq_some.mp h
      exact hok
    · exact hg.started h
  · intro key startTS hmem
    rcases mem_prewritten_step.mp hmem with h | h
    · obtain ⟨l, x, b, rfl, rfl, hb⟩ := prewrites_eq_some.mp h
      refine .inl ⟨l, ?_, rfl⟩
      simp only [Ledger.step, Store.step, hb, perform, view_prewriteInto hb, View.prewrite, if_true]
    · rcases hg.settled h with ⟨l, hl, rfl⟩ | ⟨c, hw⟩ | hr
      · rcases hchange.release hl with hl | ⟨c, -, hw⟩ | hr
        · exact .inl ⟨l, hl, rfl⟩
        · exact .inr (.inl ⟨c, hw⟩)
        · exact .inr (.inr (by simp [Ledger.step, hr]))
      · exact .inr (.inl ⟨c, hg.keep hok hw⟩)
      · exact .inr (.inr (by simp [Ledger.step, hr]))

theorem Store.Fresh.settled (hs : s.Fresh) : Settled m { store := s } := by
  constructor
  · exact hs.wf
  · exact hs.oneMark
  all_goals simp [hs.view]

/-! ### After an answered read -/

/-- A read of `key` at `readTS` has been answered: no transaction that could commit below it is
undecided, its visible commits are the ones in `seen`, and their versions are the ones in `held` where
they are still there. -/
structure Frozen (m : Mint) (key : Key) (readTS : Timestamp) (seen : Timestamp → Timestamp → Prop)
    (held : Timestamp → Option Bytes) (g : Ledger) : Prop extends Settled m g where
  marked : ∃ t, readTS ≤ t ∧ g.store.view.marked key t
  locked : ∀ {l}, g.store.view.lock key = some l → readTS ≤ l.startTS
  visible : ∀ {c startTS}, Visible g.store.view key readTS c startTS ↔ seen c startTS
  version : ∀ {c startTS}, seen c startTS → g.store.view.version key startTS = held startTS ∨
    g.store.view.version key startTS = none

variable {readTS ceiling : Timestamp} {seen : Timestamp → Timestamp → Prop} {held : Timestamp → Option Bytes}
  {a : Option Bytes} {e : KvError}

theorem Frozen.le_start (hg : Frozen m key readTS seen held g) {l : Lock} {x : Bytes} {b : Batch}
    (h : g.store.prewriteInto [] key l x = .ok b) : readTS ≤ l.startTS := by
  obtain ⟨⟨-, -, -, -, hread⟩, -⟩ := prewriteInto_eq_ok.mp h
  obtain ⟨t, hle, hmarked⟩ := hg.marked
  exact hle.trans (hread t ((hg.wf.readMark_eq_some hg.oneMark).mpr hmarked))

theorem Frozen.seen_of_commit (hg : Frozen m key readTS seen held g)
    (hc : m.allowsCommit g key startTS c) (hle : c ≤ readTS) :
    Visible g.store.view key readTS c startTS := by
  obtain ⟨hcommit, hpre, hrolled⟩ := hc
  rcases hg.settled hpre with ⟨l, hl, rfl⟩ | ⟨c', hw⟩ | hr
  · exact absurd (hg.locked hl) ((m.lt hcommit).trans_le hle).not_ge
  · have heq : c = c' := Option.some.inj (hcommit.symm.trans (hg.real hw).2)
    exact ⟨heq ▸ hw, hle⟩
  · exact absurd hr hrolled

theorem Frozen.step (hg : Frozen m key readTS seen held g) (hok : m.allows g st) :
    Frozen m key readTS seen held (g.step st) := by
  have hchange := change_step hg.wf hg.oneMark st
  refine { hg.toSettled.step hok with
    marked := ?_
    locked := ?_
    visible := ?_
    version := ?_ }
  · obtain ⟨t, hle, hmarked⟩ := hg.marked
    obtain ⟨t', hle', hmarked'⟩ := hchange.marked hmarked
    exact ⟨t', hle.trans hle', hmarked'⟩
  · intro l hl
    rcases hchange.acquire hl with hl | ⟨x, b, -, hb⟩
    · exact hg.locked hl
    · exact hg.le_start hb
  · intro c startTS
    rw [← hg.visible]
    constructor
    · rintro ⟨hw, hle⟩
      rcases hchange.real hw with hw | hc
      · exact ⟨hw, hle⟩
      · exact hg.seen_of_commit (hok.commit hc) hle
    · rintro ⟨hw, hle⟩
      exact ⟨hg.toSettled.keep hok hw, hle⟩
  · intro c startTS hseen
    obtain ⟨hw, hle⟩ := hg.visible.mpr hseen
    have hreal := hg.real hw
    rcases hchange.version key startTS with h | h | ⟨l, x, b, -, rfl, hb⟩ | ⟨x, rfl⟩
    · exact (hg.version hseen).imp h.trans h.trans
    · exact .inr h
    · exact absurd (hg.le_start hb) ((m.lt hreal.2).trans_le hle).not_ge
    · exact absurd hreal.1 hok

theorem Settled.frozen (hg : Settled m g) {mark : Timestamp} (hle : readTS ≤ mark)
    (hmarked : g.store.view.marked key mark) (h : g.store.getTxn key readTS ceiling = .ok a) :
    Frozen m key readTS (Visible g.store.view key readTS) (g.store.view.version key) g := by
  obtain ⟨-, -, hfree, -⟩ := getTxn_eq_ok.mp h
  exact { hg with
    marked := ⟨mark, hle, hmarked⟩
    locked := fun hl => (hfree _ hl).le
    visible := Iff.rfl
    version := fun _ => .inl rfl }

theorem Frozen.answer_eq {g₀ : Ledger} {a' : Option Bytes} (hg₀ : Settled m g₀)
    (hg : Frozen m key readTS (Visible g₀.store.view key readTS) (g₀.store.view.version key) g)
    (h₀ : g₀.store.getTxn key readTS ceiling = .ok a)
    (h : g.store.getTxn key readTS ceiling = .ok a') : a' = a := by
  obtain ⟨-, -, -, r₀, hlatest₀, hfetch₀⟩ := getTxn_eq_ok.mp h₀
  obtain ⟨-, -, -, r, hlatest, hfetch⟩ := getTxn_eq_ok.mp h
  obtain ⟨hvis₀, hmax₀⟩ := hg₀.wf.latestVisible_eq_ok hlatest₀
  obtain ⟨hvis, hmax⟩ := hg.wf.latestVisible_eq_ok hlatest
  -- Both commits are the visible one of highest rank, or there is none.
  have hr : r = r₀ := by
    cases r₀ with
    | none =>
      cases r with
      | none => rfl
      | some p =>
        obtain ⟨_, hmem, -⟩ := hmax₀ _ _ (hg.visible.mp (hvis p rfl))
        simp at hmem
    | some p₀ =>
      obtain ⟨p, rfl, hle⟩ := hmax _ _ (hg.visible.mpr (hvis₀ p₀ rfl))
      obtain ⟨p', hp', hle'⟩ := hmax₀ _ _ (hg.visible.mp (hvis p rfl))
      cases hp'
      have hc : p.1 = p₀.1 := Timestamp.rank_inj.mp (le_antisymm hle' hle)
      have hw := (hvis₀ p₀ rfl).1
      rw [← hc, (hg.visible.mp (hvis p rfl)).1] at hw
      rw [Prod.ext hc (Prod.mk.inj (Option.some.inj hw)).1]
  subst hr
  match r, hfetch₀, hfetch with
  | none, hfetch₀, hfetch => exact Except.ok.inj (hfetch.symm.trans hfetch₀)
  | some (c, startTS), hfetch₀, hfetch =>
    rcases hg.version (hvis₀ _ rfl) with hv | hv
    · have hv' : g.store.versionAt key startTS = g₀.store.versionAt key startTS := hv
      rw [fetch, hv'] at hfetch
      exact Except.ok.inj (hfetch.symm.trans hfetch₀)
    · have hv' : g.store.versionAt key startTS = none := hv
      simp [fetch, hv'] at hfetch

/-- The errors that can stop a snapshot read of a key at a timestamp. -/
def KvError.StopsRead (key : Key) (readTS : Timestamp) : KvError → Prop
  | .locked k _ => k = key
  | .uncertain k t _ => k = key ∧ t = readTS
  | .belowGCMark t _ => t = readTS
  | .missingVersion k _ _ => k = key
  | _ => False

theorem latestVisible_eq_error {ns : Bytes} {es : List (Bytes × Bytes)}
    (h : latestVisible ns key readTS ceiling es = .error e) : e.StopsRead key readTS := by
  induction es with
  | nil => simp [latestVisible] at h
  | cons p es ih =>
    simp only [latestVisible] at h
    split at h
    · simp at h
    split at h
    · simp at h
    split at h
    · exact ih h
    split at h
    · split at h
      · cases h
        exact ⟨rfl, rfl⟩
      · exact ih h
    · split at h
      · exact ih h
      · simp at h

theorem getTxn_eq_error (hset : readTS.isSet) (h : s.getTxn key readTS ceiling = .error e) :
    e.StopsRead key readTS := by
  rw [getTxn, refuseUnset, if_pos hset, scanWrites_eq] at h
  cases hmark : s.refuseBelowMark readTS with
  | error e' =>
    obtain rfl : e' = e := by simpa [hmark, bind, Except.bind] using h
    rw [refuseBelowMark] at hmark
    split at hmark
    · cases hmark
      rfl
    · simp at hmark
  | ok u =>
    cases hblocked : s.refuseIfBlocked key readTS with
    | error e' =>
      obtain rfl : e' = e := by simpa [hmark, hblocked, bind, Except.bind] using h
      rw [refuseIfBlocked] at hblocked
      split at hblocked
      · split at hblocked
        · cases hblocked
          rfl
        · simp at hblocked
      · simp at hblocked
    | ok u' =>
      simp only [hmark, hblocked, bind, Except.bind] at h
      split at h
      · next hlatest =>
        cases h
        exact latestVisible_eq_error hlatest
      · rw [fetch.eq_def] at h
        split at h
        · simp at h
        · split at h
          · cases h
            rfl
          · simp at h

theorem Settled.marked_step_read (hg : Settled m g) (key : Key) (hset : readTS.isSet) :
    ∃ mark, readTS ≤ mark ∧ (g.step (.read key readTS)).store.view.marked key mark := by
  have hnote : ∃ b, g.store.noteReadInto [] key readTS = .ok b := by
    rw [noteReadInto, refuseUnset, if_pos hset]
    cases g.store.readMark key with
    | none => exact ⟨_, rfl⟩
    | some cur => cases hle : readTS.lessEq cur <;> simp [hle, bind, Except.bind, pure, Except.pure]
  obtain ⟨b, hb⟩ := hnote
  obtain ⟨mark, hle, -, hview⟩ := view_noteReadInto hg.wf hg.oneMark hb
  refine ⟨mark, hle, ?_⟩
  simp [Ledger.step, Store.step, hb, perform, hview, View.note]

/-- Once a read of a key at a timestamp has answered, every later read of the key at that timestamp
with the same ceiling gives the same answer or stops with an error. -/
theorem snapshot_stable {before after : List Step} (hfresh : s.Fresh)
    (h : Follows Ledger.step m.allows { store := s } (before ++ Step.read key readTS :: after))
    (hread : ((before ++ [Step.read key readTS]).foldl Ledger.step { store := s }).store.getTxn
      key readTS ceiling = .ok a) :
    ((before ++ Step.read key readTS :: after).foldl Ledger.step { store := s }).store.getTxn
        key readTS ceiling = .ok a ∨
      ∃ e : KvError, e.StopsRead key readTS ∧
        ((before ++ Step.read key readTS :: after).foldl Ledger.step { store := s }).store.getTxn
          key readTS ceiling = .error e := by
  obtain ⟨hbefore, hok, hafter⟩ := follows_append.mp h
  rw [List.foldl_append, List.foldl_cons, List.foldl_nil] at hread
  rw [List.foldl_append, List.foldl_cons]
  have hset : readTS.isSet := (getTxn_eq_ok.mp hread).1
  have hg : Settled m (before.foldl Ledger.step { store := s }) :=
    hbefore.invariant (fun _ _ hg hok => hg.step hok) hfresh.settled
  generalize before.foldl Ledger.step { store := s } = g at *
  obtain ⟨mark, hle, hmarked⟩ := hg.marked_step_read key hset
  have hg₀ := hg.step hok
  have hlater := hafter.invariant (fun _ _ hg hok => hg.step hok) (hg₀.frozen hle hmarked hread)
  generalize after.foldl Ledger.step (g.step (Step.read key readTS)) = g' at *
  cases hr : g'.store.getTxn key readTS ceiling with
  | ok a' => exact .inl (by rw [hlater.answer_eq hg₀ hread hr])
  | error e => exact .inr ⟨e, getTxn_eq_error hset hr, rfl⟩

/-- One transaction from 5 to 10. -/
def committed : List Step :=
  [.prewrite someKey { primary := someKey, startTS := { wall := 5 } } [1],
   .commit someKey { wall := 5 } { wall := 10 }]

/-- The mint of a transaction from 5 to 10 and one from 30 to 40. -/
def committedMint : Mint :=
  twoTxns { wall := 5 } { wall := 10 } { wall := 30 } { wall := 40 } (by decide)

/-- A read at 25 and a later transaction. -/
theorem snapshot_stable_committed :
    let later := [Step.prewrite someKey { primary := someKey, startTS := { wall := 30 } } [2],
      Step.commit someKey { wall := 30 } { wall := 40 }]
    let steps := committed ++ Step.read someKey { wall := 25 } :: later
    (steps.foldl Ledger.step { store := { ns := [] } }).store.getTxn someKey { wall := 25 }
        { wall := 25 } = .ok (some [1]) ∨
      ∃ e : KvError, e.StopsRead someKey { wall := 25 } ∧
        (steps.foldl Ledger.step { store := { ns := [] } }).store.getTxn someKey { wall := 25 }
          { wall := 25 } = .error e :=
  snapshot_stable (m := committedMint) (fresh_empty []) (by decide +kernel) (by decide +kernel)

/-- A rollback that is applied after the commit takes the version away, and the read that answered
before stops with an error that is no lock, no uncertainty and no collection. -/
theorem rollback_after_commit :
    let before := committed ++ [Step.read someKey { wall := 25 }]
    let steps := committed ++ Step.read someKey { wall := 25 } :: [.rollback someKey { wall := 5 }]
    Follows Ledger.step committedMint.allows { store := { ns := [] } } steps ∧
      (before.foldl Ledger.step { store := { ns := [] } }).store.getTxn someKey { wall := 25 }
        { wall := 25 } = .ok (some [1]) ∧
      (steps.foldl Ledger.step { store := { ns := [] } }).store.getTxn someKey { wall := 25 }
        { wall := 25 } = .error (.missingVersion someKey { wall := 10 } { wall := 5 }) := by
  decide +kernel

end Rift.Kv
