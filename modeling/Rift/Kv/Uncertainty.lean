import Rift.Kv.Steps

/-!
# The uncertainty interval

A snapshot read at `T` must not pass over a commit that may have happened before it in real time: one
above `T` and at most `T` advanced by the bound on the disagreement of the clocks. `GetTxn` walks the
commit records of the key from the newest on and stops at a real commit up to a ceiling, which
`UncertaintyCeiling` computes. The ceiling drops the counter of `T`, so it lies below the top of the
interval unless that counter is zero, and it wraps where the advanced wall leaves the range.

## Main definitions

* `InWindow` - the interval, between timestamps as numbers.
* `Store.Stops` - what makes a read fail: one of its checks, a commit up to the ceiling, or a newest
  visible commit without a version.
* `Store.Anchored` - what every run of a store keeps.

## Main results

* `getTxn_in_window` - a read with a commit in its interval fails exactly when something stops it.
-/

namespace Rift

/-- The least timestamp after this one, short of the end of the range. -/
def Timestamp.next (t : Timestamp) : Timestamp :=
  if t.logical = 0xFFFFFFFF then { wall := t.wall + 1 }
  else { wall := t.wall, logical := t.logical + 1 }

/-- The successor is above a timestamp that lies at or below some timestamp with counter zero: the
wall of such a timestamp is not the last one when its counter is. -/
theorem Timestamp.lt_next {t u : Timestamp} (h : t ≤ u) (hu : u.logical = 0) : t < t.next := by
  have hle := not_lt.mpr h
  rw [Timestamp.lt_iff, hu] at hle
  unfold next
  split
  · next hmax =>
    have hwall : t.wall.toInt < u.wall.toInt := by
      rw [hmax] at hle
      simp only [UInt32.reduceToNat] at hle
      omega
    have hlast := u.wall.toInt_lt
    have hfirst := t.wall.le_toInt
    refine Timestamp.lt_iff.mpr (Or.inl ?_)
    rw [Int64.toInt_add, Int.bmod_eq_of_le] <;> simp only [Int64.reduceToInt] <;> omega
  · next hroom =>
    have hne : t.logical.toNat ≠ 2 ^ 32 - 1 := fun heq => hroom (UInt32.toNat_inj.mp heq)
    have hlt := t.logical.toNat_lt
    refine Timestamp.lt_iff.mpr (Or.inr ⟨rfl, ?_⟩)
    rw [UInt32.toNat_add]
    simp only [UInt32.reduceToNat]
    omega

namespace Kv

open Model Store List

/-- The top of the interval of a transaction's first snapshot. -/
def uncertaintyCeiling (readTS : Timestamp) (maxOffset : Int64) : Timestamp :=
  { wall := readTS.wall + maxOffset, logical := 0 }

/-- Where a transaction that met an uncertain commit restarts. -/
def KvError.restartAt : KvError → Option Timestamp
  | .uncertain _ _ commitTS => some commitTS.next
  | _ => none

/-- A commit lies above a read and at most the bound after it. The top of the interval is a pair of
numbers: it need not be a timestamp. -/
def InWindow (readTS : Timestamp) (maxOffset : Int64) (c : Timestamp) : Prop :=
  readTS < c ∧ (c.wall.toInt < readTS.wall.toInt + maxOffset.toInt ∨
    c.wall.toInt = readTS.wall.toInt + maxOffset.toInt ∧ c.logical ≤ readTS.logical)

instance (readTS : Timestamp) (maxOffset : Int64) (c : Timestamp) :
    Decidable (InWindow readTS maxOffset c) := inferInstanceAs (Decidable (_ ∧ _))

variable {maxOffset : Int64}

namespace Store

variable {s : Store} {key : Key} {readTS ceiling c startTS : Timestamp} {e : KvError}

/-! ### The walk -/

/-- The walk ends at an uncertain commit, or at one of `found` with a negative wall. -/
def EndsEarly (ns : Bytes) (key : Key) (readTS ceiling : Timestamp)
    (l found : List (Timestamp × Bytes)) : Prop :=
  (∃ c', latestVisible ns key readTS ceiling (l.map fun e => (writeKey ns key e.1, e.2)) =
    .error (.uncertain key readTS c')) ∨
  ∃ c' y startTS', latestVisible ns key readTS ceiling
    (l.map fun e => (writeKey ns key e.1, e.2)) = .ok (some (c', startTS')) ∧ ¬ c'.Nonneg ∧
    (c', y) ∈ found ∧ decodeWrite y = some (startTS', false)

/-- The walk over the commit records stops at an uncertain commit, when there is one, or before it at
a commit with a negative wall: those sort first. -/
theorem latestVisible_uncertain {l : List (Timestamp × Bytes)} {ns x : Bytes}
    (hsorted : l.Pairwise (fun e f => f.1.rank < e.1.rank)) (hread : readTS.Nonneg)
    (hmem : (c, x) ∈ l) (hdec : decodeWrite x = some (startTS, false)) (hlt : readTS < c)
    (hle : c ≤ ceiling) : EndsEarly ns key readTS ceiling l l := by
  induction l with
  | nil => simp at hmem
  | cons e l ih =>
    obtain ⟨c₀, x₀⟩ := e
    obtain ⟨hfirst, hrest⟩ := pairwise_cons.mp hsorted
    simp only [EndsEarly, map_cons, latestVisible, decodeWriteKey, decodeStamped_metaKey, ne_eq,
      not_true_eq_false, if_false]
    -- When the walk passes over the first record, the commit is among the others.
    have hskip : (c₀ = c → decodeWrite x₀ ≠ some (startTS, false)) →
        EndsEarly ns key readTS ceiling l ((c₀, x₀) :: l) := by
      intro hno
      rcases mem_cons.mp hmem with heq | htail
      · cases heq
        exact absurd hdec (hno rfl)
      · rcases ih hrest htail with herr | ⟨c', y, st, hok, hneg, hin, hy⟩
        · exact .inl herr
        · exact .inr ⟨c', y, st, hok, hneg, mem_cons_of_mem _ hin, hy⟩
    cases hdec₀ : decodeWrite x₀ with
    | none => exact hskip (by simp [hdec₀])
    | some w =>
      obtain ⟨startTS₀, rollback⟩ := w
      by_cases habove : readTS < c₀
      · simp only [Timestamp.less_iff.mpr habove, if_true]
        split
        · exact .inl ⟨c₀, rfl⟩
        · next hpass =>
          refine hskip fun heq h => hpass ?_
          rw [hdec₀] at h
          cases h
          simpa [heq] using hle
      · have hless : readTS.less c₀ = false := by simpa using habove
        cases rollback with
        | true =>
          simp only [hless, Bool.false_eq_true, if_false, if_true]
          exact hskip (by simp [hdec₀])
        | false =>
          simp only [hless, Bool.false_eq_true, if_false]
          refine .inr ⟨c₀, x₀, startTS₀, rfl, fun hn => ?_, by simp, hdec₀⟩
          rcases mem_cons.mp hmem with heq | htail
          · rw [(Prod.mk.inj heq).1] at hlt
            exact habove hlt
          · -- a later record has a lower rank, and with it a lower timestamp
            have hrank : c.rank < c₀.rank := hfirst (c, x) htail
            have hlow : c < c₀ := (Timestamp.rank_lt_rank (hread.of_le hlt.le) hn).mp hrank
            exact habove (hlt.trans hlow)

/-- The error of a walk names a real commit above the read and inside the ceiling. -/
theorem latestVisible_error_window {ns : Bytes} {l : List (Timestamp × Bytes)}
    (h : latestVisible ns key readTS ceiling (l.map fun e => (writeKey ns key e.1, e.2)) =
      .error e) :
    ∃ c x startTS, e = .uncertain key readTS c ∧ (c, x) ∈ l ∧
      decodeWrite x = some (startTS, false) ∧ readTS < c ∧ c ≤ ceiling := by
  induction l with
  | nil => simp [latestVisible] at h
  | cons p l ih =>
    obtain ⟨c₀, x₀⟩ := p
    have hlater : latestVisible ns key readTS ceiling
        (l.map fun e => (writeKey ns key e.1, e.2)) = .error e →
        ∃ c x startTS, e = .uncertain key readTS c ∧ (c, x) ∈ (c₀, x₀) :: l ∧
          decodeWrite x = some (startTS, false) ∧ readTS < c ∧ c ≤ ceiling := by
      intro h
      obtain ⟨c, x, startTS, heq, hin, hrest⟩ := ih h
      exact ⟨c, x, startTS, heq, mem_cons_of_mem _ hin, hrest⟩
    simp only [map_cons, latestVisible, decodeWriteKey, decodeStamped_metaKey, ne_eq,
      not_true_eq_false, if_false] at h
    cases hdec : decodeWrite x₀ with
    | none => exact hlater (by simpa [hdec] using h)
    | some w =>
      obtain ⟨startTS, rollback⟩ := w
      simp only [hdec] at h
      split at h
      · next habove =>
        split at h
        · next hin =>
          cases h
          simp only [Bool.and_eq_true, Timestamp.lessEq_iff, Bool.not_eq_true'] at hin
          exact ⟨c₀, x₀, startTS, rfl, mem_cons_self, hin.1 ▸ hdec,
            Timestamp.less_iff.mp habove, hin.2⟩
        · exact hlater h
      · split at h
        · exact hlater h
        · simp at h

theorem bind_eq_error {α β : Type} {x : Except KvError α} {f : α → Except KvError β} :
    (x >>= f) = .error e ↔ x = .error e ∨ ∃ a, x = .ok a ∧ f a = .error e := by
  cases x <;> simp [bind, Except.bind]

theorem Wf.getTxn_eq_uncertain (hs : s.Wf) {t : Timestamp} {k : Key}
    (h : s.getTxn key readTS ceiling = .error (.uncertain k t c)) : readTS < c ∧ c ≤ ceiling := by
  -- The checks before the walk, and the fetch after it, fail with other errors.
  have hset : refuseUnset readTS ≠ .error (.uncertain k t c) := by
    unfold refuseUnset
    split <;> simp
  have hmark : s.refuseBelowMark readTS ≠ .error (.uncertain k t c) := by
    unfold refuseBelowMark
    split <;> simp
  have hfree : s.refuseIfBlocked key readTS ≠ .error (.uncertain k t c) := by
    unfold refuseIfBlocked
    split
    · split <;> simp
    · simp
  have hfetch : ∀ r, s.fetch key r ≠ .error (.uncertain k t c) := by
    intro r
    unfold fetch
    split
    · simp
    · split <;> simp
  rw [getTxn, scanWrites_eq] at h
  obtain ⟨-, -, h⟩ := (bind_eq_error.mp h).resolve_left hset
  obtain ⟨-, -, h⟩ := (bind_eq_error.mp h).resolve_left hmark
  obtain ⟨-, -, h⟩ := (bind_eq_error.mp h).resolve_left hfree
  rcases bind_eq_error.mp h with hwalk | ⟨r, -, hr⟩
  · obtain ⟨l, hscan, -, -⟩ := hs.exists_stamped writePrefix (by simp) key
    rw [hscan] at hwalk
    obtain ⟨c', x, startTS, heq, -, -, hlt, hle⟩ := latestVisible_error_window hwalk
    cases heq
    exact ⟨hlt, hle⟩
  · exact absurd hr (hfetch r)

/-! ### What runs keep -/

/-- The collection mark and the versions have no negative walls, and a real commit record does not lie
below the start it names. A commit record may have a negative wall: its version does not exist. -/
structure Anchored (s : Store) : Prop where
  wf : s.Wf
  oneMark : s.OneMark
  mark : {} ≤ s.gcMark
  version : ∀ {key ts}, (s.versionAt key ts).isSome → ts.Nonneg
  order : ∀ {key c startTS}, s.view.write key c = some (startTS, false) → startTS ≤ c

theorem Fresh.anchored (hs : s.Fresh) : s.Anchored := by
  constructor
  · exact hs.wf
  · exact hs.oneMark
  · exact hs.2.ge
  · simp [hs.versionAt]
  · simp [hs.view]

theorem step_of_commits {st : Step} (h : st.commits = some (key, startTS, c)) :
    s.step st = s.perform (s.commitInto [] key startTS c) := by
  unfold Step.commits at h
  split at h <;> cases h <;> rfl

theorem gcMark_le_step (s : Store) (st : Step) : s.gcMark ≤ (s.step st).gcMark := by
  have hperform : ∀ r, s.gcMark ≤ (s.perform r).gcMark := fun r =>
    perform_cases (P := fun s' => s.gcMark ≤ s'.gcMark) le_rfl fun _ _ => le_rfl
  cases st with
  | gc upTo =>
    rw [step_gc]
    split
    · next hup => exact hup.2.le
    · exact le_rfl
  | _ => exact hperform _

theorem Anchored.step (hs : s.Anchored) (st : Step) : (s.step st).Anchored := by
  have hchange := change_step hs.wf hs.oneMark st
  refine ⟨hs.wf.step st, hs.oneMark.step hs.wf st, hs.mark.trans (gcMark_le_step s st), ?_, ?_⟩
  · intro key ts hsome
    -- what is above the mark is above zero
    have habove : s.gcMark < ts → ts.Nonneg := fun hlt =>
      Timestamp.nonneg_zero.of_le (hs.mark.trans hlt.le)
    rcases hchange.version key ts with hold | hnone | ⟨l, x, b, -, rfl, hb⟩ | ⟨x, rfl⟩
    · exact hs.version (Eq.subst hold (motive := fun v => v.isSome = true) hsome)
    · rw [← view_version, hnone] at hsome
      simp at hsome
    · exact habove (prewriteInto_eq_ok.mp hb).1.2.1
    · cases hput : s.putInto [] key ts x with
      | ok b => exact habove (putInto_eq_ok.mp hput).1.2
      | error e =>
        rw [Store.step, hput] at hsome
        exact hs.version hsome
  · intro key c startTS hw
    rcases hchange.real hw with hold | hcommits
    · exact hs.order hold
    · cases hcommit : s.commitInto [] key startTS c with
      | ok b => exact (commitInto_eq_ok.mp hcommit).1.2.2
      | error e =>
        rw [step_of_commits hcommits, hcommit] at hw
        exact hs.order hw

theorem Fresh.anchored_run (hs : s.Fresh) (steps : List Step) :
    (steps.foldl Store.step s).Anchored :=
  foldlRecOn steps Store.step hs.anchored fun _ h st _ => h.step st

/-! ### Reads -/

/-- A read fails: its timestamp is unset or not above the mark, a lock of a start at or below it
stands, a real commit lies above it and at most the advanced wall with counter zero, or the first of
the commits at or below it, in the order of the records, has no version. -/
def Stops (s : Store) (key : Key) (readTS : Timestamp) (maxOffset : Int64) : Prop :=
  ¬ readTS.isSet ∨ readTS ≤ s.gcMark ∨ (∃ l, s.lock key = some l ∧ l.startTS ≤ readTS) ∨
    (∃ c startTS, s.view.write key c = some (startTS, false) ∧ readTS < c ∧
      c ≤ { wall := readTS.wall + maxOffset }) ∨
    ∃ c startTS, Visible s.view key readTS c startTS ∧
      (∀ c' startTS', Visible s.view key readTS c' startTS' → c'.rank ≤ c.rank) ∧
      s.versionAt key startTS = none

/-- Where a real commit lies above a read and inside its ceiling, the read does not answer. -/
theorem Anchored.getTxn_ne_ok_of_uncertain (hs : s.Anchored)
    (hw : s.view.write key c = some (startTS, false)) (hlt : readTS < c) (hle : c ≤ ceiling)
    (a : Option Bytes) : s.getTxn key readTS ceiling ≠ .ok a := by
  intro hget
  obtain ⟨-, hmark, -, r, hwalk, hfetch⟩ := getTxn_eq_ok.mp hget
  have hread : readTS.Nonneg := Timestamp.nonneg_zero.of_le (hs.mark.trans hmark.le)
  obtain ⟨l, hscan, hsorted, hmem⟩ := hs.wf.exists_stamped writePrefix (by simp) key
  obtain ⟨x, hx, hdec⟩ := Option.bind_eq_some_iff.mp hw
  rw [hscan] at hwalk
  rcases latestVisible_uncertain hsorted hread ((hmem c x).mpr hx) hdec hlt hle with
    ⟨c', herr⟩ | ⟨c', y, startTS', hok, hneg, hy, hdec'⟩
  · cases herr.symm.trans hwalk
  · -- The walk met a commit with a negative wall, and its version is not there.
    cases hok.symm.trans hwalk
    have hw' : s.view.write key c' = some (startTS', false) := by
      simp [Store.view, (hmem c' y).mp hy, hdec']
    have hgone : s.versionAt key startTS' = none := by
      rw [← Option.not_isSome_iff_eq_none]
      exact fun hsome => hneg ((hs.version hsome).of_le (hs.order hw'))
    simp [fetch, hgone] at hfetch

/-- A read under its ceiling answers exactly when nothing stops it. -/
theorem Anchored.getTxn_answers_iff (hs : s.Anchored) :
    (∃ a, s.getTxn key readTS (uncertaintyCeiling readTS maxOffset) = .ok a) ↔
      ¬ s.Stops key readTS maxOffset := by
  constructor
  · rintro ⟨a, hget⟩ hstops
    obtain ⟨hset, hmark, hfree, r, hwalk, hfetch⟩ := getTxn_eq_ok.mp hget
    rcases hstops with h | h | ⟨l, hl, h⟩ | ⟨c, startTS, hw, hlt, hle⟩ | ⟨c, startTS, hvis, hfirst, hnone⟩
    · exact h hset
    · exact h.not_gt hmark
    · exact h.not_gt (hfree l hl)
    · have hceiling : c ≤ uncertaintyCeiling readTS maxOffset := hle
      exact hs.getTxn_ne_ok_of_uncertain hw hlt hceiling a hget
    · obtain ⟨hsee, hmax⟩ := hs.wf.latestVisible_eq_ok hwalk
      obtain ⟨⟨c', startTS'⟩, hmem, hrank⟩ := hmax c startTS hvis
      cases hmem
      have hvis' : Visible s.view key readTS c' startTS' := hsee (c', startTS') rfl
      -- Both are first among the visible commits, so they are one record.
      have heq : c' = c := Timestamp.rank_injective (Nat.le_antisymm (hfirst c' startTS' hvis') hrank)
      have hstart : startTS' = startTS := by
        have h := hvis'.1
        rw [heq, hvis.1] at h
        cases h
        rfl
      simp [fetch, hstart, hnone] at hfetch
  · intro hfree
    simp only [Stops, not_or, not_not, not_le, not_exists, not_and] at hfree
    obtain ⟨hset, hmark, hlock, hcertain, hversion⟩ := hfree
    obtain ⟨l, hscan, -, hmem⟩ := hs.wf.exists_stamped writePrefix (by simp) key
    cases hwalk : latestVisible s.ns key readTS (uncertaintyCeiling readTS maxOffset)
        (scan s.db (keyWrites s.ns key) (prefixEnd (keyWrites s.ns key))) with
    | error e =>
      rw [hscan] at hwalk
      obtain ⟨c, x, startTS, -, hin, hdec, hlt, hle⟩ := latestVisible_error_window hwalk
      have hw : s.view.write key c = some (startTS, false) := by
        simp [Store.view, (hmem c x).mp hin, hdec]
      exact absurd hle (hcertain c startTS hw hlt).not_ge
    | ok r =>
      obtain ⟨hsee, hmax⟩ := hs.wf.latestVisible_eq_ok hwalk
      have hfetch : ∃ a, s.fetch key r = .ok a := by
        rcases r with _ | ⟨c, startTS⟩
        · exact ⟨none, rfl⟩
        · have hfirst : ∀ c' startTS', Visible s.view key readTS c' startTS' → c'.rank ≤ c.rank := by
            intro c' startTS' hvis'
            obtain ⟨_, hr, hrank⟩ := hmax c' startTS' hvis'
            cases hr
            exact hrank
          have hvis : Visible s.view key readTS c startTS := hsee (c, startTS) rfl
          obtain ⟨x, hx⟩ := Option.ne_none_iff_exists'.mp (hversion c startTS hvis hfirst)
          exact ⟨some x, by simp [fetch, hx]⟩
      obtain ⟨a, ha⟩ := hfetch
      exact ⟨a, getTxn_eq_ok.mpr ⟨hset, hmark, fun l hl => hlock l hl, r, hwalk, ha⟩⟩

end Store

/-- In every state of a store: a read with a real commit in its interval fails, and restarts above the
read and above the commit when the error is an uncertain commit, exactly when something stops it. -/
theorem getTxn_in_window {s : Store} (hfresh : s.Fresh) (steps : List Step) (key : Key)
    (readTS : Timestamp) (maxOffset : Int64) :
    (∀ c startTS, (steps.foldl Store.step s).view.write key c = some (startTS, false) →
        InWindow readTS maxOffset c →
      ∃ e, (steps.foldl Store.step s).getTxn key readTS (uncertaintyCeiling readTS maxOffset) =
          .error e ∧
        ∀ k t c', e = .uncertain k t c' → ∀ r ∈ e.restartAt, readTS < r ∧ c' < r) ↔
      ∀ c startTS, (steps.foldl Store.step s).view.write key c = some (startTS, false) →
        InWindow readTS maxOffset c → (steps.foldl Store.step s).Stops key readTS maxOffset := by
  have hs := hfresh.anchored_run steps
  generalize steps.foldl Store.step s = s at hs
  refine forall₄_congr fun c startTS _ _ => ?_
  rw [← not_iff_not, ← hs.getTxn_answers_iff]
  cases hget : s.getTxn key readTS (uncertaintyCeiling readTS maxOffset) with
  | ok a => simp
  | error e =>
    refine iff_of_false (not_not.mpr ⟨e, rfl, ?_⟩) (by simp)
    rintro k t c' rfl r hr
    cases hr
    obtain ⟨hlt, hle⟩ := hs.wf.getTxn_eq_uncertain hget
    exact ⟨hlt.trans (Timestamp.lt_next hle rfl), Timestamp.lt_next hle rfl⟩

/-- One transaction on a key. -/
def oneTxn (startTS commitTS : Timestamp) : List Step :=
  [.prewrite someKey { primary := someKey, startTS := startTS } [1],
   .commit someKey startTS commitTS]

/-- A commit at 10 lies in the interval of a read at 8 under a bound of 5 and below its ceiling, and
the read restarts just above it. -/
theorem getTxn_in_window_ten :
    let s := (oneTxn { wall := 5 } { wall := 10 }).foldl Store.step { ns := [] }
    s.getTxn someKey { wall := 8 } (uncertaintyCeiling { wall := 8 } 5) =
        .error (.uncertain someKey { wall := 8 } { wall := 10 }) ∧
      ∃ e, s.getTxn someKey { wall := 8 } (uncertaintyCeiling { wall := 8 } 5) = .error e ∧
        ∀ k t c', e = .uncertain k t c' → ∀ r ∈ e.restartAt, { wall := 8 } < r ∧ c' < r := by
  have hcommit : ((oneTxn { wall := 5 } { wall := 10 }).foldl Store.step { ns := [] }).view.write
      someKey { wall := 10 } = some ({ wall := 5 }, false) := by decide +kernel
  have hin : InWindow { wall := 8 } 5 { wall := 10 } := by decide
  refine ⟨by decide +kernel, (getTxn_in_window (fresh_empty []) _ someKey { wall := 8 } 5).mpr ?_ _ _
    hcommit hin⟩
  exact fun _ _ _ _ => .inr (.inr (.inr (.inl ⟨_, _, hcommit, by decide, by decide⟩)))

/-- The last wall there is. -/
def lastWall : Int64 := 0x7FFFFFFFFFFFFFFF

/-- Two reads that answer "absent" although a commit lies in their interval. Under a bound of 50 the
interval of a read at wall 100 and counter 7 ends at wall 150 and counter 7, and the ceiling is wall
150 and counter 0. And where the wall plus the bound leaves the range, the ceiling is negative. -/
theorem window_edge_missed :
    (InWindow { wall := 100, logical := 7 } 50 { wall := 150, logical := 3 } ∧
      ((oneTxn { wall := 120 } { wall := 150, logical := 3 }).foldl Store.step
        { ns := [] }).view.write someKey { wall := 150, logical := 3 } =
        some ({ wall := 120 }, false) ∧
      ((oneTxn { wall := 120 } { wall := 150, logical := 3 }).foldl Store.step
        { ns := [] }).getTxn someKey { wall := 100, logical := 7 }
        (uncertaintyCeiling { wall := 100, logical := 7 } 50) = .ok none) ∧
    InWindow { wall := lastWall - 5 } 50 { wall := lastWall - 2 } ∧
      ((oneTxn { wall := lastWall - 3 } { wall := lastWall - 2 }).foldl Store.step
        { ns := [] }).view.write someKey { wall := lastWall - 2 } =
        some ({ wall := lastWall - 3 }, false) ∧
      ((oneTxn { wall := lastWall - 3 } { wall := lastWall - 2 }).foldl Store.step
        { ns := [] }).getTxn someKey { wall := lastWall - 5 }
        (uncertaintyCeiling { wall := lastWall - 5 } 50) = .ok none := by
  decide +kernel

end Kv

end Rift
