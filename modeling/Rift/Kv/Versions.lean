import Rift.Kv.Steps

/-!
# Versioned writes, reads and collection

The store as a multi-version map: what `ReadAt` and `ReadLatest` answer, said by the puts that were
accepted and not by the versions that are left. A collection deletes versions, and never one that a
read it does not refuse could ask for: what it takes away has a newer version of the same key below
the mark.
-/

namespace Rift.Kv

open Model Store List

/-- A value is the one at the greatest argument inside the bound that has a value; there is none when
no argument inside the bound has one. -/
def Newest {τ α : Type*} [LE τ] (f : τ → Option α) (bound : τ → Prop) : Option α → Prop
  | none => ∀ t, bound t → f t = none
  | some x => ∃ t, bound t ∧ f t = some x ∧ ∀ t', bound t' → (f t').isSome → t' ≤ t

/-- The newest value does not change when arguments are given up for greater ones inside the bound. -/
theorem Newest.of_stands {τ α : Type*} [Preorder τ] {f f' : τ → Option α} {bound : τ → Prop}
    (hheld : ∀ {t x}, f t = some x → f' t = some x)
    (hstands : ∀ {t x}, f' t = some x → f t = some x ∨ ∃ t', t < t' ∧ bound t' ∧ (f t').isSome)
    {r : Option α} (h : Newest f bound r) : Newest f' bound r := by
  cases r with
  | none =>
    intro t ht
    rw [Option.eq_none_iff_forall_not_mem]
    intro x hx
    rcases hstands hx with hf | ⟨t', -, hb, hsome⟩
    · cases hf.symm.trans (h t ht)
    · rw [h t' hb] at hsome
      cases hsome
  | some x =>
    obtain ⟨t, ht, hx, hmax⟩ := h
    refine ⟨t, ht, hheld hx, fun u hu hsome => ?_⟩
    obtain ⟨y, hy⟩ := Option.isSome_iff_exists.mp hsome
    rcases hstands hy with hf | ⟨u', hlt, hb, hsome'⟩
    · exact hmax u hu (by rw [hf]; rfl)
    · exact hlt.le.trans (hmax u' hb hsome')

/-! ### What the reads answer -/

variable {upTo : Timestamp}

namespace Store

variable {s : Store} {key : Key} {ts : Timestamp}

/-- The versions of the store have no negative walls. -/
def NonnegVersions (s : Store) : Prop := ∀ key t, (s.versionAt key t).isSome → t.Nonneg

/-- The first of a key's versions that pass a test is the newest one, when the test is downward
closed. -/
theorem newest_of_sorted (hn : s.NonnegVersions) (bound : Timestamp → Prop) [DecidablePred bound]
    {l : List (Timestamp × Bytes)} (hsorted : l.Pairwise fun e f => f.1.rank < e.1.rank)
    (hmem : ∀ t x, (t, x) ∈ l ↔ s.versionAt key t = some x) :
    Newest (s.versionAt key) bound ((l.filter fun e => bound e.1).head?.map (·.2)) := by
  cases hl : l.filter fun e => bound e.1 with
  | nil =>
    intro t ht
    rw [Option.eq_none_iff_forall_not_mem]
    intro x hx
    have hin : (t, x) ∈ l.filter fun e => bound e.1 :=
      mem_filter.mpr ⟨(hmem t x).mpr hx, by simpa using ht⟩
    rw [hl] at hin
    cases hin
  | cons e rest =>
    obtain ⟨t, x⟩ := e
    have hsorted' := hsorted.filter fun e => decide (bound e.1)
    have hin : (t, x) ∈ l.filter fun e => bound e.1 := by rw [hl]; exact mem_cons_self
    obtain ⟨hin, hb⟩ := mem_filter.mp hin
    have hx := (hmem t x).mp hin
    rw [hl] at hsorted'
    refine ⟨t, by simpa using hb, hx, fun u hu hsome => ?_⟩
    obtain ⟨y, hy⟩ := Option.isSome_iff_exists.mp hsome
    have hmem' : (u, y) ∈ l.filter fun e => bound e.1 :=
      mem_filter.mpr ⟨(hmem u y).mpr hy, by simpa using hu⟩
    rw [hl] at hmem'
    rcases mem_cons.mp hmem' with heq | htail
    · exact (Prod.mk.inj heq).1.le
    · have hrank : u.rank < t.rank := (pairwise_cons.mp hsorted').1 (u, y) htail
      exact ((Timestamp.rank_lt_rank (hn key u hsome) (hn key t (by rw [hx]; rfl))).mp hrank).le

/-- A read that is not refused answers with the newest version at or before its timestamp. -/
theorem Wf.readAt_eq_ok (hs : s.Wf) (key : Key) (hn : s.NonnegVersions) (hts : ts.Nonneg)
    (hset : ts.isSet) (hmark : s.gcMark < ts) :
    ∃ r, s.readAt key ts = .ok r ∧ Newest (s.versionAt key) (· ≤ ts) r := by
  obtain ⟨l, hscan, hsorted, hmem⟩ := hs.exists_stamped dataPrefix (by simp) key
  have hnewest := newest_of_sorted hn (· ≤ ts) hsorted hmem
  refine ⟨_, ?_, hnewest⟩
  -- the seek passes over the versions above the timestamp
  have hseek : (l.map fun e => (encodeKey s.ns key e.1, e.2)).filter
      (fun e => encodeKey s.ns key ts ≤ e.1) =
      (l.filter fun e => e.1 ≤ ts).map fun e => (encodeKey s.ns key e.1, e.2) := by
    rw [filter_map]
    congr 1
    refine filter_congr fun e he => ?_
    have hnonneg := hn key e.1 (Option.isSome_iff_exists.mpr ⟨e.2, (hmem e.1 e.2).mp he⟩)
    simp only [Function.comp_apply, decide_eq_decide]
    rw [← not_lt, metaKey_invertedTS_lt, Timestamp.rank_lt_rank hts hnonneg, not_lt]
  rw [readAt, (refuseUnset_eq_ok (u := ())).mpr hset, (refuseBelowMark_eq_ok (u := ())).mpr hmark,
    hscan, hseek]
  cases hl : l.filter fun e => e.1 ≤ ts with
  | nil => rfl
  | cons e rest =>
    have hle : e.1 ≤ ts := by
      have hin : e ∈ l.filter fun e => e.1 ≤ ts := by rw [hl]; exact mem_cons_self
      simpa using (mem_filter.mp hin).2
    have hless : ts.less e.1 = false := by simpa using hle
    simp [bind, Except.bind, decodeKey, hless, pure, Except.pure]

theorem Wf.readLatest_newest (hs : s.Wf) (hn : s.NonnegVersions) (key : Key) :
    Newest (s.versionAt key) (fun _ => True) (s.readLatest key) := by
  obtain ⟨l, hscan, hsorted, hmem⟩ := hs.exists_stamped dataPrefix (by simp) key
  have hnewest := newest_of_sorted hn (fun _ => True) hsorted hmem
  have hread : s.readLatest key = l.head?.map (·.2) := by
    rw [readLatest, hscan]
    cases l with
    | nil => rfl
    | cons e rest => simp [decodeKey]
  rw [hread]
  simpa using hnewest

/-- A read is refused exactly when its timestamp is unset or at or below the mark. -/
theorem readAt_refused_iff (key : Key) (hs : s.Wf) (hn : s.NonnegVersions) (hts : ts.Nonneg) :
    (∃ e, s.readAt key ts = .error e) ↔ ts.isSet = false ∨ ts ≤ s.gcMark := by
  constructor
  · rintro ⟨e, he⟩
    by_contra hnot
    push Not at hnot
    obtain ⟨r, hr, -⟩ := hs.readAt_eq_ok key hn hts (by simpa using hnot.1) hnot.2
    cases he.symm.trans hr
  · rintro (hunset | hle)
    · exact ⟨_, by simp only [readAt, refuseUnset, hunset]; rfl⟩
    · cases hset : ts.isSet with
      | false => exact ⟨_, by simp only [readAt, refuseUnset, hset]; rfl⟩
      | true =>
        have hbelow := Timestamp.lessEq_iff.mpr hle
        exact ⟨_, by simp only [readAt, refuseUnset, refuseBelowMark, hset, hbelow]; rfl⟩

/-! ### What a collection leaves -/

/-- Of the versions of a key below the bound of a collection, one at least as new survives. -/
theorem Wf.exists_survivor (hs : s.Wf) (hsome : (s.versionAt key ts).isSome) (hlt : ts < upTo) :
    ∃ t, ts.rank ≤ t.rank ∧ t < upTo ∧ ((s.step (.gc upTo)).versionAt key t).isSome := by
  -- ranks are bounded, and a version that goes has one of higher rank before the collection
  induction hgap : 2 ^ 96 - ts.rank using Nat.strong_induction_on generalizing ts with
  | _ gap ih =>
    rcases hs.version_gc _ key ts with hsame | ⟨-, -, t, ht, htlt, hrank⟩
    · exact ⟨ts, le_rfl, hlt, hsame ▸ hsome⟩
    · have htop := t.rank_lt
      obtain ⟨t', hle, hlt', hleft⟩ := ih (2 ^ 96 - t.rank) (by omega) ht htlt rfl
      exact ⟨t', hrank.le.trans hle, hlt', hleft⟩

end Store

/-! ### Runs of puts and collections -/

/-- A store, the puts it has accepted, the latest first, and the bounds it has collected up to. -/
structure Puts where
  store : Store
  accepted : List (Key × Timestamp × Bytes) := []
  collected : List Timestamp := []

/-- The put that a step makes, if it is accepted. -/
def Store.accepts (s : Store) : Step → Option (Key × Timestamp × Bytes)
  | .put key ts x =>
    match s.putInto [] key ts x with
    | .ok _ => some (key, ts, x)
    | .error _ => none
  | _ => none

/-- The bound of a step that collects. An unset bound is refused. -/
def Step.collects : Step → Option Timestamp
  | .gc upTo => if upTo.isSet then some upTo else none
  | _ => none

/-- The step is a put at a wall that is not negative, or a collection. -/
@[reducible] def Step.versioned : Step → Prop
  | .put _ ts _ => ts.Nonneg
  | .gc _ => True
  | _ => False

instance : (st : Step) → Decidable st.versioned
  | .prewrite .. | .commit .. | .rollback .. | .resolve .. | .put .. | .gc _ | .read .. => inferInstance

namespace Puts

def step (g : Puts) (st : Step) : Puts where
  store := g.store.step st
  accepted := (g.store.accepts st).toList ++ g.accepted
  collected := st.collects.toList ++ g.collected

/-- What was put last for a key at a timestamp. -/
def lastPut (g : Puts) (key : Key) (ts : Timestamp) : Option Bytes :=
  (g.accepted.find? fun e => e.1 = key ∧ e.2.1 = ts).map (·.2.2)

/-- The highest bound collected up to; the zero timestamp before the first collection. -/
def highest (g : Puts) : Timestamp := g.collected.foldr max {}

variable {g : Puts} {key : Key} {ts : Timestamp} {st : Step}

/-- The mark is the highest bound collected up to, every version is the last put at its timestamp, and
an accepted put whose version is gone has a newer version of its key below the mark. -/
structure Kept (g : Puts) : Prop where
  wf : g.store.Wf
  mark : g.store.gcMark = g.highest
  nonneg : g.store.NonnegVersions
  zero_le : {} ≤ g.store.gcMark
  held : ∀ {key ts x}, g.store.versionAt key ts = some x → g.lastPut key ts = some x
  stands : ∀ {key ts x}, g.lastPut key ts = some x → g.store.versionAt key ts = some x ∨
    ∃ t, ts < t ∧ t < g.store.gcMark ∧ (g.store.versionAt key t).isSome

theorem Kept.of_fresh {s : Store} (hs : s.Fresh) : Kept { store := s } := by
  constructor
  · exact hs.wf
  · exact hs.2
  · intro key t
    simp [hs.versionAt]
  · exact hs.2.ge
  · simp [hs.versionAt]
  · simp [lastPut]

theorem Kept.put (hg : g.Kept) {x : Bytes} : (g.step (.put key ts x)).Kept := by
  cases hput : g.store.putInto [] key ts x with
  | error e =>
    have hsame : g.step (.put key ts x) = g := by
      simp [Puts.step, Store.step, Store.accepts, Step.collects, hput, perform]
    rwa [hsame]
  | ok b =>
    obtain ⟨⟨-, habove⟩, -⟩ := putInto_eq_ok.mp hput
    have hstore : (g.step (.put key ts x)).store = g.store.flush b := by
      simp [Puts.step, Store.step, hput, perform]
    have hversion : ∀ k t, (g.step (.put key ts x)).store.versionAt k t =
        if key = k ∧ ts = t then some x else g.store.versionAt k t := by
      intro k t
      rw [hstore]
      exact congrFun (congrFun (congrArg View.version (view_putInto hput)) k) t
    have haccepted : (g.step (.put key ts x)).accepted = (key, ts, x) :: g.accepted := by
      simp [Puts.step, Store.accepts, hput]
    have hlast : ∀ k t, (g.step (.put key ts x)).lastPut k t =
        if key = k ∧ ts = t then some x else g.lastPut k t := by
      intro k t
      rw [lastPut, haccepted, find?_cons]
      by_cases hk : key = k ∧ ts = t
      · simp [hk]
      · simp only [hk, decide_false, if_false]
        rfl
    have hmark : (g.step (.put key ts x)).store.gcMark = g.store.gcMark := by rw [hstore]; rfl
    constructor
    · rw [hstore]
      exact hg.wf.stages (stages_putInto hput)
    · rw [hmark, hg.mark]
      rfl
    · intro k t hsome
      rw [hversion] at hsome
      split at hsome
      · next hk => exact Timestamp.nonneg_zero.of_le (hk.2 ▸ hg.zero_le.trans habove.le)
      · exact hg.nonneg k t hsome
    · exact hmark ▸ hg.zero_le
    · intro k t y
      rw [hversion, hlast]
      split
      · exact id
      · exact hg.held
    · intro k t y hy
      rw [hlast] at hy
      rw [hversion, hmark]
      split at hy
      · next hk => exact .inl (by rw [if_pos hk, hy])
      · next hk =>
        rw [if_neg hk]
        refine (hg.stands hy).imp_right ?_
        rintro ⟨t', hlt, hbelow, hsome⟩
        refine ⟨t', hlt, hbelow, ?_⟩
        rw [hversion]
        split
        · rfl
        · exact hsome

theorem Kept.gc (hg : g.Kept) : (g.step (.gc upTo)).Kept := by
  have hlast : (g.step (.gc upTo)).lastPut = g.lastPut := rfl
  by_cases hup : upTo.isSet ∧ g.store.gcMark < upTo
  · have hmark : (g.step (.gc upTo)).store.gcMark = upTo := by
      simp [Puts.step, step_gc, hup]
    have hsurvive : ∀ {k t}, (g.store.versionAt k t).isSome → t < upTo →
        ∃ t', t ≤ t' ∧ t' < upTo ∧ ((g.step (.gc upTo)).store.versionAt k t').isSome := by
      intro k t hsome hlt
      obtain ⟨t', hrank, hlt', hleft⟩ := hg.wf.exists_survivor hsome hlt
      refine ⟨t', ?_, hlt', hleft⟩
      -- a survivor was a version before, so both walls are not negative
      have hbefore : (g.store.versionAt k t').isSome := by
        rcases hg.wf.version_gc upTo k t' with hsame | ⟨hnone, -⟩
        · exact hsame ▸ hleft
        · rw [hnone] at hleft
          cases hleft
      rw [← not_lt, ← Timestamp.rank_lt_rank (hg.nonneg k t' hbefore) (hg.nonneg k t hsome)]
      exact hrank.not_gt
    constructor
    · exact hg.wf.step _
    · rw [hmark]
      simp only [highest, Puts.step, Step.collects, hup.1, if_true, Option.toList_some,
        singleton_append, foldr_cons]
      exact (max_eq_left (hg.mark ▸ hup.2.le : g.highest ≤ upTo)).symm
    · intro k t hsome
      rcases hg.wf.version_gc upTo k t with hsame | ⟨hnone, -⟩
      · exact hg.nonneg k t (hsame ▸ hsome)
      · exact absurd hsome (by simp [Puts.step, hnone])
    · rw [hmark]
      exact hg.zero_le.trans hup.2.le
    · intro k t x hx
      rcases hg.wf.version_gc upTo k t with hsame | ⟨hnone, -⟩
      · exact hg.held (hsame ▸ hx)
      · cases hnone.symm.trans hx
    · intro k t x hx
      rw [hmark]
      rcases hg.stands hx with hv | ⟨t', hlt, hbelow, hsome⟩
      · rcases hg.wf.version_gc upTo k t with hsame | ⟨hnone, hlt, -⟩
        · exact .inl (hsame.trans hv)
        · obtain ⟨t', hle, hlt', hleft⟩ := hsurvive (by rw [hv]; rfl) hlt
          -- the version itself is gone, so the survivor is a newer one
          refine .inr ⟨t', lt_of_le_of_ne hle ?_, hlt', hleft⟩
          rintro rfl
          exact absurd hleft (by simp [Puts.step, hnone])
      · obtain ⟨t'', hle, hlt', hleft⟩ := hsurvive hsome (hbelow.trans hup.2)
        exact .inr ⟨t'', hlt.trans_le hle, hlt', hleft⟩
  · -- a refused or repeated collection moves nothing, and its bound is not the highest
    have hstore : (g.step (.gc upTo)).store = g.store := by
      simp [Puts.step, step_gc, hup]
    have hhigh : (g.step (.gc upTo)).highest = g.highest := by
      simp only [highest, Puts.step, Step.collects]
      split
      · next hset =>
        have hle : upTo ≤ g.highest := hg.mark ▸ not_lt.mp fun hlt => hup ⟨hset, hlt⟩
        simpa [highest] using hle
      · rfl
    refine ⟨hstore ▸ hg.wf, ?_, hstore ▸ hg.nonneg, hstore ▸ hg.zero_le, ?_, ?_⟩
    · rw [hstore, hhigh, hg.mark]
    · rw [hstore]
      exact hg.held
    · rw [hstore]
      exact hg.stands

theorem Kept.step (hg : g.Kept) (hst : st.versioned) : (g.step st).Kept := by
  cases st with
  | put key ts x => exact hg.put
  | gc upTo => exact hg.gc
  | _ => exact hst.elim

end Puts

theorem le_foldr_max {τ : Type*} [LinearOrder τ] {t b : τ} {l : List τ} :
    t ≤ l.foldr max b ↔ t ≤ b ∨ ∃ u ∈ l, t ≤ u := by
  induction l with
  | nil => simp
  | cons u l ih => simp [ih, or_left_comm]

/-- The versioned reads after any sequence of puts and collections over walls that are not negative. A
read at a timestamp is refused exactly when the timestamp is unset or at or below the highest bound
collected up to; otherwise it answers with the last put of the key at the greatest timestamp at or
below it. A read of the latest version answers with the last put at the greatest timestamp of all. A
collection up to a bound at or below the mark changes nothing. -/
theorem versioned_reads {s : Store} (hfresh : s.Fresh) (steps : List Step)
    (hsteps : ∀ st ∈ steps, st.versioned) (key : Key) :
    let g := steps.foldl Puts.step { store := s }
    (∀ ts : Timestamp, ts.Nonneg →
      ((∃ e, g.store.readAt key ts = .error e) ↔
        ts.isSet = false ∨ ∃ upTo ∈ g.collected, ts ≤ upTo) ∧
      ∀ r, g.store.readAt key ts = .ok r → Newest (g.lastPut key) (· ≤ ts) r) ∧
    Newest (g.lastPut key) (fun _ => True) (g.store.readLatest key) ∧
    ∀ upTo ≤ g.store.gcMark, g.store.step (.gc upTo) = g.store := by
  intro g
  have hg : g.Kept := foldlRecOn steps Puts.step (Puts.Kept.of_fresh hfresh)
    fun _ h st hst => h.step (hsteps st hst)
  have hstands : ∀ {bound : Timestamp → Prop} {r}, (∀ t < g.store.gcMark, bound t) →
      Newest (g.store.versionAt key) bound r → Newest (g.lastPut key) bound r := by
    intro bound r hbound
    refine Newest.of_stands hg.held fun hx => (hg.stands hx).imp_right ?_
    exact fun ⟨t, hlt, hbelow, hsome⟩ => ⟨t, hlt, hbound t hbelow, hsome⟩
  refine ⟨fun ts hts => ⟨?_, ?_⟩, ?_, ?_⟩
  · rw [readAt_refused_iff key hg.wf hg.nonneg hts, hg.mark, Puts.highest, le_foldr_max]
    cases hset : ts.isSet with
    | false => simp
    | true => simp [Timestamp.not_le_zero hset hts]
  · intro r hr
    have hok : ¬ (ts.isSet = false ∨ ts ≤ g.store.gcMark) := fun hrefused => by
      obtain ⟨e, he⟩ := (readAt_refused_iff key hg.wf hg.nonneg hts).mpr hrefused
      cases he.symm.trans hr
    push Not at hok
    obtain ⟨r', hr', hnewest⟩ :=
      hg.wf.readAt_eq_ok key hg.nonneg hts (by simpa using hok.1) hok.2
    cases hr.symm.trans hr'
    exact hstands (fun t ht => (ht.trans hok.2).le) hnewest
  · exact hstands (fun _ _ => trivial) (hg.wf.readLatest_newest hg.nonneg key)
  · intro upTo hle
    rw [step_gc, if_neg fun h => hle.not_gt h.2]

/-- Two puts at one timestamp, a later one, and a collection between them and a put that it refuses:
the read above the bound still finds the second put. -/
theorem versioned_reads_collected :
    let steps := [Step.put someKey { wall := 5 } [1], .put someKey { wall := 5 } [2],
      .put someKey { wall := 30 } [3], .gc { wall := 20 }, .put someKey { wall := 10 } [4]]
    let g := steps.foldl Puts.step { store := { ns := [] } }
    (g.store.readAt someKey { wall := 25 } = .ok (some [2]) ∧ g.store.readLatest someKey = some [3]) ∧
      Newest (g.lastPut someKey) (· ≤ { wall := 25 }) (some [2]) ∧
      Newest (g.lastPut someKey) (fun _ => True) (g.store.readLatest someKey) := by
  have h := versioned_reads (fresh_empty [])
    [Step.put someKey { wall := 5 } [1], .put someKey { wall := 5 } [2],
      .put someKey { wall := 30 } [3], .gc { wall := 20 }, .put someKey { wall := 10 } [4]]
    (by decide) someKey
  exact ⟨by decide +kernel, (h.1 { wall := 25 } (by decide)).2 _ (by decide +kernel), h.2.1⟩

end Rift.Kv
