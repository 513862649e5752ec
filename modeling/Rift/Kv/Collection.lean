import Rift.Kv.Uncertainty

/-!
# Collection and snapshot reads

A collection keeps, of the versions below its bound, the newest one of each key. Versions are ordered
by start timestamps and reads go by commit timestamps, so the kept version need not be the one a read
above the bound answers with: a transaction that started below the bound and committed above the read
takes the place of the one the read sees.

## Main definitions

* `Store.Covered` - no version of the key lies between the version a read sees and the bound.

## Main results

* `Store.Wf.mem_collected_of_newer` - a version below the bound goes when a newer one below the bound
  stands.
* `getTxn_step_gc` - a collection leaves the answer of a read as it was exactly when the read's key is
  covered.
-/

namespace Rift.Kv

open Model List

variable {s : Store} {key : Key} {upTo readTS ceiling c startTS ts ts' : Timestamp} {a : Option Bytes}

namespace Store

/-! ### What a collection removes -/

/-- Once the keeper of a key was met, the walk drops every later version of the key below the
bound. -/
theorem mem_gcScan_of_kept {ns x : Bytes} {m r : List (Bytes × Bytes)} (hts : ts < upTo)
    (hm : ∀ e ∈ m, ∃ t, e.1 = encodeKey ns key t) :
    encodeKey ns key ts ∈ gcScan ns upTo key.1 true (m ++ (encodeKey ns key ts, x) :: r) := by
  have hnot : ¬ upTo.lessEq ts := by simpa using hts
  induction m with
  | nil => simp [gcScan, decodeKey, decodeStamped_metaKey, hnot]
  | cons e m ih =>
    obtain ⟨k, y⟩ := e
    obtain ⟨t, rfl⟩ := hm _ mem_cons_self
    have hrest := ih fun e he => hm e (mem_cons_of_mem _ he)
    simp only [cons_append, gcScan, decodeKey, decodeStamped_metaKey, ne_eq, not_true_eq_false,
      if_false, Bool.not_true, Bool.false_eq_true]
    split
    · exact hrest
    · exact mem_cons_of_mem _ hrest

/-- The walk over the end of a list drops what the walk over the whole list drops there. -/
theorem exists_gcScan_append (ns cur : Bytes) (upTo : Timestamp) (kept : Bool)
    (m l : List (Bytes × Bytes)) :
    ∃ cur' kept', gcScan ns upTo cur' kept' l ⊆ gcScan ns upTo cur kept (m ++ l) := by
  induction m generalizing cur kept with
  | nil => exact ⟨cur, kept, Subset.refl _⟩
  | cons e m ih =>
    simp only [cons_append, gcScan]
    split
    · exact ih cur kept
    · next key ts _ =>
      generalize (if key.1 ≠ cur then false else kept) = flag
      split
      · exact ih key.1 flag
      split
      · exact ih key.1 true
      · obtain ⟨cur', kept', hsub⟩ := ih key.1 flag
        exact ⟨cur', kept', fun _ hk => mem_cons_of_mem _ (hsub hk)⟩

/-- What lies between two strings with a common beginning has that beginning. -/
theorem isPrefix_of_between {p t u k : Bytes} (hlow : p ++ t ≤ k) (hhigh : k < p ++ u) : p <+: k := by
  have hstart : Model.inRange p (prefixEnd p) (p ++ t) := inRange_prefixEnd.mpr (prefix_append p t)
  have hend : Model.inRange p (prefixEnd p) (p ++ u) := inRange_prefixEnd.mpr (prefix_append p u)
  rw [inRange_iff] at hstart hend
  exact inRange_prefixEnd.mp (inRange_iff.mpr
    ⟨hstart.1.trans hlow, fun h hh => hhigh.trans (hend.2 h hh)⟩)

/-- A version below the bound goes when a newer version of its key below the bound stands. -/
theorem Wf.mem_collected_of_newer (hs : s.Wf) (hv : (s.versionAt key ts).isSome)
    (hv' : (s.versionAt key ts').isSome) (hts : ts < upTo) (hts' : ts' < upTo)
    (hrank : ts.rank < ts'.rank) : encodeKey s.ns key ts ∈ s.collected upTo := by
  obtain ⟨x, hx⟩ := Option.isSome_iff_exists.mp hv
  obtain ⟨x', hx'⟩ := Option.isSome_iff_exists.mp hv'
  have hspan : ∀ t, dataSpan s.ns <+: encodeKey s.ns key t := fun t => by
    simp [dataSpan, encodeKey, metaKey]
  have hmem := mem_scan.mpr ⟨hx, hspan ts⟩
  have hmem' := mem_scan.mpr ⟨hx', hspan ts'⟩
  have hsorted : (scan s.db (dataSpan s.ns) (prefixEnd (dataSpan s.ns))).Pairwise
      (fun a b => a.1 < b.1) := s.db.sorted.filter _
  have hsub : ∀ e ∈ scan s.db (dataSpan s.ns) (prefixEnd (dataSpan s.ns)), s.db.get e.1 = some e.2 :=
    fun e he => (mem_scan.mp he).1
  have hless : encodeKey s.ns key ts' < encodeKey s.ns key ts := metaKey_invertedTS_lt.mpr hrank
  rw [collected]
  generalize scan s.db (dataSpan s.ns) (prefixEnd (dataSpan s.ns)) = l at hmem hmem' hsorted hsub
  -- The newer version comes first, and only versions of the same key lie between the two.
  obtain ⟨m₁, l, rfl⟩ := append_of_mem hmem'
  obtain ⟨-, hrest, hbefore⟩ := pairwise_append.mp hsorted
  obtain ⟨hfirst, hrest⟩ := pairwise_cons.mp hrest
  have hlater : (encodeKey s.ns key ts, x) ∈ l := by
    rcases mem_append.mp hmem with hin | hin
    · exact absurd (hbefore _ hin _ mem_cons_self) hless.not_gt
    · rcases mem_cons.mp hin with heq | hin
      · exact absurd (Prod.mk.inj heq).1 hless.ne'
      · exact hin
  obtain ⟨m₂, r, rfl⟩ := append_of_mem hlater
  have hbetween : ∀ e ∈ m₂, ∃ t, e.1 = encodeKey s.ns key t := by
    intro e he
    have hlow := hfirst e (mem_append_left _ he)
    have hhigh : e.1 < encodeKey s.ns key ts :=
      (pairwise_append.mp hrest).2.2 e he _ mem_cons_self
    exact hs.stamped_of_isPrefix (by simp) (hsub e (by simp [he]))
      (isPrefix_of_between hlow.le hhigh)
  obtain ⟨cur, kept, hsub⟩ := exists_gcScan_append s.ns [] upTo false m₁
    ((encodeKey s.ns key ts', x') :: (m₂ ++ (encodeKey s.ns key ts, x) :: r))
  refine hsub ?_
  have hnot : upTo.lessEq ts' = false := by simpa using hts'
  have hdrop := mem_gcScan_of_kept (r := r) (x := x) hts hbetween
  simp only [gcScan, decodeKey, decodeStamped_metaKey, hnot, Bool.false_eq_true, if_false]
  generalize (if key.1 ≠ cur then false else kept) = flag
  cases flag with
  | false => exact hdrop
  | true => exact mem_cons_of_mem _ hdrop

/-- A version goes exactly when it and a newer version of its key lie below a bound above the mark. -/
theorem Anchored.version_gc_eq_none (hs : s.Anchored) (hv : (s.versionAt key ts).isSome) :
    (s.step (.gc upTo)).versionAt key ts = none ↔
      s.gcMark < upTo ∧ ∃ ts', (s.versionAt key ts').isSome ∧ ts < ts' ∧ ts' < upTo := by
  constructor
  · intro hgone
    have hchanged : (s.step (.gc upTo)).versionAt key ts ≠ s.versionAt key ts := by
      rintro heq
      rw [← heq, hgone] at hv
      simp at hv
    obtain ⟨-, -, ts', hv', hup, hrank⟩ := (hs.wf.version_gc upTo key ts).resolve_left hchanged
    refine ⟨?_, ts', hv', (Timestamp.rank_lt_rank (hs.version hv) (hs.version hv')).mp hrank, hup⟩
    by_contra hmark
    rw [step_gc, if_neg (fun h => hmark h.2)] at hchanged
    exact hchanged rfl
  · rintro ⟨hmark, ts', hv', hlt, hup⟩
    have hset : upTo.isSet := Timestamp.isSet_iff.mpr (hs.mark.trans_lt hmark).ne'
    have hrank := (Timestamp.rank_lt_rank (hs.version hv) (hs.version hv')).mpr hlt
    have hin := hs.wf.mem_collected_of_newer hv hv' (hlt.trans hup) hup hrank
    rw [step_gc, if_pos ⟨hset, hmark⟩]
    simp [versionAt, get_applyTo_delete, hin]

/-! ### The version a read sees -/

/-- The newest transaction committed on the key at or below the read has no version of the key between
its own and the bound. -/
def Covered (s : Store) (key : Key) (upTo readTS : Timestamp) : Prop :=
  ∀ c startTS, Visible s.view key readTS c startTS →
    (∀ c' startTS', Visible s.view key readTS c' startTS' → c' ≤ c) →
    ∀ ts, (s.versionAt key ts).isSome → startTS < ts → upTo ≤ ts

/-- Where a version stands, no timestamp of at most its commit's rank is above the commit. -/
theorem Anchored.le_of_rank_le (hs : s.Anchored) (hvis : Visible s.view key readTS c startTS)
    (hv : (s.versionAt key startTS).isSome) {c' : Timestamp} (hrank : c'.rank ≤ c.rank) :
    c' ≤ c := by
  have hn : c.Nonneg := (hs.version hv).of_le (hs.order hvis.1)
  have hn' : c'.Nonneg := Timestamp.Nonneg.of_rank_le hn hrank
  rw [← not_lt, ← Timestamp.rank_lt_rank hn hn']
  exact hrank.not_gt

end Store

open Store

/-- A collection below a snapshot read that answers leaves the answer as it was exactly when the bound
does not pass the mark or no version of the key lies between the version the read sees and the
bound. -/
theorem getTxn_step_gc (hfresh : s.Fresh) (steps : List Step) (hup : upTo < readTS)
    (hread : (steps.foldl Store.step s).getTxn key readTS ceiling = .ok a) :
    ((steps.foldl Store.step s).step (.gc upTo)).getTxn key readTS ceiling = .ok a ↔
      ((steps.foldl Store.step s).gcMark < upTo →
        (steps.foldl Store.step s).Covered key upTo readTS) := by
  have hs := hfresh.anchored_run steps
  generalize steps.foldl Store.step s = s at hs hread
  obtain ⟨hset, hmark, hfree, r, hlatest, hfetch⟩ := getTxn_eq_ok.mp hread
  obtain ⟨hvisible, hmax⟩ := hs.wf.latestVisible_eq_ok hlatest
  have hlock : (s.step (.gc upTo)).lock = s.lock := congrArg View.lock (view_gc s upTo)
  have hmark' : (s.step (.gc upTo)).gcMark < readTS := by
    rcases gcMark_gc s upTo with heq | heq <;> rw [heq] <;> assumption
  -- Only the last step of the read, the fetch of the version, can tell the two stores apart.
  have hafter : (s.step (.gc upTo)).getTxn key readTS ceiling = .ok a ↔
      (s.step (.gc upTo)).fetch key r = .ok a := by
    rw [getTxn_eq_ok, ns_gc, hs.wf.scan_writes_gc, hlatest, hlock]
    exact ⟨fun ⟨_, _, _, _, heq, h⟩ => Except.ok.inj heq ▸ h, fun h => ⟨hset, hmark', hfree, r, rfl, h⟩⟩
  rw [hafter]
  rcases r with _ | ⟨c, startTS⟩
  · refine iff_of_true hfetch fun _ c startTS hvis => ?_
    obtain ⟨_, hnone, -⟩ := hmax c startTS hvis
    cases hnone
  · obtain ⟨x, hx, rfl⟩ : ∃ x, s.versionAt key startTS = some x ∧ a = some x := by
      simp only [fetch] at hfetch
      split at hfetch
      · cases hfetch
      · next x hx => exact ⟨x, hx, (Except.ok.inj hfetch).symm⟩
    have hv : (s.versionAt key startTS).isSome := by rw [hx]; rfl
    have hsee := hvisible _ rfl
    have hnewest : ∀ c' startTS', Visible s.view key readTS c' startTS' → c' ≤ c := by
      intro c' startTS' hvis'
      obtain ⟨_, hmem, hrank⟩ := hmax c' startTS' hvis'
      cases hmem
      exact hs.le_of_rank_le hsee hv hrank
    have hkept : (s.step (.gc upTo)).fetch key (some (c, startTS)) = .ok (some x) ↔
        (s.step (.gc upTo)).versionAt key startTS ≠ none := by
      rcases hs.wf.version_gc upTo key startTS with heq | ⟨hgone, -⟩
      · simp [fetch, heq, hx]
      · simp [fetch, hgone]
    rw [hkept, ne_eq, hs.version_gc_eq_none hv]
    constructor
    · intro hno hpast c' startTS' hvis' hnewest' ts hts hlt
      -- There is one newest visible commit.
      have heq : c' = c := le_antisymm (hnewest _ _ hvis') (hnewest' _ _ hsee)
      have hstart : startTS' = startTS := by
        have h := hvis'.1
        rw [heq, hsee.1] at h
        cases h
        rfl
      rw [hstart] at hlt
      exact not_lt.mp fun hbelow => hno ⟨hpast, ts, hts, hlt, hbelow⟩
    · rintro hcovered ⟨hpast, ts, hts, hlt, hbelow⟩
      exact (hcovered hpast c startTS hsee hnewest ts hts hlt).not_gt hbelow

/-! ### A transaction that spans the bound and the read -/

/-- Prewrites, commits of transactions whose lock stands, and rollbacks. -/
@[reducible] def Mint.allowsLocked (m : Mint) (s : Store) : Step → Prop
  | .prewrite _ l _ => m.starts l.startTS
  | .commit key startTS c =>
    m.starts startTS ∧ m.commitOf startTS = some c ∧ ∃ l ∈ s.lock key, l.startTS = startTS
  | .rollback _ startTS => m.starts startTS
  | _ => False

instance (m : Mint) (s : Store) : (st : Step) → Decidable (m.allowsLocked s st)
  | .prewrite .. | .commit .. | .rollback .. | .resolve .. | .put .. | .gc _ | .read .. => inferInstance

/-- A transaction from 5 to 10 and one from 15 to 30, both on one key. -/
def spanning : List Step :=
  [.prewrite someKey { primary := someKey, startTS := { wall := 5 } } [1],
   .commit someKey { wall := 5 } { wall := 10 },
   .prewrite someKey { primary := someKey, startTS := { wall := 15 } } [2],
   .commit someKey { wall := 15 } { wall := 30 }]

/-- The mint of `spanning`. -/
def spanningMint : Mint :=
  twoTxns { wall := 5 } { wall := 10 } { wall := 15 } { wall := 30 } (by decide)

/-- A read at 35 sees the second transaction, and nothing lies between its version and the bound. -/
theorem getTxn_step_gc_spanning :
    (spanning.foldl Store.step { ns := [] }).getTxn someKey { wall := 35 } { wall := 40 } =
      .ok (some [2]) ∧
    (spanning.foldl Store.step { ns := [] }).Covered someKey { wall := 18 } { wall := 35 } := by
  have hread : (spanning.foldl Store.step { ns := [] }).getTxn someKey { wall := 35 }
      { wall := 40 } = .ok (some [2]) := by decide +kernel
  refine ⟨hread, (getTxn_step_gc (fresh_empty []) spanning (by decide) hread).mp ?_ ?_⟩
  · decide +kernel
  · decide +kernel

/-- The read at 25 sees the first transaction's version, and a collection up to 18 keeps the second's
in its place. -/
theorem collection_hides_version :
    Follows Store.step spanningMint.allowsLocked { ns := [] } spanning ∧
    (spanning.foldl Store.step { ns := [] }).getTxn someKey { wall := 25 } { wall := 25 } =
      .ok (some [1]) ∧
    ((spanning.foldl Store.step { ns := [] }).step (.gc { wall := 18 })).getTxn someKey
      { wall := 25 } { wall := 25 } =
      .error (.missingVersion someKey { wall := 10 } { wall := 5 }) := by
  decide +kernel

end Rift.Kv
