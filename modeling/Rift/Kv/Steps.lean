import Rift.Kv.View
import Rift.Lib.Runs

/-!
# Steps of one store

One store under any sequence of applied operations, each flushed before the next. A step that is
refused stages nothing and leaves the store as it was.
-/

namespace Rift.Kv

open Model List

/-- An operation as it is applied. A read notes its mark. -/
inductive Step
  | prewrite (key : Key) (l : Lock) (value : Bytes)
  | commit (key : Key) (startTS commitTS : Timestamp)
  | rollback (key : Key) (startTS : Timestamp)
  | resolve (key : Key) (l : Lock) (r : Store.Resolution) (commitTS : Timestamp)
  | put (key : Key) (ts : Timestamp) (value : Bytes)
  | gc (upTo : Timestamp)
  | read (key : Key) (readTS : Timestamp)
  deriving DecidableEq

/-- The key, the start timestamp and the commit timestamp of a step that commits. -/
def Step.commits : Step → Option (Key × Timestamp × Timestamp)
  | .commit key startTS c => some (key, startTS, c)
  | .resolve key l .forward c => some (key, l.startTS, c)
  | _ => none

/-- The key and the start timestamp of a step that rolls back. -/
def Step.rollsBack : Step → Option (Key × Timestamp)
  | .rollback key startTS => some (key, startTS)
  | .resolve key l .back _ => some (key, l.startTS)
  | _ => none

namespace Store

variable {s : Store} {key : Key} {ts : Timestamp}

/-- Apply what an operation staged; a refusal stages nothing. -/
def perform (s : Store) : Except KvError Batch → Store
  | .ok b => s.flush b
  | .error _ => s

def step (s : Store) : Step → Store
  | .prewrite key l value => s.perform (s.prewriteInto [] key l value)
  | .commit key startTS commitTS => s.perform (s.commitInto [] key startTS commitTS)
  | .rollback key startTS => s.perform (s.rollbackInto [] key startTS)
  | .resolve key l r commitTS => s.perform (s.applyResolutionInto [] key l r commitTS)
  | .put key ts value => s.perform (s.putInto [] key ts value)
  | .gc upTo =>
    match s.advanceGCInto [] upTo with
    | .ok (b, s', _) => s'.flush b
    | .error _ => s
  | .read key readTS => s.perform (s.noteReadInto [] key readTS)

/-- The engine may hold records of other namespaces, and none of this store's. -/
def Fresh (s : Store) : Prop := (∀ k, s.ns <+: k → s.db.get k = none) ∧ s.gcMark = {}

theorem perform_cases {P : Store → Prop} {r : Except KvError Batch} (hs : P s)
    (h : ∀ b, r = .ok b → P (s.flush b)) : P (s.perform r) := by
  cases r with
  | ok b => exact h b rfl
  | error e => exact hs

/-! ### Collection -/

theorem step_gc {upTo : Timestamp} : s.step (.gc upTo) =
    if upTo.isSet ∧ s.gcMark < upTo then
      { s with gcMark := upTo, db := applyTo s.db ((s.collected upTo).map .delete) }
    else s := by
  cases hset : upTo.isSet with
  | false => simp [step, advanceGCInto, refuseUnset, hset, bind, Except.bind]
  | true =>
    by_cases hle : upTo ≤ s.gcMark
    · simp [step, advanceGCInto, refuseUnset, hset, bind, Except.bind, hle, hle.not_gt, pure,
        Except.pure]
    · simp [step, advanceGCInto, refuseUnset, hset, bind, Except.bind, hle, not_le.mp hle, pure,
        Except.pure, flush]

theorem get_applyTo_delete (v : Version) (ks : List Bytes) (k : Bytes) :
    (applyTo v (ks.map .delete)).get k = if k ∈ ks then none else v.get k := by
  induction ks generalizing v with
  | nil => simp
  | cons k' ks ih =>
    rw [map_cons, applyTo_cons, ih, apply_delete, OrderedMap.get_erase]
    by_cases h : k' = k
    · simp [h]
    · simp [h, Ne.symm h]

theorem Wf.exists_versions (hs : s.Wf) :
    ∃ l : List (Key × Timestamp × Bytes),
      scan s.db (dataSpan s.ns) (prefixEnd (dataSpan s.ns)) =
        l.map (fun e => (encodeKey s.ns e.1 e.2.1, e.2.2)) ∧
      l.Pairwise (fun e f => e.1 = f.1 → f.2.1.rank < e.2.1.rank) ∧
      ∀ e ∈ l, (s.versionAt e.1 e.2.1).isSome := by
  have hmem : scan s.db (dataSpan s.ns) (prefixEnd (dataSpan s.ns)) ∈
      Set.range (map fun e : Key × Timestamp × Bytes => (encodeKey s.ns e.1 e.2.1, e.2.2)) := by
    rw [Set.range_list_map]
    rintro ⟨k, x⟩ hmem
    obtain ⟨hget, hpre⟩ := mem_scan.mp hmem
    obtain ⟨⟨key, ts, rfl⟩, -⟩ := hs k x hget dataPrefix (by simp) hpre
    exact ⟨(key, ts, x), rfl⟩
  obtain ⟨l, hl⟩ := hmem
  refine ⟨l, hl.symm, ?_, ?_⟩
  · have hsorted : (scan s.db (dataSpan s.ns) (prefixEnd (dataSpan s.ns))).Pairwise
        (fun a b => a.1 < b.1) := s.db.sorted.filter _
    rw [← hl, pairwise_map] at hsorted
    refine hsorted.imp fun {e f} hlt heq => ?_
    rw [heq] at hlt
    exact metaKey_invertedTS_lt.mp hlt
  · intro e he
    have hin := mem_map_of_mem (f := fun e : Key × Timestamp × Bytes =>
      (encodeKey s.ns e.1 e.2.1, e.2.2)) he
    rw [hl] at hin
    simp [versionAt, (mem_scan.mp hin).1]

/-- A version a collection removes is below its bound, and so is a version of the same key that the
walk met first. -/
theorem mem_gcScan {ns : Bytes} {upTo : Timestamp} {Newer : Key → Timestamp → Prop}
    {l : List (Key × Timestamp × Bytes)} {cur k : Bytes} {kept : Bool}
    (hsorted : l.Pairwise fun e f => e.1 = f.1 → e.2.1 < upTo → Newer f.1 f.2.1)
    (hkept : kept → ∀ e ∈ l, e.1.1 = cur → Newer e.1 e.2.1)
    (h : k ∈ gcScan ns upTo cur kept (l.map fun e => (encodeKey ns e.1 e.2.1, e.2.2))) :
    ∃ e ∈ l, k = encodeKey ns e.1 e.2.1 ∧ e.2.1 < upTo ∧ Newer e.1 e.2.1 := by
  induction l generalizing cur kept with
  | nil => simp [gcScan] at h
  | cons e l ih =>
    obtain ⟨key, ts, x⟩ := e
    obtain ⟨hfirst, hrest⟩ := pairwise_cons.mp hsorted
    simp only [map_cons, gcScan, decodeKey, decodeStamped_metaKey] at h
    have hkept' : (if key.1 ≠ cur then false else kept) = true →
        key.1 = cur ∧ ∀ e ∈ (key, ts, x) :: l, e.1.1 = cur → Newer e.1 e.2.1 := by
      by_cases hkey : key.1 = cur
      · simpa [hkey] using hkept
      · simp [hkey]
    -- What is known of the rest of the list under the flag the walk carries on with.
    have hlater : ∀ {kept' : Bool}, (kept' → ∀ e ∈ l, e.1.1 = key.1 → Newer e.1 e.2.1) →
        k ∈ gcScan ns upTo key.1 kept' (l.map fun e => (encodeKey ns e.1 e.2.1, e.2.2)) →
        ∃ e ∈ (key, ts, x) :: l, k = encodeKey ns e.1 e.2.1 ∧ e.2.1 < upTo ∧ Newer e.1 e.2.1 := by
      intro kept' hk hmem
      obtain ⟨e, he, hrest⟩ := ih hrest hk hmem
      exact ⟨e, mem_cons_of_mem _ he, hrest⟩
    have hcarry : (if key.1 ≠ cur then false else kept) = true →
        ∀ e ∈ l, e.1.1 = key.1 → Newer e.1 e.2.1 := by
      intro hk e he hekey
      obtain ⟨hcur, hall⟩ := hkept' hk
      exact hall e (mem_cons_of_mem _ he) (hekey.trans hcur)
    generalize (if key.1 ≠ cur then false else kept) = flag at h hkept' hcarry
    by_cases hle : upTo ≤ ts
    · rw [if_pos (Timestamp.lessEq_iff.mpr hle)] at h
      exact hlater hcarry h
    · rw [if_neg (by simpa using hle)] at h
      cases flag with
      | false =>
        refine hlater (fun _ e he hekey => ?_) h
        exact hfirst e he (Subtype.ext hekey.symm) (not_le.mp hle)
      | true =>
        rcases mem_cons.mp h with rfl | h
        · obtain ⟨hcur, hall⟩ := hkept' rfl
          exact ⟨(key, ts, x), mem_cons_self, rfl, not_le.mp hle,
            hall _ mem_cons_self hcur⟩
        · exact hlater hcarry h

/-- A collection removes only versions that a newer version below its bound stands for. -/
theorem Wf.mem_collected (hs : s.Wf) {upTo : Timestamp} {k : Bytes} (h : k ∈ s.collected upTo) :
    ∃ key ts, k = encodeKey s.ns key ts ∧ ts < upTo ∧
      ∃ ts', (s.versionAt key ts').isSome ∧ ts' < upTo ∧ ts.rank < ts'.rank := by
  obtain ⟨l, hscan, hsorted, hmem⟩ := hs.exists_versions
  rw [collected, hscan] at h
  have hnewer : l.Pairwise fun e f => e.1 = f.1 → e.2.1 < upTo →
      ∃ ts', (s.versionAt f.1 ts').isSome ∧ ts' < upTo ∧ f.2.1.rank < ts'.rank := by
    refine hsorted.imp_of_mem fun {e f} he _ hlt hkey hup => ?_
    exact ⟨e.2.1, hkey ▸ hmem e he, hup, hlt hkey⟩
  obtain ⟨e, -, rfl, hlt, hex⟩ := @mem_gcScan s.ns upTo
    (fun key ts => ∃ ts', (s.versionAt key ts').isSome ∧ ts' < upTo ∧ ts.rank < ts'.rank)
    l [] k false hnewer (by simp) h
  exact ⟨e.1, e.2.1, rfl, hlt, hex⟩

theorem isSome_decodeKey_of_mem_gcScan {ns cur k : Bytes} {upTo : Timestamp} {kept : Bool}
    {l : List (Bytes × Bytes)} (h : k ∈ gcScan ns upTo cur kept l) : (decodeKey ns k).isSome := by
  induction l generalizing cur kept with
  | nil => simp [gcScan] at h
  | cons e l ih =>
    rw [gcScan] at h
    split at h
    · exact ih h
    · next key ts hdec =>
      dsimp only at h
      generalize (if key.1 ≠ cur then false else kept) = met at h
      split at h
      · exact ih h
      · split at h
        · exact ih h
        · rcases mem_cons.mp h with rfl | h
          · simp [hdec]
          · exact ih h

theorem view_gc (s : Store) (upTo : Timestamp) :
    (s.step (.gc upTo)).view = { s.view with version := (s.step (.gc upTo)).versionAt } := by
  rw [step_gc]
  split
  · have hne : ∀ (k : UInt8) (key : Key) (t : Bytes), k ≠ dataPrefix →
        metaKey s.ns k key ++ t ∉ s.collected upTo := by
      intro k key t hk hin
      obtain ⟨⟨key', ts⟩, hdec⟩ := Option.isSome_iff_exists.mp (isSome_decodeKey_of_mem_gcScan hin)
      obtain ⟨r, heq⟩ := eq_of_decodeKey hdec
      exact hk (metaKey_append_inj.mp heq).1
    have hlock : ∀ key : Key, lockKey s.ns key ∉ s.collected upTo := fun key hin =>
      hne lockPrefix key [] (by simp) (by rwa [append_nil])
    ext k t <;> simp [view, lock, txn, get_applyTo_delete, hne, hlock]
  · rfl

theorem Wf.version_gc (hs : s.Wf) (upTo : Timestamp) (key : Key) (ts : Timestamp) :
    (s.step (.gc upTo)).versionAt key ts = s.versionAt key ts ∨
      (s.step (.gc upTo)).versionAt key ts = none ∧ ts < upTo ∧
        ∃ ts', (s.versionAt key ts').isSome ∧ ts' < upTo ∧ ts.rank < ts'.rank := by
  rw [step_gc]
  split
  · by_cases hin : encodeKey s.ns key ts ∈ s.collected upTo
    · obtain ⟨key', ts', heq, hrest⟩ := hs.mem_collected hin
      obtain ⟨-, rfl, hts⟩ := metaKey_append_inj.mp heq
      obtain rfl := invertedTS_inj.mp hts
      exact .inr ⟨by simp [versionAt, get_applyTo_delete, hin], hrest⟩
    · exact .inl (by simp [versionAt, get_applyTo_delete, hin])
  · exact .inl rfl

theorem Wf.scan_writes_gc (hs : s.Wf) (upTo : Timestamp) (key : Key) :
    scan (s.step (.gc upTo)).db (keyWrites s.ns key) (prefixEnd (keyWrites s.ns key)) =
      scan s.db (keyWrites s.ns key) (prefixEnd (keyWrites s.ns key)) := by
  rw [step_gc]
  split
  · rw [scan_eq_filter, scan_eq_filter]
    refine OrderedMap.filter_congr fun k x => and_congr_left fun hpre => ?_
    rw [get_applyTo_delete, if_neg]
    intro hin
    obtain ⟨key', ts, rfl, -⟩ := hs.mem_collected hin
    obtain ⟨r, hr⟩ := isPrefixOf_iff_prefix.mp hpre
    simp at hr
  · rfl

theorem gcMark_gc (s : Store) (upTo : Timestamp) :
    (s.step (.gc upTo)).gcMark = s.gcMark ∨ (s.step (.gc upTo)).gcMark = upTo := by
  rw [step_gc]
  split
  · exact .inr rfl
  · exact .inl rfl

theorem ns_gc (s : Store) (upTo : Timestamp) : (s.step (.gc upTo)).ns = s.ns := by
  rw [step_gc]
  split <;> rfl

/-! ### Well-formedness along a run -/

theorem Wf.step (hs : s.Wf) (st : Step) : (s.step st).Wf := by
  cases st with
  | prewrite key l x => exact perform_cases hs fun _ h => hs.stages (stages_prewriteInto h)
  | commit key startTS commitTS => exact perform_cases hs fun _ h => hs.stages (stages_commitInto h)
  | rollback key startTS => exact perform_cases hs fun _ h => hs.stages (stages_rollbackInto h)
  | resolve key l r commitTS =>
    refine perform_cases hs fun b h => ?_
    cases r with
    | forward => exact hs.stages (stages_commitInto h)
    | back => exact hs.stages (stages_rollbackInto h)
    | wait =>
      cases h
      exact hs
  | put key ts x => exact perform_cases hs fun _ h => hs.stages (stages_putInto h)
  | gc upTo =>
    rw [step_gc]
    split
    · have hclean := hs.flush (b := (s.collected upTo).map .delete) (by simp [Clean])
      exact fun k x hget => hclean k x hget
    · exact hs
  | read key readTS => exact perform_cases hs fun _ h => hs.stages (stages_noteReadInto h)

theorem OneMark.congr {s' : Store} (hs : s.OneMark) (h : s'.view.marked = s.view.marked) :
    s'.OneMark := by
  intro key t u ht hu
  rw [h] at ht hu
  exact hs key t u ht hu

theorem OneMark.step (hone : s.OneMark) (hs : s.Wf) (st : Step) : (s.step st).OneMark := by
  cases st with
  | prewrite key l x =>
    exact perform_cases hone fun _ h => hone.congr (by rw [view_prewriteInto h]; rfl)
  | commit key startTS commitTS =>
    exact perform_cases hone fun _ h => hone.congr (by rw [view_commitInto h]; rfl)
  | rollback key startTS =>
    exact perform_cases hone fun _ h => hone.congr (by rw [view_rollbackInto h]; rfl)
  | resolve key l r commitTS =>
    refine perform_cases hone fun b h => ?_
    cases r with
    | forward => exact hone.congr (by rw [view_commitInto h]; rfl)
    | back => exact hone.congr (by rw [view_rollbackInto h]; rfl)
    | wait =>
      cases h
      exact hone
  | put key ts x => exact perform_cases hone fun _ h => hone.congr (by rw [view_putInto h]; rfl)
  | gc upTo => exact hone.congr (by rw [view_gc])
  | read key readTS =>
    refine perform_cases hone fun b h => ?_
    obtain ⟨m, -, -, hview⟩ := view_noteReadInto hs hone h
    intro k t u ht hu
    rw [hview] at ht hu
    simp only [View.note] at ht hu
    split at ht
    · next hk =>
      simp only [hk, if_true, decide_eq_true_eq] at ht hu
      exact ht.symm.trans hu
    · next hk =>
      rw [if_neg hk] at hu
      exact hone k t u ht hu

/-! ### What a step can do -/

/-- What a step can do to the view. -/
inductive Change (s : Store) : Step → View → Prop
  | none (st : Step) (h : ∀ key l x b, st = .prewrite key l x → s.prewriteInto [] key l x ≠ .ok b) :
      Change s st s.view
  | prewrite (key : Key) (l : Lock) (x : Bytes) (b : Batch)
      (h : s.prewriteInto [] key l x = .ok b) :
      Change s (.prewrite key l x) (s.view.prewrite key l x)
  | commit (st : Step) (key : Key) (startTS c : Timestamp) (h : st.commits = some (key, startTS, c)) :
      Change s st (s.view.commit key startTS c)
  | rollback (st : Step) (key : Key) (startTS : Timestamp) (h : st.rollsBack = some (key, startTS)) :
      Change s st (s.view.rollback key startTS)
  | put (key : Key) (ts : Timestamp) (x : Bytes) : Change s (.put key ts x) (s.view.put key ts x)
  | gc (upTo : Timestamp) (version : Key → Timestamp → Option Bytes)
      (h : ∀ key ts, version key ts = s.versionAt key ts ∨ version key ts = Option.none) :
      Change s (.gc upTo) { s.view with version := version }
  | read (key : Key) (readTS mark : Timestamp) (hle : readTS ≤ mark)
      (hmax : ∀ t, s.view.marked key t → t ≤ mark) :
      Change s (.read key readTS) (s.view.note key mark)

theorem change_step (hs : s.Wf) (hone : s.OneMark) (st : Step) : Change s st (s.step st).view := by
  -- A refusal is a step that does nothing.
  have hperform : ∀ (st : Step) (r : Except KvError Batch),
      (∀ key l x b, st = .prewrite key l x → s.prewriteInto [] key l x = .ok b → r = .ok b) →
      (∀ b, r = .ok b → Change s st (s.flush b).view) → Change s st (s.perform r).view := by
    intro st r hpre h
    cases r with
    | ok b => exact h b rfl
    | error e =>
      refine .none st fun key l x b heq hok => ?_
      have := hpre key l x b heq hok
      simp at this
  cases st with
  | prewrite key l x =>
    refine hperform _ _ (fun key' l' x' b heq hok => by cases heq; exact hok) fun b h => ?_
    rw [view_prewriteInto h]
    exact .prewrite key l x b h
  | commit key startTS c =>
    refine hperform _ _ (by simp) fun b h => ?_
    rw [view_commitInto h]
    exact .commit _ key startTS c rfl
  | rollback key startTS =>
    refine hperform _ _ (by simp) fun b h => ?_
    rw [view_rollbackInto h]
    exact .rollback _ key startTS rfl
  | resolve key l r c =>
    refine hperform _ _ (by simp) fun b h => ?_
    cases r with
    | forward =>
      rw [view_commitInto h]
      exact .commit _ key l.startTS c rfl
    | back =>
      rw [view_rollbackInto h]
      exact .rollback _ key l.startTS rfl
    | wait =>
      cases h
      exact .none _ (by simp)
  | put key ts x =>
    refine hperform _ _ (by simp) fun b h => ?_
    rw [view_putInto h]
    exact .put key ts x
  | gc upTo =>
    rw [view_gc]
    exact .gc upTo _ fun key ts => (hs.version_gc upTo key ts).imp_right fun h => h.1
  | read key readTS =>
    refine hperform _ _ (by simp) fun b h => ?_
    obtain ⟨mark, hle, hmax, hview⟩ := view_noteReadInto hs hone h
    rw [hview]
    exact .read key readTS mark hle hmax

namespace Change

variable {st : Step} {v : View} {startTS c : Timestamp} {l : Lock}

theorem real (h : Change s st v) (hw : v.write key c = some (startTS, false)) :
    s.view.write key c = some (startTS, false) ∨ st.commits = some (key, startTS, c) := by
  cases h with
  | commit _ key' startTS' c' h =>
    simp only [View.commit] at hw
    split at hw
    · next hk =>
      obtain ⟨rfl, rfl⟩ := hk
      exact .inr (by rw [h, (Prod.mk.inj (Option.some.inj hw)).1])
    · exact .inl hw
  | rollback _ key' startTS' h =>
    simp only [View.rollback] at hw
    split at hw
    · simp at hw
    · exact .inl hw
  | _ => exact .inl hw

theorem keep (h : Change s st v) {w : Timestamp × Bool} (hw : s.view.write key c = some w) :
    v.write key c = some w ∨
      (∃ startTS, st.commits = some (key, startTS, c) ∧ v.write key c = some (startTS, false)) ∨
      st.rollsBack = some (key, c) := by
  cases h with
  | commit _ key' startTS' c' h =>
    by_cases hk : key' = key ∧ c' = c
    · obtain ⟨rfl, rfl⟩ := hk
      exact .inr (.inl ⟨startTS', h, by simp [View.commit]⟩)
    · exact .inl (by simpa [View.commit, hk] using hw)
  | rollback _ key' startTS' h =>
    by_cases hk : key' = key ∧ startTS' = c
    · obtain ⟨rfl, rfl⟩ := hk
      exact .inr (.inr h)
    · exact .inl (by simpa [View.rollback, hk] using hw)
  | _ => exact .inl hw

theorem release (h : Change s st v) (hl : s.view.lock key = some l) :
    v.lock key = some l ∨
      (∃ c, st.commits = some (key, l.startTS, c) ∧ v.write key c = some (l.startTS, false)) ∨
      st.rollsBack = some (key, l.startTS) := by
  cases h with
  | prewrite key' l' x b h =>
    obtain ⟨⟨-, -, hfree, -⟩, -⟩ := prewriteInto_eq_ok.mp h
    refine .inl ?_
    by_cases hk : key' = key
    · subst hk
      rw [view_lock, hfree] at hl
      simp at hl
    · simpa [View.prewrite, hk] using hl
  | commit _ key' startTS' c' h =>
    by_cases hk : key' = key ∧ l.startTS = startTS'
    · obtain ⟨rfl, rfl⟩ := hk
      exact .inr (.inl ⟨c', h, by simp [View.commit]⟩)
    · refine .inl ?_
      simp only [View.commit, View.release]
      rw [if_neg, hl]
      rintro ⟨rfl, howner⟩
      rw [hl] at howner
      exact hk ⟨rfl, by simpa using howner⟩
  | rollback _ key' startTS' h =>
    by_cases hk : key' = key ∧ l.startTS = startTS'
    · obtain ⟨rfl, rfl⟩ := hk
      exact .inr (.inr h)
    · refine .inl ?_
      simp only [View.rollback, View.release]
      rw [if_neg, hl]
      rintro ⟨rfl, howner⟩
      rw [hl] at howner
      exact hk ⟨rfl, by simpa using howner⟩
  | _ => exact .inl hl

theorem acquire (h : Change s st v) (hl : v.lock key = some l) :
    s.view.lock key = some l ∨
      ∃ x b, st = .prewrite key l x ∧ s.prewriteInto [] key l x = .ok b := by
  cases h with
  | prewrite key' l' x b h =>
    simp only [View.prewrite] at hl
    split at hl
    · next hk =>
      cases hl
      subst hk
      exact .inr ⟨x, b, rfl, h⟩
    · exact .inl hl
  | commit _ key' startTS' c' h =>
    simp only [View.commit, View.release] at hl
    split at hl
    · simp at hl
    · exact .inl hl
  | rollback _ key' startTS' h =>
    simp only [View.rollback, View.release] at hl
    split at hl
    · simp at hl
    · exact .inl hl
  | _ => exact .inl hl

theorem version (h : Change s st v) (key : Key) (ts : Timestamp) :
    v.version key ts = s.view.version key ts ∨ v.version key ts = Option.none ∨
      (∃ l x b, st = .prewrite key l x ∧ l.startTS = ts ∧ s.prewriteInto [] key l x = .ok b) ∨
      ∃ x, st = .put key ts x := by
  cases h with
  | prewrite key' l' x b h =>
    by_cases hk : key' = key ∧ l'.startTS = ts
    · obtain ⟨rfl, rfl⟩ := hk
      exact .inr (.inr (.inl ⟨l', x, b, rfl, rfl, h⟩))
    · exact .inl (by simp [View.prewrite, hk])
  | rollback _ key' startTS' h =>
    by_cases hk : key' = key ∧ startTS' = ts
    · exact .inr (.inl (by simp [View.rollback, hk]))
    · exact .inl (by simp [View.rollback, hk])
  | put key' ts' x =>
    by_cases hk : key' = key ∧ ts' = ts
    · obtain ⟨rfl, rfl⟩ := hk
      exact .inr (.inr (.inr ⟨x, rfl⟩))
    · exact .inl (by simp [View.put, hk])
  | gc upTo version h => exact (h key ts).imp_right .inl
  | _ => exact .inl rfl

theorem marked (h : Change s st v) {t : Timestamp} (hm : s.view.marked key t) :
    ∃ t', t ≤ t' ∧ v.marked key t' := by
  cases h with
  | read key' readTS mark hle hmax =>
    by_cases hk : key' = key
    · subst hk
      exact ⟨mark, hmax t hm, by simp [View.note]⟩
    · exact ⟨t, le_rfl, by simpa [View.note, hk] using hm⟩
  | _ => exact ⟨t, le_rfl, hm⟩

end Change

/-! ### A store with no record of its own -/

theorem Fresh.get (hs : s.Fresh) (kind : UInt8) (key : Key) (t : Bytes) :
    s.db.get (metaKey s.ns kind key ++ t) = none :=
  hs.1 _ ⟨kind :: putBytes key.1 ++ t, by simp [metaKey]⟩

theorem Fresh.view (hs : s.Fresh) :
    s.view = ⟨fun _ => none, fun _ _ => none, fun _ _ => none, fun _ _ => none, fun _ _ => false⟩ := by
  have hlock : ∀ key, s.db.get (lockKey s.ns key) = none := fun key => by
    have h := hs.get lockPrefix key []
    rwa [append_nil] at h
  ext <;> simp [Store.view, lock, versionAt, txn, hs.get, hlock]

theorem Fresh.versionAt (hs : s.Fresh) (key : Key) (ts : Timestamp) : s.versionAt key ts = none :=
  congrFun (congrFun (congrArg View.version hs.view) key) ts

theorem Fresh.wf (hs : s.Fresh) : s.Wf := by
  intro k x hget kind _ hpre
  rw [hs.1 k ((prefix_append _ _).trans hpre)] at hget
  simp at hget

theorem Fresh.oneMark (hs : s.Fresh) : s.OneMark := by
  intro key t u ht
  rw [hs.view] at ht
  simp at ht

theorem fresh_empty (ns : Bytes) : ({ ns := ns } : Store).Fresh := ⟨fun _ _ => rfl, rfl⟩

end Store

/-! ### Timestamps -/

/-- Who may use which timestamp: transactions start at the timestamps in `starts`, each commits at one
timestamp at most, after its start, and no commit timestamp is used twice. -/
structure Mint where
  starts : Timestamp → Bool
  commitOf : Timestamp → Option Timestamp
  lt : ∀ {startTS c}, commitOf startTS = some c → startTS < c
  inj : ∀ {startTS startTS' c}, commitOf startTS = some c → commitOf startTS' = some c →
    startTS = startTS'
  fresh : ∀ {startTS c}, commitOf startTS = some c → ¬ starts c

/-- A key, for examples. -/
def someKey : Key := ⟨[107], by decide⟩

/-- A mint of two transactions. -/
def twoTxns (start₁ commit₁ start₂ commit₂ : Timestamp)
    (h : start₁ < commit₁ ∧ start₂ < commit₂ ∧ commit₁ ≠ commit₂ ∧ commit₁ ≠ start₁ ∧
      commit₁ ≠ start₂ ∧ commit₂ ≠ start₁ ∧ commit₂ ≠ start₂) : Mint where
  starts t := t = start₁ ∨ t = start₂
  commitOf t := if t = start₁ then some commit₁ else if t = start₂ then some commit₂ else none
  lt := by grind
  inj := by grind
  fresh := by grind

end Rift.Kv
