import Mathlib.Data.List.MinMax
import Rift.Engine.MergedIter

/-!
# Reading a version of the database

What a read sees: the live memtable, the one being flushed, the tables of level 0 and the run of level
1. A lookup (`VersionGet` of `engine-cpp/src/db.cc`) stops at the first store that holds the key, and
asks every store for the newest range tombstone over it, because the tombstone that hides a key need
not live where the key does.
-/

namespace Rift.Engine

open List

/-! ### What is visible -/

/-- The newest version of a key at or below a sequence, if it is a value and no tombstone at or below
the sequence and above the version covers the key. -/
def visible (entries : List Entry) (ranges : List MemRange) (k : Slice) (s : ℕ) : Option Slice :=
  match (entries.filter fun e => e.key = k ∧ e.seq ≤ s).argmax (·.seq) with
  | none => none
  | some e =>
    if e.type = .value ∧ ∀ r ∈ ranges, r.covers k → r.seq ≤ s → r.seq ≤ e.seq then some e.value
    else none

/-- The first in the internal key order is the newest. -/
def Newest (entries : List Entry) (k : Slice) (s : ℕ) : Option Entry → Prop :=
  IsFirst Entry.ikey fun x => x ∈ entries ∧ x.key = k ∧ x.seq ≤ s

/-- What a reader makes of the newest version, given the newest tombstone over its key. -/
def Entry.answer (cover : ℕ) (e : Entry) : Option Slice :=
  if e.seq < cover then none else if e.type = .deletion then none else some e.value

theorem Entry.tag_eq_of_ikey {a b : Entry} (h : a.ikey = b.ikey) :
    a.key = b.key ∧ a.seq = b.seq := by
  have hk : a.key = b.key := congrArg InternalKey.userKey h
  have ht : a.tag = b.tag := congrArg InternalKey.tag h
  refine ⟨hk, ?_⟩
  unfold Entry.tag makeTag at ht
  cases ha : a.type <;> cases hb : b.type <;> simp only [ha, hb, ValueType.toNat] at ht <;> omega

theorem Entry.seq_le_of_ikey_le {a b : Entry} (hk : a.key = b.key) (h : a.ikey ≤ b.ikey) :
    b.seq ≤ a.seq := by
  rcases InternalKey.le_iff.mp h with hlt | ⟨-, ht⟩
  · exact absurd hk hlt.ne
  · rcases ht.lt_or_eq with ht | ht
    · exact Entry.seq_lt_of_tag_lt ht
    · exact (Entry.tag_eq_of_ikey (InternalKey.rank_injective (by
        simp [InternalKey.rank, Entry.ikey, hk, show a.tag = b.tag from ht.symm]))).2.ge

variable {rs : List MemRange} {es : List Entry}

theorem exists_mem_of_visible {k x : Slice} {s : ℕ} (h : visible es rs k s = some x) :
    ∃ e ∈ es, e.key = k := by
  unfold visible at h
  split at h
  · cases h
  · next e he =>
    have := mem_filter.mp (argmax_mem he)
    exact ⟨e, this.1, (of_decide_eq_true this.2).1⟩

theorem visible_eq {k : Slice} {s cover : ℕ}
    (hdist : ∀ x ∈ es, ∀ y ∈ es, x.key = y.key → x.seq = y.seq → x = y) {o : Option Entry}
    (ho : Newest es k s o)
    (hcover : ∀ q, q < cover ↔ ∃ r ∈ rs, r.covers k ∧ q < r.seq ∧ r.seq ≤ s) :
    visible es rs k s = o.bind (Entry.answer cover) := by
  have hmem : ∀ x, x ∈ es.filter (fun e => e.key = k ∧ e.seq ≤ s) ↔ x ∈ es ∧ x.key = k ∧ x.seq ≤ s :=
    fun x => by simp [mem_filter]
  have hmax : (es.filter fun e => e.key = k ∧ e.seq ≤ s).argmax (·.seq) = o := by
    cases hm : (es.filter fun e => e.key = k ∧ e.seq ≤ s).argmax (·.seq) with
    | none =>
      cases o with
      | none => rfl
      | some e =>
        have hmem' := (hmem e).mpr ho.1
        rw [argmax_eq_none.mp hm] at hmem'
        exact absurd hmem' not_mem_nil
    | some m =>
      have hm' := (hmem m).mp (argmax_mem hm)
      cases o with
      | none => exact absurd hm' (ho m)
      | some e =>
        have h₁ : e.seq ≤ m.seq := le_of_mem_argmax ((hmem e).mpr ho.1) hm
        have h₂ : m.seq ≤ e.seq :=
          Entry.seq_le_of_ikey_le (ho.1.2.1.trans hm'.2.1.symm) (ho.2 m hm')
        exact congrArg some (hdist m hm'.1 e ho.1.1 (hm'.2.1.trans ho.1.2.1.symm)
          (le_antisymm h₂ h₁))
  unfold visible
  rw [hmax]
  cases o with
  | none => rfl
  | some e =>
    have hhid : (∀ r ∈ rs, r.covers k → r.seq ≤ s → r.seq ≤ e.seq) ↔ ¬ e.seq < cover := by
      rw [hcover]
      push Not
      exact ⟨fun h r hr hc hlt => not_le.mp fun hs => (h r hr hc hs).not_gt hlt,
        fun h r hr hc hs => not_lt.mp fun hlt => (h r hr hc hlt).not_ge hs⟩
    simp only [hhid, Option.bind_some, Entry.answer]
    cases e.type <;> by_cases hc : e.seq < cover <;> simp [hc]

/-! ### Newest versions -/

section

variable {a b : List Entry} {k : Slice} {s : ℕ} {o : Option Entry}

theorem Newest.append_newer {e : Entry} (h : Newest a k s (some e))
    (hnewer : ∀ x ∈ a, ∀ y ∈ b, x.key = y.key → y.seq < x.seq) : Newest (a ++ b) k s (some e) := by
  refine ⟨⟨mem_append_left b h.1.1, h.1.2⟩, ?_⟩
  rintro x ⟨hx, hk, hs⟩
  rcases mem_append.mp hx with hx | hx
  · exact h.2 x ⟨hx, hk, hs⟩
  · have hlt := hnewer e h.1.1 x hx (h.1.2.1.trans hk.symm)
    refine InternalKey.le_iff.mpr (.inr ⟨h.1.2.1.trans hk.symm, ?_⟩)
    refine le_of_not_gt fun ht => ?_
    exact (Entry.seq_lt_of_tag_lt ht).not_gt hlt

theorem Newest.append_absent (h : Newest a k s none) (h' : Newest b k s o) :
    Newest (a ++ b) k s o := by
  refine h'.congr fun x => ?_
  simp only [mem_append]
  exact ⟨fun hx => ⟨.inr hx.1, hx.2⟩, fun hx => ⟨hx.1.resolve_left fun ha => h x ⟨ha, hx.2⟩, hx.2⟩⟩

/-- The first version from a key and a sequence on, if it is of the key, is the newest. -/
theorem newest_of_first
    (h : IsFirst Entry.ikey (fun x => x ∈ a ∧ (⟨k, makeTag s .value⟩ : InternalKey) ≤ x.ikey) o) :
    Newest a k s (o.filter (·.key = k)) := by
  have hfrom : ∀ x : Entry, x.key = k →
      ((⟨k, makeTag s .value⟩ : InternalKey) ≤ x.ikey ↔ x.seq ≤ s) := by
    rintro x rfl
    rw [InternalKey.le_iff, ← Entry.tag_le_makeTag]
    simp
  cases o with
  | none => exact fun x hx => h x ⟨hx.1, (hfrom x hx.2.1).mpr hx.2.2⟩
  | some e =>
    by_cases hk : e.key = k
    · rw [Option.filter_some_pos (by simpa using hk)]
      refine ⟨⟨h.1.1, hk, (hfrom e hk).mp h.1.2⟩, fun x hx => h.2 x ⟨hx.1, ?_⟩⟩
      exact (hfrom x hx.2.1).mpr hx.2.2
    · rw [Option.filter_some_neg (by simpa using hk)]
      rintro x ⟨hx, hxk, hs⟩
      -- The first one is past the key, and so is everything after it.
      have hle := h.2 x ⟨hx, (hfrom x hxk).mpr hs⟩
      have hlow := InternalKey.userKey_le h.1.2
      have hhigh := InternalKey.userKey_le hle
      exact hk (le_antisymm (hxk ▸ hhigh) hlow)

end

/-- A lookup in a table finds its newest version, unless the filter knows better. -/
theorem Table.get_spec (t : Table) (k : Slice) (s : ℕ) :
    ∃ o, Newest t.entries k s o ∧
      match t.get k s with
      | .absent _ => o = none
      | .deleted => ∃ e, o = some e ∧ e.type = .deletion
      | .found q x => ∃ e, o = some e ∧ e.type ≠ .deletion ∧ e.seq = q ∧ e.value = x := by
  have hfind : IsFirst Entry.ikey
      (fun x => x ∈ t.entries ∧ (⟨k, makeTag s .value⟩ : InternalKey) ≤ x.ikey)
      (seek t.entries k (makeTag s .value)).head? := by
    have hbefore : (fun e : Entry => !e.before k (makeTag s .value)) =
        fun e => !decide (e.ikey < ⟨k, makeTag s .value⟩) :=
      funext fun e => by rw [Bool.eq_iff_iff]; simp [← Entry.before_iff_ikey]
    have hfirst := isFirst_findIdx t.sorted_ikey ⟨k, makeTag s .value⟩
    rwa [Engine.seek, dropWhile_eq_drop_findIdx_not, head?_drop, hbefore]
  unfold Table.get
  by_cases hf : t.mayContain k
  · simp only [hf, Bool.not_true, Bool.false_eq_true, if_false]
    refine ⟨_, newest_of_first hfind, ?_⟩
    cases he : (seek t.entries k (makeTag s .value)).head? with
    | none => rfl
    | some e =>
      by_cases hk : e.key = k
      · by_cases hd : e.type = .deletion <;> simp [hk, hd]
      · simp [hk]
  · simp only [hf, Bool.not_false, if_true]
    refine ⟨none, fun x hx => hf ?_, rfl⟩
    exact hx.2.1 ▸ t.admits x hx.1

/-! ### The run of level 1 -/

/-- A table ends before the next one begins; touching is legal when the bound is exclusive. -/
def Table.precedes (t t' : Table) : Bool :=
  t.check.largestKey.userKey < t'.check.smallestKey.userKey ||
    t.check.largestKey.userKey = t'.check.smallestKey.userKey && t.check.largestIsExclusive

/-- The rule of `VerifyL1IsARun` for tables in key order: disjoint user keys, and only the last may
have no upper bound. -/
def isRun : List Table → Bool
  | t :: t' :: ts => t.precedes t' && !t.check.unboundedEnd && isRun (t' :: ts)
  | _ => true

/-- Step past tables whose exclusive bound is the key. -/
def skipExclusive (l1 : List Table) (key : Slice) : ℕ → ℕ → ℕ
  | 0, lo => lo
  | left + 1, lo =>
    if l1[lo]?.any fun t => t.check.largestIsExclusive && t.check.largestKey.userKey = key then
      skipExclusive l1 key left (lo + 1)
    else lo

/-- The table of the run that could hold a key. -/
def l1FileFor (l1 : List Table) (key : Slice) : Option Table :=
  let lo := bisect (fun i => l1[i]?.any (·.check.largestKey.userKey < key)) l1.length
  match l1[skipExclusive l1 key (l1.length - lo) lo]? with
  | none => none
  | some t => if key < t.check.smallestKey.userKey then none else some t

section

variable {l1 : List Table} {k : Slice} {i j : ℕ} {t u : Table}

theorem Table.precedes_iff : t.precedes u ↔
    t.check.largestKey.userKey < u.check.smallestKey.userKey ∨
      t.check.largestKey.userKey = u.check.smallestKey.userKey ∧ t.check.largestIsExclusive := by
  simp [precedes]

theorem Table.precedes.trans {w : Table} (h : t.precedes u) (h' : u.precedes w) : t.precedes w := by
  rw [Table.precedes_iff] at *
  have hle := InternalKey.userKey_le u.smallest_le_largest
  have hle' : u.check.largestKey.userKey ≤ w.check.smallestKey.userKey :=
    h'.elim le_of_lt fun h => h.1.le
  rcases h with h | ⟨h, hx⟩
  · exact .inl (h.trans_le (hle.trans hle'))
  · rcases (h.le.trans (hle.trans hle')).lt_or_eq with hlt | heq
    · exact .inl hlt
    · exact .inr ⟨heq, hx⟩

theorem isRun_iff :
    isRun l1 ↔ l1.Pairwise fun t u => t.precedes u ∧ t.check.unboundedEnd = false :=
  check_iff_pairwise (fun h h' => ⟨Table.precedes.trans h.1 h'.1, h.2⟩) rfl (fun _ => rfl)
    (fun _ _ _ => by simp [isRun]) l1

theorem getLast?_of_unboundedEnd (h : isRun l1) (ht : t ∈ l1) (hu : t.check.unboundedEnd) :
    l1.getLast? = some t := by
  induction l1 with
  | nil => cases ht
  | cons a ts ih =>
    cases ts with
    | nil => simpa using (mem_singleton.mp ht).symm
    | cons t' ts =>
      simp only [isRun, Bool.and_eq_true, Bool.not_eq_true'] at h
      rcases mem_cons.mp ht with rfl | ht
      · exact absurd hu (by simp [h.1.2])
      · simpa using ih h.2 ht

theorem precedes_of_getElem? (h : isRun l1) (hij : i < j) (ht : l1[i]? = some t)
    (hu : l1[j]? = some u) : t.precedes u := by
  obtain ⟨hi, rfl⟩ := List.getElem?_eq_some_iff.mp ht
  obtain ⟨hj, rfl⟩ := List.getElem?_eq_some_iff.mp hu
  exact List.pairwise_iff_getElem.mp (isRun_iff.mp h) i j hi hj hij |>.1

theorem skipExclusive_eq {left lo : ℕ} (hlo : lo ≤ i) (hleft : i - lo ≤ left)
    (hskip : ∀ j, lo ≤ j → j < i →
      l1[j]?.any fun t => t.check.largestIsExclusive && t.check.largestKey.userKey = k)
    (hstop : ¬ l1[i]?.any fun t => t.check.largestIsExclusive && t.check.largestKey.userKey = k) :
    skipExclusive l1 k left lo = i := by
  induction left generalizing lo with
  | zero =>
    obtain rfl : lo = i := by omega
    rfl
  | succ left ih =>
    unfold skipExclusive
    rcases hlo.lt_or_eq with hlt | rfl
    · rw [if_pos (hskip lo le_rfl hlt)]
      exact ih hlt (by omega) fun j hj => hskip j (by omega)
    · exact if_neg hstop

theorem l1FileFor_eq (h : isRun l1) (ht : l1[i]? = some t) (hk : t.Contains k) :
    l1FileFor l1 k = some t := by
  have hlen := (List.getElem?_eq_some_iff.mp ht).1
  -- The largest user keys ascend with the files.
  have hdown : ∀ a b, a ≤ b → b < l1.length → l1[b]?.any (·.check.largestKey.userKey < k) →
      l1[a]?.any (·.check.largestKey.userKey < k) := by
    intro a b hab hb hlt
    rcases hab.lt_or_eq with hab | rfl
    · have ha := hab.trans hb
      have hp := precedes_of_getElem? h hab (getElem?_eq_getElem ha) (getElem?_eq_getElem hb)
      simp only [getElem?_eq_getElem ha, getElem?_eq_getElem hb, Option.any_some,
        decide_eq_true_eq] at hlt ⊢
      have hle := InternalKey.userKey_le l1[b].smallest_le_largest
      rcases Table.precedes_iff.mp hp with hp | ⟨hp, -⟩
      · exact hp.trans_le (hle.trans hlt.le)
      · exact hp ▸ hle.trans_lt hlt
    · exact hlt
  obtain ⟨-, hlo⟩ := bisect_spec hdown
  set lo := bisect (fun i => l1[i]?.any (·.check.largestKey.userKey < k)) l1.length with hlodef
  have hki : k ≤ t.check.largestKey.userKey := hk.2.elim le_of_lt fun h => h.1.le
  have hloi : lo ≤ i := not_lt.mp fun hlt => by
    have := (hlo i hlen).mpr hlt
    rw [ht, Option.any_some, decide_eq_true_eq] at this
    exact this.not_ge hki
  -- A table before it that does not end below the key ends at it, exclusively.
  have hskip : ∀ j, lo ≤ j → j < i →
      l1[j]?.any fun t => t.check.largestIsExclusive && t.check.largestKey.userKey = k := by
    intro j hj hji
    have hjlen := hji.trans hlen
    have hp := precedes_of_getElem? h hji (getElem?_eq_getElem hjlen) ht
    have hge : ¬ l1[j].check.largestKey.userKey < k := fun hlt =>
      hj.not_gt ((hlo j hjlen).mp (by simpa [getElem?_eq_getElem hjlen] using hlt))
    simp only [getElem?_eq_getElem hjlen, Option.any_some, Bool.and_eq_true, decide_eq_true_eq]
    rcases Table.precedes_iff.mp hp with hp | ⟨hp, hx⟩
    · exact absurd (hp.trans_le hk.1) hge
    · exact ⟨hx, le_antisymm (hp ▸ hk.1) (not_lt.mp hge)⟩
  have hstop : ¬ l1[i]?.any fun t =>
      t.check.largestIsExclusive && t.check.largestKey.userKey = k := by
    rw [ht, Option.any_some, Bool.and_eq_true, decide_eq_true_eq]
    rintro ⟨hx, heq⟩
    rcases hk.2 with hlt | ⟨-, hnx⟩
    · exact hlt.ne heq.symm
    · exact hnx hx
  have hi : skipExclusive l1 k (l1.length - lo) lo = i :=
    skipExclusive_eq hloi (by omega) hskip hstop
  unfold l1FileFor
  dsimp only
  rw [← hlodef, hi, ht]
  exact if_neg hk.1.not_gt

theorem mem_of_l1FileFor (h : l1FileFor l1 k = some t) : t ∈ l1 := by
  unfold l1FileFor at h
  dsimp only at h
  split at h
  · cases h
  · next u hu =>
    split_ifs at h
    cases h
    exact mem_of_getElem? hu

end

/-! ### Versions -/

/-- What a read sees: tables of level 0 newest first, tables of level 1 ascending. -/
structure Version where
  mem : MemTable := {}
  imm : Option MemTable := none
  l0 : List Table := []
  l1 : List Table := []

namespace Version

variable (v : Version)

/-- Every version, store by store, newest store first. -/
def contents : List (List Entry) :=
  v.mem.entries :: (v.imm.toList.map (·.entries) ++ (v.l0.map (·.entries) ++
    if v.l1.isEmpty then [] else [v.l1.flatMap (·.entries)]))

def entries : List Entry := v.contents.flatten

def ranges : List MemRange :=
  v.mem.ranges ++ (v.imm.toList.flatMap (·.ranges) ++
    (v.l0.flatMap (·.tombstones) ++ v.l1.flatMap (·.tombstones)))

/-- The newest range tombstone at or below `snapshot` that covers `k`, across every store. An
unbounded tombstone of level 1 reaches past its table's bounds, so the last table is asked as well. -/
def newestCovering (k : Slice) (snapshot : ℕ) : ℕ :=
  let best := Engine.newestCovering v.mem.ranges k snapshot
  let best := v.imm.toList.foldl (fun best m => max best (Engine.newestCovering m.ranges k snapshot)) best
  let best := v.l0.foldl (fun best t => max best (t.newestCovering k snapshot)) best
  let best := (l1FileFor v.l1 k).toList.foldl
    (fun best t => max best (t.newestCovering k snapshot)) best
  (v.l1.getLast?.filter (·.check.unboundedEnd)).toList.foldl
    (fun best t => max best (t.newestCovering k snapshot)) best

/-- The cursor over every store. -/
def build : Option MergedIter :=
  let m := ({} : MergedIter).addMemTable v.mem
  let m := v.imm.toList.foldl MergedIter.addMemTable m
  (v.l0.foldl MergedIter.addTable m).addRun v.l1

/-- Ask tables in turn. The first that holds the key answers, and a covered value is no answer. -/
def getTables (k : Slice) (snapshot cover : ℕ) : List Table → Option Slice
  | [] => none
  | t :: ts =>
    match t.get k snapshot with
    | .found seq value => if seq < cover then none else some value
    | .deleted => none
    | .absent _ => getTables k snapshot cover ts

/-- A point read. The memtables are asked through a cursor, then the tables of level 0, and then the
one table of level 1 that could hold the key. -/
def get (k : Slice) (snapshot : ℕ) : Option (Option Slice) :=
  if kMaxSeqNum < snapshot then none
  else
    let cover := v.newestCovering k snapshot
    let memOnly := v.imm.toList.foldl MergedIter.addMemTable (({} : MergedIter).addMemTable v.mem)
    match (memOnly.seek ⟨k, makeTag snapshot .value⟩).entry.filter (·.key = k) with
    | some e => some (e.answer cover)
    | none => some (getTables k snapshot cover (v.l0 ++ (l1FileFor v.l1 k).toList))

/-- Memtables are sorted; newer stores hold newer versions of a key; a key has at most one version at a
sequence; and level 1 is a run. -/
structure Layered : Prop where
  mem : v.mem.entries.Pairwise Entry.Lt
  imm : ∀ m ∈ v.imm, m.entries.Pairwise Entry.Lt
  legal : ∀ e ∈ v.entries, e.seq ≤ kMaxSeqNum
  newer : v.contents.Pairwise fun a b => ∀ x ∈ a, ∀ y ∈ b, x.key = y.key → y.seq < x.seq
  distinct : ∀ x ∈ v.entries, ∀ y ∈ v.entries, x.key = y.key → x.seq = y.seq → x = y
  run : isRun v.l1

end Version

theorem lt_foldl_max {α : Type*} {f : α → ℕ} {q best : ℕ} (l : List α) :
    q < l.foldl (fun best x => max best (f x)) best ↔ q < best ∨ ∃ x ∈ l, q < f x := by
  induction l generalizing best with
  | nil => simp
  | cons x l ih => simp [ih, or_assoc]

theorem exists_mem_flatMap {α β : Type*} {l : List α} {f : α → List β} {P : β → Prop} :
    (∃ r, r ∈ l.flatMap f ∧ P r) ↔ ∃ x ∈ l, ∃ r ∈ f x, P r := by
  simp only [mem_flatMap]
  exact ⟨fun ⟨r, ⟨x, hx, hr⟩, h⟩ => ⟨x, hx, r, hr, h⟩, fun ⟨x, hx, r, hr, h⟩ => ⟨r, ⟨x, hx, hr⟩, h⟩⟩

namespace Version

variable {v : Version} {k : Slice} {s q : ℕ}

/-- In a run, a tombstone that covers a key is in the table the search finds, or it has no end and is
in the last table. -/
theorem lt_newestCovering_l1 (h : isRun v.l1) :
    ((∃ t ∈ (l1FileFor v.l1 k).toList, q < t.newestCovering k s) ∨
        ∃ t ∈ (v.l1.getLast?.filter (·.check.unboundedEnd)).toList, q < t.newestCovering k s) ↔
      ∃ r ∈ v.l1.flatMap (·.tombstones), r.covers k ∧ q < r.seq ∧ r.seq ≤ s := by
  simp only [Table.newestCovering, lt_newestCovering, mem_flatMap, Option.mem_toList]
  constructor
  · rintro (⟨t, ht, r, hr, hc⟩ | ⟨t, ht, r, hr, hc⟩)
    · exact ⟨r, ⟨t, mem_of_l1FileFor ht, hr⟩, hc⟩
    · exact ⟨r, ⟨t, mem_of_getLast? (Option.filter_eq_some_iff.mp ht).1, hr⟩, hc⟩
  · rintro ⟨r, ⟨t, ht, hr⟩, hc⟩
    by_cases hu : r.endUnbounded
    · have hue := t.bounds.unbounded r hr hu
      exact .inr ⟨t, Option.filter_eq_some_iff.mpr ⟨getLast?_of_unboundedEnd h ht hue, hue⟩, r, hr, hc⟩
    · obtain ⟨i, hi⟩ := mem_iff_getElem?.mp ht
      exact .inl ⟨t, l1FileFor_eq h hi (Table.contains_of_covers hr hu hc.1), r, hr, hc⟩

theorem lt_newestCovering (h : isRun v.l1) :
    q < v.newestCovering k s ↔ ∃ r ∈ v.ranges, r.covers k ∧ q < r.seq ∧ r.seq ≤ s := by
  unfold newestCovering
  simp only [lt_foldl_max, or_assoc, lt_newestCovering_l1 h]
  simp only [Table.newestCovering, Engine.lt_newestCovering, ranges, mem_append, or_and_right,
    exists_or, exists_mem_flatMap]

/-! ### Lookups -/

theorem getTables_eq {cover : ℕ} {ts : List Table}
    (hnewer : ts.Pairwise fun a b => ∀ x ∈ a.entries, ∀ y ∈ b.entries, x.key = y.key → y.seq < x.seq) :
    ∃ o, Newest (ts.flatMap (·.entries)) k s o ∧
      getTables k s cover ts = o.bind (Entry.answer cover) := by
  induction ts with
  | nil => exact ⟨none, by simp [Newest, IsFirst], rfl⟩
  | cons t ts ih =>
    obtain ⟨hhead, htail⟩ := pairwise_cons.mp hnewer
    obtain ⟨o, ho, hget⟩ := t.get_spec k s
    have hrest : ∀ x ∈ t.entries, ∀ y ∈ ts.flatMap (·.entries), x.key = y.key → y.seq < x.seq := by
      intro x hx y hy
      obtain ⟨u, hu, hy⟩ := mem_flatMap.mp hy
      exact hhead u hu x hx y hy
    rw [flatMap_cons, getTables]
    cases hg : t.get k s with
    | absent filtered =>
      rw [hg] at hget
      obtain ⟨o', ho', hget'⟩ := ih htail
      exact ⟨o', (hget ▸ ho).append_absent ho', hget'⟩
    | deleted =>
      rw [hg] at hget
      obtain ⟨e, rfl, he⟩ := hget
      exact ⟨some e, ho.append_newer hrest, by simp [Entry.answer, he]⟩
    | found q x =>
      rw [hg] at hget
      obtain ⟨e, rfl, he, rfl, rfl⟩ := hget
      exact ⟨some e, ho.append_newer hrest, by simp [Entry.answer, he]⟩

theorem over_memtables (h : v.Layered) :
    (v.imm.toList.foldl MergedIter.addMemTable (({} : MergedIter).addMemTable v.mem)).Over
      (v.mem.entries :: v.imm.toList.map (·.entries)) := by
  have hsort : ∀ {es : List Entry}, es.Pairwise Entry.Lt →
      es.Pairwise (Entry.ikey · < Entry.ikey ·) := fun h => h.imp Entry.lt_iff_ikey.mp
  cases hi : v.imm with
  | none =>
    refine ⟨rfl, fun s hs => ?_⟩
    obtain rfl := mem_singleton.mp hs
    exact hsort h.mem
  | some m =>
    refine ⟨rfl, fun s hs => ?_⟩
    rcases mem_cons.mp hs with rfl | hs
    · exact hsort h.mem
    · obtain rfl := mem_singleton.mp hs
      exact hsort (h.imm m hi)

/-- The table of level 1 that a lookup asks holds every version of the key that level 1 has. -/
theorem newest_l1FileFor (h : isRun v.l1) {a : List Entry} {o : Option Entry} :
    Newest (a ++ v.l1.flatMap (·.entries)) k s o ↔
      Newest (a ++ (l1FileFor v.l1 k).toList.flatMap (·.entries)) k s o := by
  have hiff : ∀ x : Entry, x.key = k →
      (x ∈ v.l1.flatMap (·.entries) ↔ x ∈ (l1FileFor v.l1 k).toList.flatMap (·.entries)) := by
    rintro x rfl
    simp only [mem_flatMap, Option.mem_toList]
    constructor
    · rintro ⟨t, ht, hx⟩
      obtain ⟨i, hi⟩ := mem_iff_getElem?.mp ht
      exact ⟨t, l1FileFor_eq h hi (Table.contains_of_mem hx), hx⟩
    · rintro ⟨t, ht, hx⟩
      exact ⟨t, mem_of_l1FileFor ht, hx⟩
  have hcongr : ∀ x : Entry, (x ∈ a ++ v.l1.flatMap (·.entries) ∧ x.key = k ∧ x.seq ≤ s) ↔
      (x ∈ a ++ (l1FileFor v.l1 k).toList.flatMap (·.entries) ∧ x.key = k ∧ x.seq ≤ s) := fun x =>
    and_congr_left fun hx => by rw [mem_append, mem_append, hiff x hx.1]
  exact ⟨fun hn => hn.congr hcongr, fun hn => hn.congr fun x => (hcongr x).symm⟩

theorem entries_eq : v.entries = (v.mem.entries :: v.imm.toList.map (·.entries)).flatten ++
    (v.l0.flatMap (·.entries) ++ v.l1.flatMap (·.entries)) := by
  unfold entries contents
  cases v.l1 <;> simp [flatMap_def]

theorem get_eq (h : v.Layered) (hs : s ≤ kMaxSeqNum) :
    v.get k s = some (visible v.entries v.ranges k s) := by
  have hcover : ∀ q, q < v.newestCovering k s ↔
      ∃ r ∈ v.ranges, r.covers k ∧ q < r.seq ∧ r.seq ≤ s := fun q => lt_newestCovering h.run
  suffices hsuff : ∃ o, Newest v.entries k s o ∧
      v.get k s = some (o.bind (Entry.answer (v.newestCovering k s))) by
    obtain ⟨o, ho, hget⟩ := hsuff
    rw [hget, visible_eq h.distinct ho hcover]
  obtain ⟨om, hom, hfirst⟩ := MergedIter.stands_seek (over_memtables h) ⟨k, makeTag s .value⟩
  have hmem := newest_of_first hfirst
  have hpair := h.newer
  unfold contents at hpair
  rw [← cons_append] at hpair
  obtain ⟨-, htables, hacross⟩ := pairwise_append.mp hpair
  unfold get
  rw [if_neg hs.not_gt, entries_eq]
  dsimp only
  rw [hom.entry]
  cases hf : om.filter (·.key = k) with
  | some e =>
    rw [hf] at hmem
    refine ⟨some e, hmem.append_newer ?_, rfl⟩
    intro x hx y hy
    obtain ⟨a, ha, hx⟩ := mem_flatten.mp hx
    rcases mem_append.mp hy with hy | hy
    · obtain ⟨t, ht, hy⟩ := mem_flatMap.mp hy
      exact hacross a ha t.entries (mem_append_left _ (mem_map_of_mem ht)) x hx y hy
    · refine hacross a ha (v.l1.flatMap (·.entries)) (mem_append_right _ ?_) x hx y hy
      cases hl : v.l1 with
      | nil => simp [hl] at hy
      | cons t ts => simp
  | none =>
    rw [hf] at hmem
    have hpw : (v.l0 ++ (l1FileFor v.l1 k).toList).Pairwise fun a b =>
        ∀ x ∈ a.entries, ∀ y ∈ b.entries, x.key = y.key → y.seq < x.seq := by
      obtain ⟨hl0, -, hl01⟩ := pairwise_append.mp htables
      refine pairwise_append.mpr ⟨pairwise_map.mp hl0, ?_, ?_⟩
      · cases l1FileFor v.l1 k <;> simp
      · intro a ha b hb x hx y hy
        have hbm := mem_of_l1FileFor (Option.mem_toList.mp hb)
        refine hl01 a.entries (mem_map_of_mem ha) (v.l1.flatMap (·.entries)) ?_ x hx y
          (mem_flatMap.mpr ⟨b, hbm, hy⟩)
        cases hl : v.l1 with
        | nil => simp [hl] at hbm
        | cons t ts => simp
    obtain ⟨o, ho, hget⟩ := @getTables_eq k s (v.newestCovering k s) _ hpw
    rw [flatMap_append] at ho
    exact ⟨o, hmem.append_absent ((newest_l1FileFor h.run).mpr ho), congrArg some hget⟩

end Version

end Rift.Engine
