import Rift.Engine.Compaction
import Rift.Engine.Version

/-!
# The drop rule of a compaction

`RunCompaction` of `engine-cpp/src/compaction.cc` drops a version that no observable sequence sees, a
deletion that hides nothing below it, and a tombstone likewise. Whoever reads at an observable
sequence, or above all of them, reads the same as before: with newer data on top, with older data
below, and with any other tombstones around.
-/

namespace Rift.Engine

open List

/-! ### Reads -/

/-- A read of `k` at `s` answers with this version: the newest at or below `s`, a value, and not
covered by a newer tombstone at or below `s`. -/
structure Entry.Read (entries : List Entry) (ranges : List MemRange) (k : Slice) (s : ℕ)
    (e : Entry) : Prop where
  mem : e ∈ entries
  key : e.key = k
  seq_le : e.seq ≤ s
  newest : ∀ x ∈ entries, x.key = k → x.seq ≤ s → x.seq ≤ e.seq
  value : e.type = .value
  clear : ∀ r ∈ ranges, r.covers k → r.seq ≤ s → r.seq ≤ e.seq

/-- A key has at most one version at a sequence. -/
def Distinct (entries : List Entry) : Prop :=
  ∀ x ∈ entries, ∀ y ∈ entries, x.key = y.key → x.seq = y.seq → x = y

theorem Distinct.of_subset {es es' : List Entry} (h : Distinct es) (hsub : ∀ e ∈ es', e ∈ es) :
    Distinct es' :=
  fun x hx y hy => h x (hsub x hx) y (hsub y hy)

section

variable {es es' : List Entry} {rs rs' : List MemRange} {k x : Slice} {s : ℕ}

theorem visible_eq_some_iff (hdist : Distinct es) :
    visible es rs k s = some x ↔ ∃ e : Entry, e.Read es rs k s ∧ e.value = x := by
  have hmem : ∀ e, e ∈ es.filter (fun e => e.key = k ∧ e.seq ≤ s) ↔
      e ∈ es ∧ e.key = k ∧ e.seq ≤ s := fun e => by simp [mem_filter]
  unfold visible
  constructor
  · intro h
    split at h
    · cases h
    · next e he =>
      split_ifs at h with hc
      have hin := (hmem e).mp (argmax_mem he)
      exact ⟨e, ⟨hin.1, hin.2.1, hin.2.2, fun y hy hk hs =>
        le_of_mem_argmax ((hmem y).mpr ⟨hy, hk, hs⟩) he, hc.1, hc.2⟩, Option.some.inj h⟩
  · rintro ⟨e, h, rfl⟩
    have hin := (hmem e).mpr ⟨h.mem, h.key, h.seq_le⟩
    -- of the versions that attain the maximum there is only one
    have hmax : (es.filter fun e => e.key = k ∧ e.seq ≤ s).argmax (·.seq) = some e := by
      cases hm : (es.filter fun e => e.key = k ∧ e.seq ≤ s).argmax (·.seq) with
      | none => exact absurd hin (argmax_eq_none.mp hm ▸ not_mem_nil)
      | some m =>
        have hm' := (hmem m).mp (argmax_mem hm)
        have hle : e.seq ≤ m.seq := le_of_mem_argmax hin hm
        exact congrArg some (hdist m hm'.1 e h.mem (hm'.2.1.trans h.key.symm)
          (le_antisymm (h.newest m hm'.1 hm'.2.1 hm'.2.2) hle))
    rw [hmax]
    exact if_pos ⟨h.value, h.clear⟩

theorem exists_newest_version {e : Entry} (he : e ∈ es) (hk : e.key = k) (hs : e.seq ≤ s) :
    ∃ m ∈ es, m.key = k ∧ m.seq ≤ s ∧ ∀ y ∈ es, y.key = k → y.seq ≤ s → y.seq ≤ m.seq := by
  have hmem : ∀ y, y ∈ es.filter (fun y => y.key = k ∧ y.seq ≤ s) ↔
      y ∈ es ∧ y.key = k ∧ y.seq ≤ s := fun y => by simp [mem_filter]
  cases hm : (es.filter fun y => y.key = k ∧ y.seq ≤ s).argmax (·.seq) with
  | none => exact absurd ((hmem e).mpr ⟨he, hk, hs⟩) (argmax_eq_none.mp hm ▸ not_mem_nil)
  | some m =>
    obtain ⟨hm', hmk, hms⟩ := (hmem m).mp (argmax_mem hm)
    exact ⟨m, hm', hmk, hms, fun y hy hky hys =>
      le_of_mem_argmax ((hmem y).mpr ⟨hy, hky, hys⟩) hm⟩

theorem visible_congr (hdist : Distinct es) (hdist' : Distinct es')
    (h : ∀ e : Entry, e.Read es rs k s ↔ e.Read es' rs' k s) :
    visible es rs k s = visible es' rs' k s := by
  ext x
  rw [visible_eq_some_iff hdist, visible_eq_some_iff hdist']
  simp only [h]

end

/-! ### What goes out -/

namespace Compaction

variable {c : Compaction} {st : DropState} {es : List Entry} {e : Entry} {ss : List ℕ}

/-- The state after some versions. -/
def after (c : Compaction) (st : DropState) (es : List Entry) : DropState :=
  es.foldl (fun st e => (c.step st e).1) st

/-- The sequence of the next newer version of the user key; past the end if there is none. -/
def newerSeq (st : DropState) (e : Entry) : ℕ :=
  if st.currentKey = some e.key then st.newerSeq else kMaxSeqNum + 1

theorem emit_append (as bs : List Entry) :
    c.emit st (as ++ bs) = c.emit st as ++ c.emit (c.after st as) bs := by
  induction as generalizing st with
  | nil => rfl
  | cons a as ih =>
    rw [cons_append, emit, emit, ih, append_assoc]
    rfl

theorem mem_step_iff {st : DropState} : e ∈ (c.step st e).2.toList.map Prod.fst ↔
    c.keeps (newerSeq st e) e ∨ e.seq = c.pinSeq ∧ st.pinSatisfied = false := by
  have hstep : (c.step st e).2 =
      if c.keeps (newerSeq st e) e || e.seq = c.pinSeq && !st.pinSatisfied then
        some (e, decide (newerSeq st e = kMaxSeqNum + 1)) else none := rfl
  rw [hstep]
  split_ifs with h
  · simpa using h
  · simpa using h

theorem mem_emit_iff : e ∈ (c.emit st es).map Prod.fst ↔
    ∃ as bs, es = as ++ e :: bs ∧ (c.keeps (newerSeq (c.after st as) e) e ∨
      e.seq = c.pinSeq ∧ (c.after st as).pinSatisfied = false) := by
  constructor
  · intro h
    induction es generalizing st with
    | nil => cases h
    | cons a es ih =>
      rw [emit, map_append, mem_append] at h
      rcases h with h | h
      · obtain ⟨p, hp, rfl⟩ := mem_map.mp h
        obtain ⟨rfl, -⟩ := step_snd (Option.mem_toList.mp hp)
        exact ⟨[], es, rfl, mem_step_iff.mp h⟩
      · obtain ⟨as, bs, rfl, hk⟩ := ih h
        exact ⟨a :: as, bs, rfl, hk⟩
  · rintro ⟨as, bs, rfl, hk⟩
    rw [emit_append, emit, map_append, map_append]
    exact mem_append_right _ (mem_append_left _ (mem_step_iff.mpr hk))

/-- At a sequence below the next newer version, and only there, nothing newer is seen. -/
theorem lt_newerSeq_iff {as bs : List Entry} (hs : (as ++ e :: bs).Pairwise Entry.Lt)
    (hdist : Distinct (as ++ e :: bs)) {s : ℕ} (hmax : s ≤ kMaxSeqNum) :
    s < newerSeq (c.after {} as) e ↔
      ∀ x ∈ as ++ e :: bs, x.key = e.key → e.seq < x.seq → s < x.seq := by
  obtain ⟨has, hbs, hab⟩ := pairwise_append.mp hs
  have hseq : ∀ {x y : Entry}, Entry.Lt x y → x.key = y.key → y.seq ≤ x.seq := fun h hk =>
    Entry.seq_le_of_ikey_le hk (Entry.lt_iff_ikey.mp h).le
  -- whatever is newer comes before
  have hbefore : ∀ x ∈ as ++ e :: bs, x.key = e.key → e.seq < x.seq → x ∈ as := by
    intro x hx hk hlt
    rcases mem_append.mp hx with hx | hx
    · exact hx
    · rcases mem_cons.mp hx with rfl | hx
      · exact absurd hlt (lt_irrefl _)
      · exact absurd hlt (not_lt.mpr (hseq ((pairwise_cons.mp hbs).1 x hx) hk.symm))
  rcases eq_nil_or_concat as with rfl | ⟨as, y, rfl⟩
  · refine ⟨fun _ x hx hk hlt => ?_, fun _ => Nat.lt_succ_of_le hmax⟩
    exact absurd (hbefore x hx hk hlt) not_mem_nil
  · rw [concat_eq_append] at *
    have hy : y ∈ as ++ [y] := mem_append_right _ (mem_singleton_self y)
    have hlast : newerSeq (c.after {} (as ++ [y])) e =
        if y.key = e.key then y.seq else kMaxSeqNum + 1 := by
      simp [newerSeq, after, step]
    have hye := hab y hy e mem_cons_self
    rw [hlast]
    split_ifs with hk
    · have hlt : e.seq < y.seq := by
        refine lt_of_le_of_ne (hseq hye hk) fun heq => ?_
        have : y = e := hdist y (mem_append_left _ hy) e
          (mem_append_right _ mem_cons_self) hk heq.symm
        exact Entry.Lt.irrefl e (this ▸ hye)
      refine ⟨fun h x hx hkx hltx => ?_, fun h => h y (mem_append_left _ hy) hk hlt⟩
      rcases mem_append.mp (hbefore x hx hkx hltx) with hx | hx
      · have hxy := (pairwise_append.mp has).2.2 x hx y (mem_singleton_self y)
        exact h.trans_le (hseq hxy (hkx.trans hk.symm))
      · rwa [mem_singleton.mp hx]
    · refine ⟨fun _ x hx hkx hltx => absurd ?_ hk, fun _ => Nat.lt_succ_of_le hmax⟩
      -- between two versions of a user key there is no other key
      rcases mem_append.mp (hbefore x hx hkx hltx) with hx | hx
      · have hxy := (pairwise_append.mp has).2.2 x hx y (mem_singleton_self y)
        have hle : ∀ {a b : Entry}, Entry.Lt a b → a.key ≤ b.key := fun h =>
          (Entry.lt_iff.mp h).elim le_of_lt fun h => h.1.le
        exact le_antisymm (hle hye) (hkx ▸ hle hxy)
      · rw [← mem_singleton.mp hx, hkx]

/-- A value is seen at some sequence: it is the newest version there, and no tombstone hides it. -/
theorem seen_iff {newer : ℕ} (hs : ss.Pairwise (· < ·)) :
    c.seen newer e ss ↔ ∃ s ∈ ss, e.seq ≤ s ∧ s < newer ∧
      ∀ r ∈ c.tombstones, r.covers e.key → r.seq ≤ s → r.seq ≤ e.seq := by
  have hcover : ∀ s, e.seq < newestCovering c.tombstones e.key s ↔
      ¬ ∀ r ∈ c.tombstones, r.covers e.key → r.seq ≤ s → r.seq ≤ e.seq := by
    intro s
    rw [lt_newestCovering]
    push Not
    exact ⟨fun ⟨r, hr, hc, hlt, hle⟩ => ⟨r, hr, hc, hle, hlt⟩,
      fun ⟨r, hr, hc, hle, hlt⟩ => ⟨r, hr, hc, hlt, hle⟩⟩
  induction ss with
  | nil => simp [seen]
  | cons s ss ih =>
    obtain ⟨hss, hs'⟩ := pairwise_cons.mp hs
    rw [seen, exists_mem_cons_iff]
    split_ifs with h₁ h₂ h₃
    · exact (ih hs').trans (or_iff_right fun h => absurd h.1 (not_le.mpr h₁)).symm
    · -- the sequences ascend, so no later one lies below the newer version
      simp only [false_iff, not_or]
      refine ⟨fun h => absurd h.2.1 (not_lt.mpr h₂), ?_⟩
      rintro ⟨q, hq, -, hlt, -⟩
      exact absurd (h₂.trans (hss q hq).le) (not_le.mpr hlt)
    · exact (ih hs').trans (or_iff_right fun h => (hcover s).mp h₃ h.2.2).symm
    · simp only [true_iff]
      exact .inl ⟨not_lt.mp h₁, not_le.mp h₂, not_not.mp fun h => h₃ ((hcover s).mpr h)⟩

theorem anyObservableBelow_eq_false (hs : ss.Pairwise (· < ·)) {q s : ℕ}
    (h : anyObservableBelow ss q = false) (hmem : s ∈ ss) : q ≤ s := by
  cases ss with
  | nil => cases hmem
  | cons a ss =>
    have ha : q ≤ a := by simpa [anyObservableBelow] using h
    rcases mem_cons.mp hmem with rfl | hmem
    · exact ha
    · exact ha.trans ((pairwise_cons.mp hs).1 s hmem).le

/-- What a caller guarantees. The inputs are in order; the observable sequences ascend, and the last
one is at or above the inputs; nothing in the inputs is newer than the pinned sequence; older data is
older; and at the bottom there is none of it under the inputs. -/
structure Sound (c : Compaction) (es below : List Entry) : Prop where
  sorted : es.Pairwise Entry.Lt
  distinct : Distinct es
  ascending : c.observable.Pairwise (· < ·)
  legal : ∀ s ∈ c.observable, s ≤ kMaxSeqNum
  last : ∃ q ∈ c.observable, (∀ e ∈ es, e.seq ≤ q) ∧ ∀ r ∈ c.tombstones, r.seq ≤ q
  pin : (∀ e ∈ es, e.seq ≤ c.pinSeq) ∧ ∀ r ∈ c.tombstones, r.seq ≤ c.pinSeq
  older : ∀ x ∈ below, ∀ e ∈ es, x.key = e.key → x.seq < e.seq
  bottom : c.bottomMost → ∀ x ∈ below,
    (∀ e ∈ es, e.key ≠ x.key) ∧ ∀ r ∈ c.tombstones, ¬ r.covers x.key

namespace Sound

variable {below : List Entry}

theorem mem_emit_of_seen (h : c.Sound es below) (he : e ∈ es) (hv : e.type = .value) {q : ℕ}
    (hq : q ∈ c.observable) (hle : e.seq ≤ q)
    (hnew : ∀ x ∈ es, x.key = e.key → e.seq < x.seq → q < x.seq)
    (hclear : ∀ r ∈ c.tombstones, r.covers e.key → r.seq ≤ q → r.seq ≤ e.seq) :
    e ∈ (c.emit {} es).map Prod.fst := by
  obtain ⟨as, bs, rfl⟩ := append_of_mem he
  refine mem_emit_iff.mpr ⟨as, bs, rfl, .inl ?_⟩
  have hlt := (@lt_newerSeq_iff c e as bs h.sorted h.distinct q (h.legal q hq)).mpr hnew
  unfold keeps
  rw [hv]
  exact (seen_iff h.ascending).mpr ⟨q, hq, hle, hlt, hclear⟩

/-- A value that goes out is read at an observable sequence, or nothing in the inputs is newer. -/
theorem of_mem_emit (h : c.Sound es below) (he : e ∈ (c.emit {} es).map Prod.fst)
    (hv : e.type = .value) :
    (∃ q ∈ c.observable, (∀ x ∈ es, x.key = e.key → e.seq < x.seq → q < x.seq) ∧
      ∀ r ∈ c.tombstones, r.covers e.key → r.seq ≤ q → r.seq ≤ e.seq) ∨ e.seq = c.pinSeq := by
  obtain ⟨as, bs, rfl, hk | hk⟩ := mem_emit_iff.mp he
  · unfold keeps at hk
    rw [hv] at hk
    obtain ⟨q, hq, -, hlt, hclear⟩ := (seen_iff h.ascending).mp hk
    exact .inl ⟨q, hq, (lt_newerSeq_iff h.sorted h.distinct (h.legal q hq)).mp hlt, hclear⟩
  · exact .inr hk.1

theorem of_deletion_dropped (h : c.Sound es below) (he : e ∈ es) (hd : e.type = .deletion)
    (hnot : e ∉ (c.emit {} es).map Prod.fst) :
    c.bottomMost = true ∧ ∀ q ∈ c.observable, e.seq ≤ q := by
  obtain ⟨as, bs, rfl⟩ := append_of_mem he
  have hk : c.keeps (newerSeq (c.after {} as) e) e = false := by
    by_contra hk
    exact hnot (mem_emit_iff.mpr ⟨as, bs, rfl, .inl (Bool.eq_true_of_not_eq_false hk)⟩)
  simp only [keeps, hd, Bool.or_eq_false_iff, Bool.not_eq_false'] at hk
  exact ⟨hk.1, fun q hq => anyObservableBelow_eq_false h.ascending hk.2 hq⟩

theorem of_tombstone_dropped (h : c.Sound es below) {r : MemRange} (hr : r ∈ c.tombstones)
    (hnot : r ∉ c.survivors) : c.bottomMost = true ∧ ∀ q ∈ c.observable, r.seq ≤ q := by
  have hgone : c.bottomMost = true ∧ anyObservableBelow c.observable r.seq = false := by
    by_contra hkeep
    refine hnot (mem_filter.mpr ⟨hr, ?_⟩)
    simpa [imp_iff_not_or] using hkeep
  exact ⟨hgone.1, fun q hq => anyObservableBelow_eq_false h.ascending hgone.2 hq⟩

/-- Where every observable sequence is at or above some sequence, a value that goes out is not older
than a version or a tombstone of the inputs there. -/
theorem not_lt_of_mem_emit (h : c.Sound es below) (he : e ∈ (c.emit {} es).map Prod.fst)
    (hv : e.type = .value) {n : ℕ} (hobs : ∀ q ∈ c.observable, n ≤ q)
    (hn : (∃ x ∈ es, x.key = e.key ∧ x.seq = n) ∨
      ∃ r ∈ c.tombstones, r.covers e.key ∧ r.seq = n) : ¬ e.seq < n := by
  intro hlt
  rcases h.of_mem_emit he hv with ⟨q, hq, hnew, hclear⟩ | hpin
  · rcases hn with ⟨x, hx, hk, rfl⟩ | ⟨r, hr, hc, rfl⟩
    · exact absurd (hobs q hq) (not_le.mpr (hnew x hx hk hlt))
    · exact absurd (hclear r hr hc (hobs q hq)) (not_le.mpr hlt)
  · rcases hn with ⟨x, hx, -, rfl⟩ | ⟨r, hr, -, rfl⟩
    · exact absurd (h.pin.1 x hx) (not_le.mpr (hpin ▸ hlt))
    · exact absurd (h.pin.2 r hr) (not_le.mpr (hpin ▸ hlt))

variable {newer : List Entry} {s n : ℕ}

/-- Neither is newer data, and at the bottom there is no older data in question. -/
theorem not_lt_of_mem (h : c.Sound es below) (hnewer : ∀ x ∈ newer, c.pinSeq < x.seq)
    (he : e ∈ newer ++ ((c.emit {} es).map Prod.fst ++ below)) (hv : e.type = .value)
    (hbot : c.bottomMost = true) (hobs : ∀ q ∈ c.observable, n ≤ q)
    (hn : (∃ x ∈ es, x.key = e.key ∧ x.seq = n) ∨
      ∃ r ∈ c.tombstones, r.covers e.key ∧ r.seq = n) : ¬ e.seq < n := by
  intro hlt
  rcases mem_append.mp he with he | he
  · have hpin : n ≤ c.pinSeq := by
      rcases hn with ⟨x, hx, -, rfl⟩ | ⟨r, hr, -, rfl⟩
      · exact h.pin.1 x hx
      · exact h.pin.2 r hr
    exact absurd ((hnewer e he).trans hlt) (not_lt.mpr hpin)
  · rcases mem_append.mp he with he | he
    · exact h.not_lt_of_mem_emit he hv hobs hn hlt
    · rcases hn with ⟨x, hx, hk, -⟩ | ⟨r, hr, hc, -⟩
      · exact (h.bottom hbot e he).1 x hx hk
      · exact (h.bottom hbot e he).2 r hr hc

/-- Some observable sequence at or below `s` sees of the inputs what `s` sees. -/
theorem exists_observer (h : c.Sound es below)
    (hobs : s ∈ c.observable ∨ ∀ q ∈ c.observable, q ≤ s) :
    ∃ q ∈ c.observable, q ≤ s ∧ (∀ x ∈ es, x.seq ≤ s → x.seq ≤ q) ∧
      ∀ r ∈ c.tombstones, r.seq ≤ s → r.seq ≤ q := by
  rcases hobs with hs | hs
  · exact ⟨s, hs, le_rfl, fun _ _ h => h, fun _ _ h => h⟩
  · obtain ⟨q, hq, he, hr⟩ := h.last
    exact ⟨q, hq, hs q hq, fun x hx _ => he x hx, fun r hx _ => hr r hx⟩

/-- A newest version of the inputs that no tombstone of theirs hides goes out. -/
theorem mem_emit_of_newest (h : c.Sound es below)
    (hobs : s ∈ c.observable ∨ ∀ q ∈ c.observable, q ≤ s) (he : e ∈ es) (hv : e.type = .value)
    (hle : e.seq ≤ s) (hnew : ∀ x ∈ es, x.key = e.key → x.seq ≤ s → x.seq ≤ e.seq)
    (hclear : ∀ r ∈ c.tombstones, r.covers e.key → r.seq ≤ s → r.seq ≤ e.seq) :
    e ∈ (c.emit {} es).map Prod.fst := by
  obtain ⟨q, hq, hqs, hsame, -⟩ := h.exists_observer hobs
  refine h.mem_emit_of_seen he hv hq (hsame e he hle) (fun x hx hk hlt => ?_) fun r hr hc hrq =>
    hclear r hr hc (hrq.trans hqs)
  by_contra hxq
  exact absurd (hnew x hx hk ((not_lt.mp hxq).trans hqs)) (not_le.mpr hlt)

/-- At an observable sequence, or above all of them, a read answers with the same version before and
after. On top of the inputs there may be newer data, and around them any other tombstones. -/
theorem read_iff (h : c.Sound es below) (hnewer : ∀ x ∈ newer, c.pinSeq < x.seq)
    (hobs : s ∈ c.observable ∨ ∀ q ∈ c.observable, q ≤ s) (others : List MemRange) (k : Slice) :
    e.Read (newer ++ (es ++ below)) (c.tombstones ++ others) k s ↔
      e.Read (newer ++ ((c.emit {} es).map Prod.fst ++ below)) (c.survivors ++ others) k s := by
  have hsub : ∀ x ∈ newer ++ ((c.emit {} es).map Prod.fst ++ below),
      x ∈ newer ++ (es ++ below) := fun x hx => by
    simp only [mem_append] at hx ⊢
    exact hx.imp_right (Or.imp_left fun hx => emit_sublist.subset hx)
  constructor
  · intro hread
    refine ⟨?_, hread.key, hread.seq_le, fun x hx => hread.newest x (hsub x hx), hread.value,
      fun r hr => hread.clear r ?_⟩
    · have hmem := hread.mem
      simp only [mem_append] at hmem ⊢
      refine hmem.imp_right (Or.imp_left fun he => ?_)
      refine h.mem_emit_of_newest hobs he hread.value hread.seq_le (fun x hx hk => ?_) ?_
      · exact hread.newest x (by simp [hx]) (hk.trans hread.key)
      · exact fun r hr hc => hread.clear r (by simp [hr]) (hread.key ▸ hc)
    · simp only [mem_append] at hr ⊢
      exact hr.imp_left mem_of_mem_filter
  · intro hread
    -- a dropped tombstone would have hidden only what is not there any more
    have hclear : ∀ r ∈ c.tombstones ++ others, r.covers k → r.seq ≤ s → r.seq ≤ e.seq := by
      intro r hr hc hle
      rcases mem_append.mp hr with hr | hr
      · by_cases hs : r ∈ c.survivors
        · exact hread.clear r (mem_append_left _ hs) hc hle
        · obtain ⟨hbot, hall⟩ := h.of_tombstone_dropped hr hs
          exact not_lt.mp (h.not_lt_of_mem hnewer hread.mem hread.value hbot hall
            (.inr ⟨r, hr, hread.key ▸ hc, rfl⟩))
      · exact hread.clear r (mem_append_right _ hr) hc hle
    refine ⟨hsub e hread.mem, hread.key, hread.seq_le, ?_, hread.value, hclear⟩
    -- neither was there a newer version: it would have gone out, or hidden what is read
    by_contra hnot
    push Not at hnot
    obtain ⟨x, hx, hk, hle, hlt⟩ := hnot
    have hin : x ∈ es := by
      by_contra hout
      refine absurd (hread.newest x ?_ hk hle) (not_le.mpr hlt)
      simp only [mem_append] at hx ⊢
      exact hx.imp_right fun hx => .inr (hx.resolve_left hout)
    obtain ⟨m, hm, hmk, hms, hmax⟩ := exists_newest_version hin hk hle
    have hem : e.seq < m.seq := hlt.trans_le (hmax x hin hk hle)
    have hgone : m ∉ (c.emit {} es).map Prod.fst := fun hout =>
      absurd (hread.newest m (mem_append_right _ (mem_append_left _ hout)) hmk hms)
        (not_le.mpr hem)
    cases hv : m.type with
    | deletion =>
      obtain ⟨hbot, hall⟩ := h.of_deletion_dropped hm hv hgone
      exact h.not_lt_of_mem hnewer hread.mem hread.value hbot hall
        (.inl ⟨m, hm, hmk.trans hread.key.symm, rfl⟩) hem
    | value =>
      refine hgone (h.mem_emit_of_newest hobs hm hv hms (fun y hy hky => ?_) fun r hr hc hrs => ?_)
      · exact hmax y hy (hky.trans hmk)
      · exact (hclear r (mem_append_left _ hr) (hmk ▸ hc) hrs).trans hem.le

end Sound

/-! ### Any sink -/

/-- Where a compaction writes to. -/
structure Sink (σ : Type) where
  setTombstones : σ → List MemRange → σ
  add : σ → Entry → Bool → Option σ

/-- `RunCompaction`. The sink is given the tombstones before the first version, and it decides where a
file begins. -/
def runCompaction {σ : Type} (sink : Sink σ) (c : Compaction) (bound : ℕ) (input : MergedIter)
    (out : σ) : Option σ := do
  if c.observable.Pairwise (· < ·) then
    let es ← input.seekToFirst.drain bound
    (c.emit {} es).foldlM (fun out p => sink.add out p.1 p.2) (sink.setTombstones out c.survivors)
  else none

/-- The sink that writes tables. -/
def rollerSink : Sink TableRoller where
  setTombstones := TableRoller.setTombstones
  add := TableRoller.add

/-- The compaction of the database is a run into tables, and the last table is closed. -/
theorem run_eq_runCompaction (bound : ℕ) (input : MergedIter) (r : TableRoller) :
    c.run bound input r = (runCompaction rollerSink c bound input r).bind TableRoller.finish := by
  unfold run runCompaction
  split_ifs with h
  · simp only [Option.bind_eq_bind, Option.bind_assoc]
    rfl
  · rfl

/-- What a sink was given. -/
structure Outputs where
  tombstones : List MemRange := []
  entries : List Entry := []
  deriving DecidableEq, Repr

/-- The sink that keeps everything. -/
def keepSink : Sink Outputs where
  setTombstones out tombstones := { out with tombstones := tombstones }
  add out e _ := some { out with entries := out.entries ++ [e] }

theorem foldlM_keepSink (ps : List (Entry × Bool)) (out : Outputs) :
    ps.foldlM (fun out p => keepSink.add out p.1 p.2) out =
      some { out with entries := out.entries ++ ps.map Prod.fst } := by
  induction ps generalizing out with
  | nil => simp
  | cons p ps ih =>
    rw [foldlM_cons]
    refine (ih _).trans ?_
    simp

/-- The drop rule is sound: at an observable sequence, or above all of them, a read of the outputs
answers with the version that a read of the inputs answers with, over any older data. -/
theorem runCompaction_keeps_reads {bound : ℕ} {input : MergedIter} {below : List Entry}
    (hin : input.seekToFirst.drain bound = some es) (h : c.Sound es below) :
    ∃ out, runCompaction keepSink c bound input {} = some out ∧
      ∀ (ranges : List MemRange) (k : Slice) (s : ℕ),
        (s ∈ c.observable ∨ ∀ q ∈ c.observable, q ≤ s) → ∀ e : Entry,
          e.Read (es ++ below) (c.tombstones ++ ranges) k s ↔
            e.Read (out.entries ++ below) (out.tombstones ++ ranges) k s := by
  refine ⟨⟨c.survivors, (c.emit {} es).map Prod.fst⟩, ?_, fun ranges k s hs e => ?_⟩
  · unfold runCompaction
    rw [if_pos h.ascending, hin, Option.bind_eq_bind, Option.bind_some, foldlM_keepSink]
    rfl
  · have hnone : ∀ x ∈ ([] : List Entry), c.pinSeq < x.seq := by simp
    exact h.read_iff hnone hs ranges k

/-- Two versions of the key 1 with a deletion on top, one of the key 2 under a tombstone, and someone
who reads at 3. -/
def sampleInputs : List Entry :=
  [{ key := [1], seq := 5, type := .deletion }, { key := [1], seq := 2, type := .value, value := [7] },
    { key := [2], seq := 4, type := .value, value := [8] }]

def sampleCompaction : Compaction where
  observable := [3, 9]
  bottomMost := false
  pinSeq := 6
  tombstones := [{ start := [2], fin := [3], seq := 6 }]

/-- What the outputs of the sample answer over an older version of the key 2. -/
theorem sampleCompaction_keeps_reads :
    ∃ out, runCompaction keepSink sampleCompaction 3 (({} : MergedIter).addEntries sampleInputs) {} =
        some out ∧ out.entries = sampleInputs.take 2 ∧
      ∀ (ranges : List MemRange) (k : Slice) (s : ℕ),
        (s ∈ [3, 9] ∨ ∀ q ∈ [3, 9], q ≤ s) → ∀ e : Entry,
          e.Read (sampleInputs ++ [{ key := [2], seq := 1, type := .value }])
              (sampleCompaction.tombstones ++ ranges) k s ↔
            e.Read (out.entries ++ [{ key := [2], seq := 1, type := .value }])
              (out.tombstones ++ ranges) k s := by
  have hsound : sampleCompaction.Sound sampleInputs [{ key := [2], seq := 1, type := .value }] := by
    have hdistinct : Distinct sampleInputs := by
      unfold Distinct
      decide
    exact ⟨by decide, hdistinct, by decide, by decide, ⟨9, by decide⟩, by decide, by decide, by decide⟩
  obtain ⟨out, hout, hread⟩ := runCompaction_keeps_reads
    (by decide +kernel : (({} : MergedIter).addEntries sampleInputs).seekToFirst.drain 3 =
      some sampleInputs) hsound
  refine ⟨out, hout, ?_, hread⟩
  have heval : (runCompaction keepSink sampleCompaction 3
      (({} : MergedIter).addEntries sampleInputs) {}).map (·.entries) = some (sampleInputs.take 2) := by
    decide +kernel
  rw [hout] at heval
  exact Option.some.inj heval

end Compaction

end Rift.Engine
