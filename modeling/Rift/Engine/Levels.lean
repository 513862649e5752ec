import Mathlib.Data.List.Find
import Rift.Engine.Compaction
import Rift.Engine.Version

/-!
# The tables of a level

How compaction compares tables. `MaybeCompact` of `engine-cpp/src/db.cc` takes the tables of level 1 that
meet the span of level 0, by the user keys of their bounds, and keeps the others. Level 1 is read through
three checks, and all three pass where every table clears the ones after it (`accepted_iff`): its bounds
end before theirs begin, and it has an upper bound.

A tombstone that is clipped where the next file begins makes the two files touch. The bound then carries
the sequence of the tombstone, and the order of the internal keys is kept only if the tombstone is newer
than the version the next file begins with (`Table.Piece.before_iff`).
-/

namespace Rift.Engine

open List

/-! ### Bounds -/

/-- A tombstone ends at a key. -/
def MemRange.endsAt (k : Slice) (r : MemRange) : Bool := !r.endUnbounded && r.fin = k

namespace TableCheck

variable {c : TableCheck} {r : MemRange} {rs : List MemRange} {k : Slice}

theorem smallestKey_widen : (c.widen r).smallestKey =
    if r.start < c.smallestKey.userKey then ⟨r.start, makeTag r.seq .deletion⟩
    else c.smallestKey := by
  unfold widen widenUpper widenLower
  split_ifs <;> rfl

theorem unboundedEnd_widen : (c.widen r).unboundedEnd = (r.endUnbounded || c.unboundedEnd) := by
  unfold widen widenUpper widenLower
  split_ifs with _ hu <;> simp_all

theorem widen_of_not_lt (h : r.endUnbounded ∨ ¬ c.largestKey.userKey < r.fin) :
    (c.widen r).largestKey = c.largestKey ∧
      (c.widen r).largestIsExclusive = c.largestIsExclusive := by
  unfold widen widenUpper widenLower
  split_ifs <;> simp_all

theorem widen_of_lt (hu : ¬ r.endUnbounded) (h : c.largestKey.userKey < r.fin) :
    (c.widen r).largestKey = ⟨r.fin, makeTag r.seq .deletion⟩ ∧ (c.widen r).largestIsExclusive := by
  unfold widen widenUpper widenLower
  split_ifs <;> simp_all

theorem foldl_widen_of_le (hfin : ∀ r ∈ rs, ¬ r.endUnbounded → r.fin ≤ c.largestKey.userKey) :
    (rs.foldl widen c).largestKey = c.largestKey ∧
      (rs.foldl widen c).largestIsExclusive = c.largestIsExclusive := by
  induction rs generalizing c with
  | nil => exact ⟨rfl, rfl⟩
  | cons r rs ih =>
    obtain ⟨hr, hrs⟩ := forall_mem_cons.mp hfin
    obtain ⟨hkey, hex⟩ := @widen_of_not_lt c r (by
      by_cases hu : r.endUnbounded
      · exact .inl hu
      · exact .inr (not_lt.mpr (hr hu)))
    obtain ⟨hkey', hex'⟩ := ih (hkey ▸ hrs)
    exact ⟨hkey'.trans hkey, hex'.trans hex⟩

theorem largestKey_foldl (hk : c.largestKey.userKey < k)
    (hfin : ∀ r ∈ rs, ¬ r.endUnbounded → r.fin ≤ k) :
    (rs.find? (·.endsAt k) = none → (rs.foldl widen c).largestKey.userKey < k) ∧
      ∀ r, rs.find? (·.endsAt k) = some r →
        (rs.foldl widen c).largestKey = ⟨k, makeTag r.seq .deletion⟩ ∧
          (rs.foldl widen c).largestIsExclusive := by
  induction rs generalizing c with
  | nil => exact ⟨fun _ => hk, by simp⟩
  | cons r rs ih =>
    obtain ⟨hr, hrs⟩ := forall_mem_cons.mp hfin
    rw [foldl_cons]
    by_cases hends : r.endsAt k
    · -- The first tombstone at the key sets the bound, and nothing ends above it.
      obtain ⟨hu, rfl⟩ : r.endUnbounded = false ∧ r.fin = k := by simpa [MemRange.endsAt] using hends
      obtain ⟨hkey, hex⟩ := widen_of_lt (by simp [hu]) hk
      obtain ⟨hkey', hex'⟩ := @foldl_widen_of_le (c.widen r) rs (by rw [hkey]; exact hrs)
      rw [find?_cons_of_pos hends]
      refine ⟨by simp, fun x hx => ?_⟩
      cases hx
      exact ⟨hkey'.trans hkey, by rw [hex', hex]⟩
    · rw [find?_cons_of_neg hends]
      refine ih ?_ hrs
      by_cases hlt : ¬ r.endUnbounded ∧ c.largestKey.userKey < r.fin
      · rw [(widen_of_lt hlt.1 hlt.2).1]
        exact (hr hlt.1).lt_of_ne fun heq => hends (by simp [MemRange.endsAt, hlt.1, heq])
      · have hnot : r.endUnbounded ∨ ¬ c.largestKey.userKey < r.fin := by
          rwa [not_and_or, not_not] at hlt
        rwa [(widen_of_not_lt hnot).1]

end TableCheck

namespace Table

variable (t : Table) {l : List ℕ}

/-- The smallest user key. -/
def lo : Slice := t.check.smallestKey.userKey

/-- The largest user key, which an exclusive bound names without containing it. -/
def hi : Slice := t.check.largestKey.userKey

theorem check_induct {P : TableCheck → Prop}
    (hinit : P
      { smallestKey := (t.entries.head t.nonempty).ikey
        largestKey := (t.entries.getLast t.nonempty).ikey
        largestSeq := (t.entries.map (·.seq)).foldl max 0 })
    (hstep : ∀ c, ∀ r ∈ t.tombstones, P c → P (c.widen r)) : P t.check := by
  unfold check tableCheck
  generalize (TableCheck.mk _ _ _ _ _) = c at hinit ⊢
  generalize t.tombstones = rs at hstep
  induction rs generalizing c with
  | nil => exact hinit
  | cons r rs ih =>
    exact ih _ (hstep c r mem_cons_self hinit) fun c r' hr' =>
      hstep c r' (mem_cons_of_mem _ hr')

theorem unboundedEnd_iff : t.check.unboundedEnd ↔ ∃ r ∈ t.tombstones, r.endUnbounded := by
  refine ⟨?_, fun ⟨r, hr, hu⟩ => t.bounds.unbounded r hr hu⟩
  refine t.check_induct (P := fun c => c.unboundedEnd → _) (fun h => by cases h) ?_
  intro c r hr ih h
  rw [TableCheck.unboundedEnd_widen, Bool.or_eq_true] at h
  exact h.elim (fun hu => ⟨r, hr, hu⟩) ih

/-- A table that ends nowhere above a key ends at the key with the first tombstone that ends there. -/
theorem largestKey_of_fin_le {k : Slice} (hkeys : ∀ e ∈ t.entries, e.key < k)
    (hfin : ∀ r ∈ t.tombstones, ¬ r.endUnbounded → r.fin ≤ k) :
    (t.tombstones.find? (·.endsAt k) = none → t.hi < k) ∧
      ∀ r, t.tombstones.find? (·.endsAt k) = some r →
        t.check.largestKey = ⟨k, makeTag r.seq .deletion⟩ ∧ t.check.largestIsExclusive :=
  TableCheck.largestKey_foldl (hkeys _ (getLast_mem t.nonempty)) hfin

theorem le_foldl_max {best q : ℕ} (h : q ≤ best ∨ q ∈ l) : q ≤ l.foldl max best := by
  induction l generalizing best with
  | nil => exact h.resolve_right not_mem_nil
  | cons a l ih =>
    refine ih ?_
    rcases h with h | h
    · exact .inl (h.trans (le_max_left _ _))
    · rcases mem_cons.mp h with rfl | h
      · exact .inl (le_max_right _ _)
      · exact .inr h

theorem foldl_max_le {best S : ℕ} (hb : best ≤ S) (h : ∀ q ∈ l, q ≤ S) : l.foldl max best ≤ S := by
  induction l generalizing best with
  | nil => exact hb
  | cons a l ih =>
    exact ih (max_le hb (h a mem_cons_self)) fun q hq => h q (mem_cons_of_mem _ hq)

theorem largestSeq_le {S : ℕ} (he : ∀ e ∈ t.entries, e.seq ≤ S)
    (hr : ∀ r ∈ t.tombstones, r.seq ≤ S) : t.check.largestSeq ≤ S := by
  refine t.check_induct (P := fun c => c.largestSeq ≤ S) (foldl_max_le (Nat.zero_le S) ?_) ?_
  · simpa using he
  · exact fun c r h hc => max_le hc (hr r h)

theorem largestSeq_foldl_widen (rs : List MemRange) (c : TableCheck) :
    (rs.foldl TableCheck.widen c).largestSeq = (rs.map (·.seq)).foldl max c.largestSeq := by
  induction rs generalizing c with
  | nil => rfl
  | cons r rs ih => rw [foldl_cons, ih]; rfl

theorem seq_le_largestSeq {e : Entry} (h : e ∈ t.entries) : e.seq ≤ t.check.largestSeq := by
  rw [check, tableCheck, largestSeq_foldl_widen]
  exact le_foldl_max (.inl (le_foldl_max (.inr (mem_map_of_mem h))))

theorem range_seq_le_largestSeq {r : MemRange} (h : r ∈ t.tombstones) :
    r.seq ≤ t.check.largestSeq := by
  rw [check, tableCheck, largestSeq_foldl_widen]
  exact le_foldl_max (.inr (mem_map_of_mem h))

theorem lo_le_hi : t.lo ≤ t.hi := InternalKey.userKey_le t.smallest_le_largest

/-- A table ends below the first key of another. -/
def endsBelow (t u : Table) : Prop := t.hi < u.lo

/-- A table ends before another begins: in the order of the internal keys, and by the user keys. -/
def before (t u : Table) : Prop := t.check.largestKey < u.check.smallestKey ∧ t.precedes u

/-- Another table may follow. -/
def clears (t u : Table) : Prop := t.before u ∧ t.check.unboundedEnd = false

variable {t} {u : Table}

theorem before_of_endsBelow (h : t.endsBelow u) : t.before u :=
  ⟨InternalKey.lt_iff.mpr (.inl h), precedes_iff.mpr (.inl h)⟩

theorem before.of_le (h : t.before u) {w : Table} (hle : u.check.smallestKey ≤ w.check.smallestKey) :
    t.before w := by
  refine ⟨h.1.trans_le hle, precedes_iff.mpr ?_⟩
  have hle := InternalKey.userKey_le hle
  rcases precedes_iff.mp h.2 with hlt | ⟨heq, hx⟩
  · exact .inl (hlt.trans_le hle)
  · exact (heq.trans_le hle).lt_or_eq.imp_right (⟨·, hx⟩)

theorem before.hi_le (h : t.before u) : t.hi ≤ u.lo := InternalKey.userKey_le h.1.le

theorem before.key_lt (h : t.before u) {e : Entry} (he : e ∈ t.entries) : e.key < u.lo := by
  have hle : e.key ≤ t.hi := InternalKey.userKey_le (t.bounds.upper e he)
  rcases precedes_iff.mp h.2 with hlt | ⟨heq, hx⟩
  · exact hle.trans_lt hlt
  · exact (t.bounds.exclusive hx e he).trans_le heq.le

theorem before.lo_lt (h : t.before u) : t.lo < u.lo :=
  (InternalKey.userKey_le (t.bounds.lower _ (head_mem t.nonempty))).trans_lt
    (h.key_lt (head_mem t.nonempty))

/-- Tables without tombstones do not touch. -/
theorem before.endsBelow (h : t.before u) (ht : t.tombstones = []) : t.endsBelow u := by
  refine (precedes_iff.mp h.2).elim id fun hx => ?_
  have hplain : t.check.largestIsExclusive = false := by simp [check, tableCheck, ht]
  exact absurd hx.2 (by simp [hplain])

end Table

/-! ### The span of tables -/

/-- Widen a span by a table. -/
def widenHull (h : Slice × Slice) (t : Table) : Slice × Slice :=
  (if t.lo < h.1 then t.lo else h.1, if h.2 < t.hi then t.hi else h.2)

/-- The span of some tables. -/
def hull (t : Table) (ts : List Table) : Slice × Slice := ts.foldl widenHull (t.lo, t.hi)

/-- A table meets a span. -/
def overlaps (h : Slice × Slice) (t : Table) : Bool := t.lo ≤ h.2 && h.1 ≤ t.hi

theorem not_overlaps {h : Slice × Slice} {t : Table} :
    overlaps h t = false ↔ h.2 < t.lo ∨ t.hi < h.1 := by
  simp only [overlaps, Bool.and_eq_false_iff, decide_eq_false_iff_not, not_le]

theorem foldl_widenHull (ts : List Table) (h : Slice × Slice) :
    ((ts.foldl widenHull h).1 ≤ h.1 ∧ h.2 ≤ (ts.foldl widenHull h).2) ∧
      (∀ u ∈ ts, (ts.foldl widenHull h).1 ≤ u.lo ∧ u.hi ≤ (ts.foldl widenHull h).2) ∧
      ((ts.foldl widenHull h).1 = h.1 ∨ ∃ u ∈ ts, (ts.foldl widenHull h).1 = u.lo) ∧
      ((ts.foldl widenHull h).2 = h.2 ∨ ∃ u ∈ ts, (ts.foldl widenHull h).2 = u.hi) := by
  induction ts generalizing h with
  | nil => simp
  | cons t ts ih =>
    obtain ⟨⟨h₁, h₂⟩, hmem, hlo, hhi⟩ := ih (widenHull h t)
    have hw₁ : (widenHull h t).1 ≤ h.1 ∧ (widenHull h t).1 ≤ t.lo ∧
        ((widenHull h t).1 = h.1 ∨ (widenHull h t).1 = t.lo) := by
      unfold widenHull
      dsimp only
      split_ifs with hlt
      · exact ⟨hlt.le, le_rfl, .inr rfl⟩
      · exact ⟨le_rfl, not_lt.mp hlt, .inl rfl⟩
    have hw₂ : h.2 ≤ (widenHull h t).2 ∧ t.hi ≤ (widenHull h t).2 ∧
        ((widenHull h t).2 = h.2 ∨ (widenHull h t).2 = t.hi) := by
      unfold widenHull
      dsimp only
      split_ifs with hlt
      · exact ⟨hlt.le, le_rfl, .inr rfl⟩
      · exact ⟨le_rfl, not_lt.mp hlt, .inl rfl⟩
    rw [foldl_cons]
    refine ⟨⟨h₁.trans hw₁.1, hw₂.1.trans h₂⟩, fun u hu => ?_, ?_, ?_⟩
    · rcases mem_cons.mp hu with rfl | hu
      · exact ⟨h₁.trans hw₁.2.1, hw₂.2.1.trans h₂⟩
      · exact hmem u hu
    · rcases hlo with hlo | ⟨u, hu, hlo⟩
      · exact hw₁.2.2.imp hlo.trans fun h => ⟨t, mem_cons_self, hlo.trans h⟩
      · exact .inr ⟨u, mem_cons_of_mem _ hu, hlo⟩
    · rcases hhi with hhi | ⟨u, hu, hhi⟩
      · exact hw₂.2.2.imp hhi.trans fun h => ⟨t, mem_cons_self, hhi.trans h⟩
      · exact .inr ⟨u, mem_cons_of_mem _ hu, hhi⟩

section

variable {t u : Table} {ts l1 : List Table}

theorem hull_le (h : u ∈ t :: ts) : (hull t ts).1 ≤ u.lo ∧ u.hi ≤ (hull t ts).2 := by
  obtain ⟨hinit, hmem, -, -⟩ := foldl_widenHull ts (t.lo, t.hi)
  rcases mem_cons.mp h with rfl | h
  · exact hinit
  · exact hmem u h

theorem hull_fst_mem : ∃ u ∈ t :: ts, (hull t ts).1 = u.lo := by
  obtain ⟨-, -, h, -⟩ := foldl_widenHull ts (t.lo, t.hi)
  rcases h with h | ⟨u, hu, h⟩
  · exact ⟨t, mem_cons_self, h⟩
  · exact ⟨u, mem_cons_of_mem _ hu, h⟩

theorem hull_snd_mem : ∃ u ∈ t :: ts, (hull t ts).2 = u.hi := by
  obtain ⟨-, -, -, h⟩ := foldl_widenHull ts (t.lo, t.hi)
  rcases h with h | ⟨u, hu, h⟩
  · exact ⟨t, mem_cons_self, h⟩
  · exact ⟨u, mem_cons_of_mem _ hu, h⟩

/-- Of tables in order, any two are in order, one way or the other. -/
theorem pairwise_or {R : Table → Table → Prop} (hrun : l1.Pairwise R) (ht : t ∈ l1) (hu : u ∈ l1)
    (hne : t ≠ u) : R t u ∨ R u t := by
  have hsymm : Std.Symm fun a b => R a b ∨ R b a := ⟨fun _ _ => Or.symm⟩
  have hboth : l1.Pairwise fun a b => R a b ∨ R b a := hrun.imp Or.inl
  exact hboth.forall ht hu hne

/-- Of clear tables, one that misses the span of level 0 also misses the span that the tables meeting it
widen it to. -/
theorem keep_clear (hrun : l1.Pairwise Table.endsBelow) (hu : u ∈ l1)
    (hmiss : overlaps (hull t ts) u = false) :
    overlaps (hull t (ts ++ l1.filter (overlaps (hull t ts)))) u = false := by
  have hcross : ∀ w ∈ l1.filter (overlaps (hull t ts)), (u.endsBelow w ∨ w.endsBelow u) ∧
      w.lo ≤ (hull t ts).2 ∧ (hull t ts).1 ≤ w.hi := by
    intro w hw
    obtain ⟨hw, hmeet⟩ := mem_filter.mp hw
    refine ⟨pairwise_or hrun hu hw ?_, by simpa [overlaps] using hmeet⟩
    rintro rfl
    exact absurd hmeet (by simp [hmiss])
  have hlh := u.lo_le_hi
  have hmem : ∀ w, w ∈ t :: (ts ++ l1.filter (overlaps (hull t ts))) →
      w ∈ t :: ts ∨ w ∈ l1.filter (overlaps (hull t ts)) := fun w hw => by
    rwa [← cons_append, mem_append] at hw
  rw [not_overlaps] at hmiss ⊢
  rcases hmiss with hmiss | hmiss
  · -- It lies above level 0, and so above whatever meets level 0.
    left
    obtain ⟨w, hw, heq⟩ := @hull_snd_mem t (ts ++ l1.filter (overlaps (hull t ts)))
    rw [heq]
    rcases hmem w hw with hw | hw
    · exact (hull_le hw).2.trans_lt hmiss
    · obtain ⟨hor, hle, -⟩ := hcross w hw
      exact hor.resolve_left fun h =>
        ((hmiss.trans_le hlh).trans (h.trans_le hle)).false
  · right
    obtain ⟨w, hw, heq⟩ := @hull_fst_mem t (ts ++ l1.filter (overlaps (hull t ts)))
    rw [heq]
    rcases hmem w hw with hw | hw
    · exact hmiss.trans_le (hull_le hw).1
    · obtain ⟨hor, -, hle⟩ := hcross w hw
      exact hor.resolve_right fun h =>
        ((hle.trans_lt h).trans_le (hlh.trans hmiss.le)).false

end

/-! ### Installing a level -/

/-- Level 1 in the order of its user keys. -/
def sortTables (ts : List Table) : List Table := ts.insertionSort fun t u => t.lo ≤ u.lo

/-- The check made where level 1 is installed. -/
def onlyTheLastMayBeUnbounded : List Table → Bool
  | t :: u :: ts => !t.check.unboundedEnd && onlyTheLastMayBeUnbounded (u :: ts)
  | _ => true

variable {ts : List Table}

theorem mem_sortTables {t : Table} : t ∈ sortTables ts ↔ t ∈ ts :=
  (perm_insertionSort _ ts).mem_iff

/-- Tables whose first keys ascend stay in their order. -/
theorem sortTables_eq {us : List Table} (hperm : us.Perm ts) (h : us.Pairwise (·.lo < ·.lo)) :
    sortTables ts = us := by
  have : Std.Total fun t u : Table => t.lo ≤ u.lo := ⟨fun t u => le_total t.lo u.lo⟩
  have : IsTrans Table fun t u => t.lo ≤ u.lo := ⟨fun _ _ _ => le_trans⟩
  have hsymm : Std.Symm fun t u : Table => t.lo ≠ u.lo := ⟨fun _ _ => Ne.symm⟩
  have hsub : ∀ {t}, t ∈ sortTables ts ↔ t ∈ us := mem_sortTables.trans hperm.mem_iff.symm
  refine Perm.eq_of_pairwise (fun t u ht hu hle hge => ?_)
    (pairwise_insertionSort (fun t u : Table => t.lo ≤ u.lo) ts) (h.imp le_of_lt)
    ((perm_insertionSort _ ts).trans hperm.symm)
  by_contra hne
  exact (h.imp ne_of_lt).forall (hsub.mp ht) hu hne (le_antisymm hle hge)

theorem onlyTheLastMayBeUnbounded_iff :
    onlyTheLastMayBeUnbounded ts ↔ ts.Pairwise fun t _ => t.check.unboundedEnd = false :=
  check_iff_pairwise (fun h _ => h) rfl (fun _ => rfl)
    (fun _ _ _ => by simp [onlyTheLastMayBeUnbounded]) ts

/-- The three checks of level 1 pass where every table clears the later ones. -/
theorem accepted_iff : (ConcatIter.accepts ts ∧ isRun ts ∧ onlyTheLastMayBeUnbounded ts) ↔
    ts.Pairwise Table.clears := by
  rw [ConcatIter.accepts_iff, isRun_iff, onlyTheLastMayBeUnbounded_iff]
  constructor
  · rintro ⟨hacc, hrun, -⟩
    exact (hacc.and hrun).imp fun h => ⟨⟨h.1, h.2.1⟩, h.2.2⟩
  · intro h
    exact ⟨h.imp (·.1.1), h.imp fun h => ⟨h.1.2, h.2⟩, h.imp (·.2)⟩

/-! ### Outputs -/

theorem MemRange.le_clipStart (fileStart : Option Slice) (r : MemRange) :
    r.start ≤ r.clipStart fileStart ∧ ∀ s ∈ fileStart, s ≤ r.clipStart fileStart := by
  unfold MemRange.clipStart
  cases fileStart with
  | none => simp
  | some s =>
    dsimp only
    split_ifs with hlt
    · exact ⟨hlt.le, by simp⟩
    · exact ⟨le_rfl, by simpa using hlt⟩

theorem MemRange.clip_eq_some {fileStart boundary : Option Slice} {r r' : MemRange}
    (h : r.clip fileStart boundary = some r') :
    r'.seq = r.seq ∧ r.start ≤ r'.start ∧ (∀ s ∈ fileStart, s ≤ r'.start) ∧
      (¬ r.endUnbounded → ¬ r'.endUnbounded ∧ r'.fin ≤ r.fin) ∧
      (∀ b ∈ boundary, ¬ r'.endUnbounded ∧ r'.fin ≤ b) ∧
      (r'.endUnbounded → r.endUnbounded ∧ boundary = none) := by
  unfold MemRange.clip at h
  dsimp only at h
  have hle := r.le_clipStart fileStart
  cases boundary with
  | none =>
    dsimp only at h
    split_ifs at h with hu
    all_goals
      cases h
      exact ⟨rfl, hle.1, hle.2, fun hu => ⟨hu, le_rfl⟩, by simp, fun hu => ⟨hu, rfl⟩⟩
  | some b =>
    dsimp only at h
    split_ifs at h with hu hlt hb hlt hlt
    all_goals
      cases h
      refine ⟨rfl, hle.1, hle.2, fun hu' => ⟨by simp, ?_⟩, ?_, by simp⟩
    · exact absurd hu hu'
    · simp
    · exact hb.le
    · simp
    · exact le_rfl
    · simpa using not_lt.mp hb

/-- A tombstone that begins below a key reaches it. -/
def MemRange.reaches (k : Slice) (r : MemRange) : Bool := r.start < k && (r.endUnbounded || k ≤ r.fin)

/-- What a file holds of a tombstone ends where the next file begins, if the tombstone reaches it. -/
theorem MemRange.any_clip {s k : Slice} {next : Option Slice} {r : MemRange} (hs : s < k)
    (hnext : next = some k ∨ next = none ∧ ¬ r.endUnbounded ∧ r.fin ≤ k) :
    (r.clip (some s) next).any (·.endsAt k) = r.reaches k := by
  have hlo : r.clipStart (some s) < k ↔ r.start < k := by
    unfold clipStart
    dsimp only
    split_ifs with hlt
    · exact ⟨fun _ => hlt.trans hs, fun _ => hs⟩
    · exact Iff.rfl
  unfold clip reaches
  rcases hnext with rfl | ⟨rfl, hu, hle⟩
  · dsimp only
    split_ifs with hu hlt hb hlt hlt
    · simp [endsAt, hu, hlo.mp hlt]
    · simp [hu, mt hlo.mpr hlt]
    · simp [endsAt, hb.le, hlo.mp hlt]
    · simp [mt hlo.mpr hlt]
    · rcases (not_lt.mp hb).lt_or_eq with hfin | hfin
      · simp [endsAt, hu, hfin.ne, hfin]
      · simp [endsAt, hu, hfin, hlo.mp (hfin ▸ hlt)]
    · rcases (not_lt.mp hb).lt_or_eq with hfin | hfin
      · simp [hu, hfin]
      · simp [mt hlo.mpr (hfin ▸ hlt)]
  · dsimp only
    rw [if_neg hu]
    split_ifs with hlt
    · rcases hle.lt_or_eq with hfin | hfin
      · simp [endsAt, hu, hfin.ne, hfin]
      · simp [endsAt, hu, hfin, hlo.mp (hfin ▸ hlt)]
    · rcases hle.lt_or_eq with hfin | hfin
      · simp [hu, hfin]
      · simp [mt hlo.mpr (hfin ▸ hlt)]

/-- The first tombstone that reaches a key is newer than what a file begins with there. -/
def Yields (tombstones : List MemRange) (f : InternalKey) : Prop :=
  ∀ r ∈ tombstones.find? (·.reaches f.userKey), f.tag < makeTag r.seq .deletion

instance (tombstones : List MemRange) (f : InternalKey) : Decidable (Yields tombstones f) := by
  unfold Yields
  infer_instance

namespace Table

variable {tombstones : List MemRange} {next : Option Slice} {t u : Table} {ts : List Table} {k : Slice}

theorem Piece.exists_clip (h : t.Piece tombstones next) {r' : MemRange} (hr : r' ∈ t.tombstones) :
    ∃ r ∈ tombstones, r.clip (some t.firstKey) next = some r' :=
  mem_filterMap.mp (h.clipped ▸ hr)

/-- A file begins with a version: its tombstones are clipped there, and ties do not widen. -/
theorem Piece.smallestKey (h : t.Piece tombstones next) :
    t.check.smallestKey = (t.entries.head t.nonempty).ikey := by
  refine t.check_induct (P := fun c => c.smallestKey = (t.entries.head t.nonempty).ikey) rfl ?_
  intro c r' hr' hc
  obtain ⟨r, -, hclip⟩ := h.exists_clip hr'
  rw [TableCheck.smallestKey_widen, hc]
  exact if_neg (not_lt.mpr ((MemRange.clip_eq_some hclip).2.2.1 _ rfl))

theorem Piece.lo_eq (h : t.Piece tombstones next) : t.lo = t.firstKey := by
  rw [lo, h.smallestKey]
  rfl

theorem Piece.unboundedEnd_iff (h : t.Piece tombstones next) :
    t.check.unboundedEnd ↔ next = none ∧ ∃ r ∈ tombstones, r.endUnbounded := by
  rw [Table.unboundedEnd_iff]
  constructor
  · rintro ⟨r', hr', hu⟩
    obtain ⟨r, hr, hclip⟩ := h.exists_clip hr'
    obtain ⟨hub, hnone⟩ := (MemRange.clip_eq_some hclip).2.2.2.2.2 hu
    exact ⟨hnone, r, hr, hub⟩
  · rintro ⟨rfl, r, hr, hu⟩
    refine ⟨{ r with start := r.clipStart (some t.firstKey) }, ?_, hu⟩
    rw [h.clipped]
    exact mem_filterMap.mpr ⟨r, hr, if_pos hu⟩

theorem Piece.bounded (h : t.Piece tombstones (some k)) : t.check.unboundedEnd = false := by
  rw [← Bool.not_eq_true, h.unboundedEnd_iff]
  simp

section

variable (h : t.Piece tombstones next) (hkeys : ∀ e ∈ t.entries, e.key < k)
  (hnext : next = some k ∨ next = none ∧ ∀ r ∈ tombstones, ¬ r.endUnbounded ∧ r.fin ≤ k)
include h hkeys hnext

/-- A file ends at the key of the next one if a tombstone reaches it, and below otherwise. -/
theorem Piece.largestKey_cases :
    (tombstones.find? (·.reaches k) = none ∧ t.hi < k) ∨
      ∃ r, tombstones.find? (·.reaches k) = some r ∧
        t.check.largestKey = ⟨k, makeTag r.seq .deletion⟩ ∧ t.check.largestIsExclusive := by
  have hfirst : t.firstKey < k := hkeys _ (head_mem t.nonempty)
  have hfind : t.tombstones.find? (·.endsAt k) =
      (tombstones.find? (·.reaches k)).bind (MemRange.clip (some t.firstKey) next) := by
    rw [h.clipped, find?_filterMap]
    congr 1
    exact find?_congr fun r hr => MemRange.any_clip hfirst (hnext.imp_right (.imp_right (· r hr)))
  have hfin : ∀ r' ∈ t.tombstones, ¬ r'.endUnbounded → r'.fin ≤ k := by
    intro r' hr' _
    obtain ⟨r, hr, hclip⟩ := h.exists_clip hr'
    obtain ⟨-, -, -, hle, hb, -⟩ := MemRange.clip_eq_some hclip
    rcases hnext with rfl | ⟨-, hall⟩
    · exact (hb k rfl).2
    · exact (hle (hall r hr).1).2.trans (hall r hr).2
  obtain ⟨hnone, hsome⟩ := t.largestKey_of_fin_le hkeys hfin
  cases hr : tombstones.find? (·.reaches k) with
  | none => exact .inl ⟨rfl, hnone (by rw [hfind, hr, Option.bind_none])⟩
  | some r =>
    obtain ⟨r', hclip, -⟩ := (Option.any_eq_true _ _).mp
      ((MemRange.any_clip hfirst (hnext.imp_right (.imp_right (· r (mem_of_find?_eq_some hr))))).trans
        (find?_some hr))
    refine .inr ⟨r, rfl, ?_⟩
    rw [← (MemRange.clip_eq_some hclip).1]
    exact hsome r' (by rw [hfind, hr, Option.bind_some, hclip])

theorem Piece.hi_le : t.hi ≤ k := by
  rcases h.largestKey_cases hkeys hnext with ⟨-, hlt⟩ | ⟨r, -, hkey, -⟩
  · exact hlt.le
  · exact (congrArg InternalKey.userKey hkey).le

/-- A file ends before another begins, unless it ends at its key with a tombstone that is not newer. -/
theorem Piece.before_iff (hu : u.lo = k) : t.before u ↔ Yields tombstones u.check.smallestKey := by
  have hkey : u.check.smallestKey.userKey = k := hu
  rcases h.largestKey_cases hkeys hnext with ⟨hnone, hlt⟩ | ⟨r, hr, hlargest, hex⟩
  · refine iff_of_true (before_of_endsBelow (hlt.trans_eq hu.symm)) ?_
    simp [Yields, hkey, hnone]
  · have hp : t.precedes u := precedes_iff.mpr (.inr ⟨by rw [hlargest, hkey], hex⟩)
    simp [before, hp, Yields, hkey, hr, hlargest, InternalKey.lt_iff]

end

theorem Links.piece (h : Links tombstones next ts) (ht : t ∈ ts) :
    ∃ next, t.Piece tombstones next := by
  induction ts with
  | nil => cases ht
  | cons u us ih =>
    rcases mem_cons.mp ht with rfl | ht
    · exact ⟨_, h.1⟩
    · exact ih h.2 ht

theorem Links.firstKey_lt (h : Links tombstones next ts) : ts.Pairwise (·.firstKey < ·.firstKey) := by
  induction ts with
  | nil => exact .nil
  | cons t us ih =>
    refine pairwise_cons.mpr ⟨fun u hu => ?_, ih h.2⟩
    cases us with
    | nil => cases hu
    | cons w us =>
      have hlt : t.firstKey < w.firstKey := h.1.below _ rfl _ (head_mem t.nonempty)
      rcases mem_cons.mp hu with rfl | hu
      · exact hlt
      · exact hlt.trans ((pairwise_cons.mp (ih h.2)).1 u hu)

/-- Files clear one another where the tombstones yield to the versions they begin with. -/
theorem Links.clears_iff (h : Links tombstones none ts) :
    ts.Pairwise clears ↔ ∀ t ∈ ts.tail, Yields tombstones t.check.smallestKey := by
  induction ts with
  | nil => simp
  | cons t us ih =>
    cases us with
    | nil => simp
    | cons w us =>
      have hpiece : t.Piece tombstones (some w.firstKey) := h.1
      have hbelow := hpiece.below _ rfl
      have hb := hpiece.bounded
      obtain ⟨_, hw⟩ := h.2.piece mem_cons_self
      have hlater : ∀ u ∈ us, t.clears u := fun u hu => by
        obtain ⟨_, hu'⟩ := h.2.piece (mem_cons_of_mem _ hu)
        have hlt := (pairwise_cons.mp h.2.firstKey_lt).1 u hu
        exact ⟨before_of_endsBelow (((hpiece.hi_le hbelow (.inl rfl)).trans_lt hlt).trans_eq
          hu'.lo_eq.symm), hb⟩
      have hnext : t.clears w ↔ Yields tombstones w.check.smallestKey :=
        (and_iff_left hb).trans (hpiece.before_iff hbelow (.inl rfl) hw.lo_eq)
      rw [pairwise_cons, ih h.2, forall_mem_cons, hnext, tail_cons, tail_cons, forall_mem_cons]
      exact and_congr_left fun _ => and_iff_left hlater

/-- Files clear a table above them if no tombstone goes on without an end, and if the last yields. -/
theorem Links.clears_above_iff (h : Links tombstones none ts) (hne : ts ≠ [])
    (hkeys : ∀ t ∈ ts, ∀ e ∈ t.entries, e.key < u.lo)
    (hfin : ∀ r ∈ tombstones, ¬ r.endUnbounded → r.fin ≤ u.lo) :
    (∀ t ∈ ts, t.clears u) ↔
      (∀ r ∈ tombstones, ¬ r.endUnbounded) ∧ Yields tombstones u.check.smallestKey := by
  induction ts with
  | nil => exact absurd rfl hne
  | cons t us ih =>
    obtain ⟨ht, hus⟩ := forall_mem_cons.mp hkeys
    cases us with
    | nil =>
      have hpiece : t.Piece tombstones none := h.1
      have hb : t.check.unboundedEnd = false ↔ ∀ r ∈ tombstones, ¬ r.endUnbounded := by
        rw [← Bool.not_eq_true, hpiece.unboundedEnd_iff]
        simp
      rw [forall_mem_singleton, clears, hb, and_comm]
      exact and_congr_right fun hall =>
        hpiece.before_iff ht (.inr ⟨rfl, fun r hr => ⟨hall r hr, hfin r hr (hall r hr)⟩⟩) rfl
    | cons w us =>
      have hpiece : t.Piece tombstones (some w.firstKey) := h.1
      have hb := hpiece.bounded
      have hlt := (hpiece.hi_le (hpiece.below _ rfl) (.inl rfl)).trans_lt
        (hus w mem_cons_self _ (head_mem w.nonempty))
      rw [forall_mem_cons, ih h.2 (cons_ne_nil _ _) hus]
      exact and_iff_right ⟨before_of_endsBelow hlt, hb⟩

theorem Piece.largestSeq_le (h : t.Piece tombstones next) {S : ℕ} (he : ∀ e ∈ t.entries, e.seq ≤ S)
    (hr : ∀ r ∈ tombstones, r.seq ≤ S) : t.check.largestSeq ≤ S := by
  refine t.largestSeq_le he fun r' hr' => ?_
  obtain ⟨r, hmem, hclip⟩ := h.exists_clip hr'
  exact (MemRange.clip_eq_some hclip).1 ▸ hr r hmem

end Table

end Rift.Engine
