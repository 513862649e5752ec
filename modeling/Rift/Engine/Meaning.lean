import Rift.Engine.Version
import Rift.Engine.Write
import Rift.Model.Entries

/-!
# What a batch means

The reference engine applies the operations of a batch one after another. The storage engine
collapses them first, to one point operation for each key and a set of ranges, and inserts both at one
sequence, where a tombstone hides only what is below its own sequence. Both reach the same content.
-/

namespace Rift.Engine

open List

/-- The operation of the reference engine that a call submits. -/
def WriteBatch.Call.toModel : WriteBatch.Call → Model.Op
  | .set key value => .set key value
  | .delete key => .delete key
  | .deleteRange start fin => .deleteRange (start.getD []) fin

/-! ### The content of a collapse -/

/-- The pending operation on a key. -/
def Pending.find (m : Pending) (k : Slice) : Option (OpKind × Slice) :=
  (m.find? (·.1 = k)).map (·.2)

/-- What is read at a key: the pending operation on it decides, then the ranges, and then what was
there before. -/
def Collapse.content (c : Collapse) (prior : Slice → Option Slice) (k : Slice) : Option Slice :=
  (c.pending.find k).elim (if c.ranges.any (·.covers k) then none else prior k) fun p =>
    if p.1 = .set then some p.2 else none

theorem Pending.find_cons (p : Slice × OpKind × Slice) (m : Pending) (k : Slice) :
    find (p :: m) k = if p.1 = k then some p.2 else m.find k := by
  unfold find
  split_ifs with h
  · rw [find?_cons_of_pos (by simpa using h), Option.map_some]
  · rw [find?_cons_of_neg (by simpa using h)]

theorem Pending.mem_iff_find {m : Pending} (hs : m.Pairwise (·.1 < ·.1)) {k : Slice}
    {p : OpKind × Slice} : (k, p) ∈ m ↔ m.find k = some p := by
  induction m with
  | nil => simp [find]
  | cons q m ih =>
    rw [pairwise_cons] at hs
    rw [mem_cons, find_cons, ih hs.2]
    split_ifs with hq
    · rw [Option.some.injEq, eq_comm, Prod.ext_iff]
      simp only [hq, true_and, or_iff_left_iff_imp]
      exact fun h => absurd hq (hs.1 _ ((ih hs.2).mpr h)).ne
    · exact or_iff_right fun h => hq (h ▸ rfl)

theorem Pending.find_assign (m : Pending) (k k' : Slice) (v : OpKind × Slice) :
    (m.assign k v).find k' = if k = k' then some v else m.find k' := by
  induction m with
  | nil => exact find_cons _ [] k'
  | cons p m ih =>
    unfold assign
    by_cases hlt : k < p.1
    · rw [if_pos hlt, find_cons]
    by_cases heq : k = p.1
    · rw [if_neg hlt, if_pos heq, find_cons, find_cons, ← heq]
      split_ifs <;> rfl
    · rw [if_neg hlt, if_neg heq, find_cons, ih, find_cons]
      split_ifs with h₁ h₂
      · exact absurd (h₂.trans h₁.symm) heq
      · rfl
      · rfl
      · rfl

theorem Pending.find_filter (m : Pending) (q : Slice → Bool) (k : Slice) :
    find (m.filter fun p => !q p.1) k = if q k then none else m.find k := by
  unfold find
  rw [find?_filter]
  split_ifs with hq
  · rw [find?_eq_none.mpr fun p _ => ?_]
    · rfl
    · simp only [Bool.not_eq_true', decide_eq_true_eq, not_and]
      rintro hp rfl
      exact absurd hq (by simp [hp])
  · congr 2
    funext p
    by_cases hp : p.1 = k
    · simp [hp, hq]
    · simp [hp]

theorem MemRange.covers_widen {x r : MemRange} (hs : x.start = r.start) (k : Slice) :
    (x.widen r).covers k = (x.covers k || r.covers k) := by
  rw [Bool.eq_iff_iff, Bool.or_eq_true, covers_iff, covers_iff, covers_iff, widen_start, ← hs,
    ← and_or_left]
  refine and_congr_right fun _ => ?_
  unfold widen
  split_ifs with hr hx
  · simp [hr]
  · simp only [Bool.and_eq_true, Bool.not_eq_true', decide_eq_true_eq] at hx
    simp only [hr, hx.1, Bool.false_eq_true, false_or]
    exact ⟨.inr, fun h => h.elim (·.trans hx.2) id⟩
  · simp only [Bool.and_eq_true, Bool.not_eq_true', decide_eq_true_eq, not_and, not_lt] at hx
    simp only [hr, Bool.false_eq_true, false_or]
    cases hu : x.endUnbounded with
    | true => simp
    | false =>
      simp only [Bool.false_eq_true, false_or]
      exact ⟨.inl, fun h => h.elim id (·.trans_le (hx hu))⟩

theorem any_covers_mergeRange (r : MemRange) (rs : List MemRange) (k : Slice) :
    (mergeRange r rs).any (·.covers k) = (rs.any (·.covers k) || r.covers k) := by
  induction rs with
  | nil => simp [mergeRange]
  | cons x rs ih =>
    unfold mergeRange
    split_ifs with hs
    · rw [any_cons, ih, any_cons, Bool.or_assoc]
    · rw [any_cons, any_cons, MemRange.covers_widen (not_not.mp hs)]
      simp only [Bool.or_assoc, Bool.or_comm (r.covers k)]

theorem Collapse.pending_merge (c : Collapse) (r : MemRange) : (c.merge r).pending = c.pending := by
  unfold merge
  split_ifs <;> rfl

theorem Collapse.any_covers_merge (c : Collapse) (r : MemRange) (k : Slice) :
    (c.merge r).ranges.any (·.covers k) = (c.ranges.any (·.covers k) || r.covers k) := by
  unfold Collapse.merge
  split_ifs with h
  · have hnone : r.covers k = false := by
      rw [Bool.eq_false_iff, ne_eq, MemRange.covers_iff]
      simp only [Bool.and_eq_true, Bool.not_eq_true', decide_eq_true_eq] at h
      rintro ⟨hs, hu | hlt⟩
      · exact absurd hu (by simp [h.1])
      · exact (hlt.trans_le h.2).not_ge hs
    rw [hnone, Bool.or_false]
  · exact any_covers_mergeRange r c.ranges k

/-- The range a call records covers the keys that are erased from what came before. -/
theorem covers_entry_range (start fin : Bound) (k : Slice) :
    (WriteBatch.Call.deleteRange start fin).entry.range.covers k =
      Model.inRange (start.getD []) fin k := by
  rw [Bool.eq_iff_iff, MemRange.covers_iff, Model.inRange_iff]
  cases start <;> cases fin <;>
    simp [WriteBatch.Entry.range, WriteBatch.Entry.start, WriteBatch.Call.entry]

theorem inRange_entry (start fin : Bound) (k : Slice) :
    inRange k (WriteBatch.Call.deleteRange start fin).entry.start fin =
      Model.inRange (start.getD []) fin k := by
  rw [Bool.eq_iff_iff, Model.inRange_iff]
  cases start <;> cases fin <;>
    simp [inRange, WriteBatch.Entry.start, WriteBatch.Call.entry, Slice.nil_le]

/-- One operation of the collapse has the effect of the reference operation. -/
theorem Collapse.content_step {c : Collapse} {prior : Slice → Option Slice} {w : Model.Version}
    (h : ∀ k, c.content prior k = w.get k) (call : WriteBatch.Call) (k : Slice) :
    (c.step call.entry).content prior k = (call.toModel.apply w).get k := by
  have h' := h k
  unfold content at h' ⊢
  cases call with
  | set key value =>
    simp only [WriteBatch.Call.entry, step, Pending.find_assign, WriteBatch.Call.toModel,
      Model.apply_set, OrderedMap.get_set]
    by_cases hk : key = k
    · simp [hk]
    · simp only [if_neg hk]
      exact h'
  | delete key =>
    simp only [WriteBatch.Call.entry, step, Pending.find_assign, WriteBatch.Call.toModel,
      Model.apply_delete, OrderedMap.get_erase]
    by_cases hk : key = k
    · simp [hk]
    · simp only [if_neg hk]
      exact h'
  | deleteRange start fin =>
    rw [WriteBatch.Call.toModel, Model.apply_deleteRange, OrderedMap.get_eraseIf]
    have hfind : (c.step (WriteBatch.Call.deleteRange start fin).entry).pending.find k =
        if Model.inRange (start.getD []) fin k then none else c.pending.find k := by
      rw [← inRange_entry, ← Pending.find_filter _ fun k => inRange k _ fin]
      exact congrArg (Pending.find · k) (pending_merge _ _)
    have hcover : (c.step (WriteBatch.Call.deleteRange start fin).entry).ranges.any (·.covers k) =
        (c.ranges.any (·.covers k) || Model.inRange (start.getD []) fin k) := by
      rw [← covers_entry_range]
      exact any_covers_merge _ _ k
    rw [hfind, hcover]
    -- a key of the range is erased from the batch and hidden below it
    by_cases hin : Model.inRange (start.getD []) fin k
    · simp [hin]
    · simpa [hin] using h'

theorem Collapse.content_of (b : WriteBatch) (v : Model.Version) (k : Slice) :
    (Collapse.of b).content v.get k = (Model.applyTo v (b.map (·.toModel))).get k := by
  unfold Collapse.of
  suffices h : ∀ (c : Collapse) (w : Model.Version), (∀ k, c.content v.get k = w.get k) →
      ((b.map (·.entry)).foldl Collapse.step c).content v.get k =
        (Model.applyTo w (b.map (·.toModel))).get k from h {} v fun _ => rfl
  induction b with
  | nil => exact fun c w h => h k
  | cons call b ih => exact fun c w h => ih _ _ (content_step h call)

/-! ### What the insertions make visible -/

theorem Entry.seq_eq_of_tag {a b : Entry} (h : a.tag = b.tag) : a.seq = b.seq := by
  unfold Entry.tag makeTag at h
  cases ha : a.type <;> cases hb : b.type <;> simp only [ha, hb, ValueType.toNat] at h <;> omega

theorem insertOp_eq (seq : ℕ) (m : MemTable) (op : Op) :
    insertOp seq m op = match op.point? seq with
      | some e => m.add e
      | none => some m := by
  obtain ⟨kind, key, value⟩ := op
  cases kind <;> rfl

variable {m : MemTable}

/-- The insertions succeed when each goes to a key without a version at the sequence. -/
theorem foldlM_insertOp_of_fresh {seq : ℕ} (hseq : seq ≤ kMaxSeqNum) (ops : List Op)
    (hm : ∀ x ∈ ops.filterMap (Op.point? seq), ∀ e ∈ m.entries, e.key = x.key → e.seq ≠ seq)
    (hkeys : ((ops.filterMap (Op.point? seq)).map (·.key)).Nodup) :
    ∃ m', ops.foldlM (insertOp seq) m = some m' := by
  induction ops generalizing m with
  | nil => exact ⟨m, rfl⟩
  | cons op ops ih =>
    rw [foldlM_cons]
    cases hx : op.point? seq with
    | none =>
      rw [filterMap_cons_none hx] at hm hkeys
      rw [insertOp_eq, hx]
      exact ih hm hkeys
    | some x =>
      rw [filterMap_cons_some hx] at hm hkeys
      rw [map_cons, nodup_cons] at hkeys
      have hxs := (Op.point?_key hx).2.1
      have hadd := MemTable.add_eq (hxs ▸ hseq) fun e he hk ht =>
        hm x mem_cons_self e he hk ((Entry.seq_eq_of_tag ht).trans hxs)
      rw [insertOp_eq, hx]
      refine (congrArg (· >>= _) hadd) ▸ ih (fun y hy e he hk => ?_) hkeys.2
      rcases mem_cons.mp ((insertEntry_perm x m.entries).mem_iff.mp he) with rfl | he
      · exact absurd (mem_map.mpr ⟨y, hy, hk.symm⟩) hkeys.1
      · exact hm y (mem_cons_of_mem _ hy) e he hk

/-- The version of a pending operation. -/
def Pending.version (S : ℕ) (k : Slice) (p : OpKind × Slice) : Entry :=
  if p.1 = .set then { key := k, seq := S, type := .value, value := p.2 }
  else { key := k, seq := S, type := .deletion }

theorem Pending.version_key (S : ℕ) (k : Slice) (p : OpKind × Slice) :
    (version S k p).key = k ∧ (version S k p).seq = S := by
  unfold version
  split_ifs <;> exact ⟨rfl, rfl⟩

theorem point?_pendingOp {p : Slice × OpKind × Slice} (h : p.2.1 ≠ .deleteRange) (S : ℕ) :
    (Pending.op p).point? S = some (Pending.version S p.1 p.2) := by
  obtain ⟨k, kind, value⟩ := p
  cases kind with
  | deleteRange => exact absurd rfl h
  | _ => rfl

/-- The versions a collapsed batch inserts are those of the pending operations. -/
theorem collapse_entries_eq (b : WriteBatch) (S : ℕ) :
    (collapseBatch b).ops.filterMap (Op.point? S) =
      (Collapse.of b).pending.map fun p => Pending.version S p.1 p.2 := by
  rw [collapse_entries, filterMap_map, ← filterMap_eq_map]
  exact filterMap_congr fun p hp => point?_pendingOp ((Collapse.inv_of b).kinds p hp) S

section

variable {es es' : List Entry} {rs rs' : List MemRange} {k : Slice} {s : ℕ}

/-- The one version at the sequence itself decides, because no tombstone is above it. -/
theorem visible_of_point {e : Entry} (he : e ∈ es) (hk : e.key = k) (hs : e.seq = s)
    (huniq : ∀ x ∈ es, x.key = k → x.seq = s → x = e) :
    visible es rs k s = if e.type = .value then some e.value else none := by
  have hin : e ∈ es.filter fun x => x.key = k ∧ x.seq ≤ s := by simp [he, hk, hs]
  have hmax : (es.filter fun x => x.key = k ∧ x.seq ≤ s).argmax (·.seq) = some e := by
    cases hm : (es.filter fun x => x.key = k ∧ x.seq ≤ s).argmax (·.seq) with
    | none => exact absurd hin (argmax_eq_none.mp hm ▸ not_mem_nil)
    | some x =>
      have hx : x ∈ es ∧ x.key = k ∧ x.seq ≤ s := by simpa using argmax_mem hm
      have hle : e.seq ≤ x.seq := le_of_mem_argmax hin hm
      exact congrArg some (huniq x hx.1 hx.2.1 (le_antisymm hx.2.2 (hs ▸ hle)))
  have hclear : ∀ r ∈ rs, r.covers k → r.seq ≤ s → r.seq ≤ e.seq := fun r _ _ hr => hs ▸ hr
  unfold visible
  rw [hmax]
  exact if_congr (and_iff_left hclear) rfl rfl

theorem visible_of_tombstone (hes : ∀ e ∈ es, e.key = k → e.seq < s) {r : MemRange} (hr : r ∈ rs)
    (hc : r.covers k) (hs : r.seq = s) : visible es rs k s = none := by
  unfold visible
  split
  · rfl
  · next e he =>
    have hin : e ∈ es ∧ e.key = k ∧ e.seq ≤ s := by simpa using argmax_mem he
    refine if_neg fun h => ?_
    exact ((h.2 r hr hc hs.le).trans_lt (hes e hin.1 hin.2.1)).ne hs

/-- What is visible depends on the versions of the key and on the tombstones over it. -/
theorem visible_congr_filter
    (hes : es.filter (·.key = k) = es'.filter (·.key = k))
    (hrs : ∀ r : MemRange, r.covers k → (r ∈ rs ↔ r ∈ rs')) :
    visible es rs k s = visible es' rs' k s := by
  have hfilter : ∀ l : List Entry, l.filter (fun e => e.key = k ∧ e.seq ≤ s) =
      (l.filter (·.key = k)).filter (·.seq ≤ s) := fun l => by
    rw [filter_filter]
    exact filter_congr fun e _ => by simp [Bool.and_comm]
  have hclear : ∀ e : Entry, (∀ r ∈ rs, r.covers k → r.seq ≤ s → r.seq ≤ e.seq) ↔
      ∀ r ∈ rs', r.covers k → r.seq ≤ s → r.seq ≤ e.seq := fun e =>
    ⟨fun h r hr hc => h r ((hrs r hc).mpr hr) hc, fun h r hr hc => h r ((hrs r hc).mp hr) hc⟩
  unfold visible
  simp only [hfilter, hes, hclear]

end

theorem MemRange.covers_stamp (r : MemRange) (S : ℕ) (k : Slice) :
    MemRange.covers { r with seq := S, fin := if r.endUnbounded then [] else r.fin } k =
      r.covers k := by
  unfold covers
  by_cases hu : r.endUnbounded <;> simp [hu]

theorem exists_version (es : List Entry) (rs : List MemRange) (s : ℕ) :
    ∃ v : Model.Version, ∀ k, v.get k = visible es rs k s := by
  -- one key at a time
  have hkeys : ∀ ks : List Slice, ∃ v : Model.Version, ∀ k,
      v.get k = if k ∈ ks then visible es rs k s else none := by
    intro ks
    induction ks with
    | nil => exact ⟨{}, fun k => by simp⟩
    | cons a ks ih =>
      obtain ⟨v, hv⟩ := ih
      cases ha : visible es rs a s with
      | none =>
        refine ⟨v, fun k => (hv k).trans ?_⟩
        by_cases hk : k = a
        · subst hk
          simp [ha]
        · simp [hk]
      | some x =>
        refine ⟨v.set a x, fun k => ?_⟩
        rw [OrderedMap.get_set, hv]
        by_cases hk : a = k
        · subst hk
          simp [ha]
        · simp [hk, Ne.symm hk]
  obtain ⟨v, hv⟩ := hkeys (es.map (·.key))
  refine ⟨v, fun k => (hv k).trans ?_⟩
  split_ifs with hk
  · rfl
  · cases h : visible es rs k s with
    | none => rfl
    | some x =>
      obtain ⟨e, he, rfl⟩ := exists_mem_of_visible h
      exact absurd (mem_map_of_mem he) hk

section

variable {m m' : MemTable} {older : List Entry} {olderRanges : List MemRange} {S : ℕ}
  {b : WriteBatch}

/-- What is visible after the insertions is what the collapse makes of the content before. -/
theorem visible_eq_content (hsorted : m.entries.Pairwise Entry.Lt)
    (hentries : ∀ e ∈ m.entries ++ older, e.seq < S)
    (hins : insertBatch m S (collapseBatch b) = some m') (k : Slice) :
    visible (m'.entries ++ older) (m'.ranges ++ olderRanges) k S =
      (Collapse.of b).content
        (fun k => visible (m.entries ++ older) (m.ranges ++ olderRanges) k S) k := by
  obtain ⟨hsorted', hperm, -, hranges⟩ := insertBatch_eq_some hsorted hins
  rw [collapse_entries_eq] at hperm
  have hpending := @Pending.mem_iff_find _ (Collapse.inv_of b).keys
  have hnew : ∀ e ∈ m'.entries ++ older, e.seq < S ∨
      ∃ p ∈ (Collapse.of b).pending, Pending.version S p.1 p.2 = e := by
    intro e he
    rcases mem_append.mp he with he' | he'
    · rcases mem_append.mp (hperm.mem_iff.mp he') with he' | he'
      · exact .inl (hentries e (mem_append_left _ he'))
      · exact .inr (mem_map.mp he')
    · exact .inl (hentries e (mem_append_right _ he'))
  unfold Collapse.content
  cases hfind : (Collapse.of b).pending.find k with
  | some p =>
    -- the batch writes the key: its version is the only one at the sequence
    have hmem : Pending.version S k p ∈ m'.entries ++ older := mem_append_left _
      (hperm.mem_iff.mpr (mem_append_right _ (mem_map.mpr ⟨_, hpending.mpr hfind, rfl⟩)))
    rw [visible_of_point hmem (Pending.version_key S k p).1 (Pending.version_key S k p).2]
    · unfold Pending.version
      by_cases hp : p.1 = .set <;> simp [hp]
    · intro x hx hxk hxs
      obtain hlt | ⟨⟨k', p'⟩, hp', rfl⟩ := hnew x hx
      · exact absurd hxs hlt.ne
      obtain rfl : k' = k := (Pending.version_key S k' p').1.symm.trans hxk
      rw [Option.some.inj (hfind.symm.trans (hpending.mp hp'))]
  | none =>
    have hother : ∀ p ∈ (Collapse.of b).pending, p.1 ≠ k := by
      rintro ⟨k', p⟩ hp rfl
      exact absurd (hpending.mp hp) (by simp [hfind])
    rw [Option.elim_none]
    split_ifs with hc
    · -- the batch deletes the key: its tombstone hides every version there is
      obtain ⟨r, hr, hcov⟩ := any_eq_true.mp hc
      refine visible_of_tombstone (fun e he hk => ?_)
        (mem_append_left _ (hranges ▸ mem_append_right _ (mem_map_of_mem hr)))
        ((r.covers_stamp S k).trans hcov) rfl
      refine (hnew e he).resolve_right ?_
      rintro ⟨p, hp, rfl⟩
      exact hother p hp ((Pending.version_key S p.1 p.2).1.symm.trans hk)
    · refine visible_congr_filter ?_ fun r hcov => ?_
      · rw [filter_append, filter_append]
        refine congrArg (· ++ _) (eq_of_perm_of_pairwise ((hperm.filter _).trans ?_)
          (hsorted'.filter _) (hsorted.filter _))
        have hnone : ((Collapse.of b).pending.map fun p => Pending.version S p.1 p.2).filter
            (·.key = k) = [] := by
          refine filter_eq_nil_iff.mpr fun e he => ?_
          obtain ⟨p, hp, rfl⟩ := mem_map.mp he
          simpa [(Pending.version_key S p.1 p.2).1] using hother p hp
        rw [filter_append, hnone, append_nil]
      · rw [hranges, append_assoc, mem_append, mem_append, mem_append]
        refine or_congr_right (or_iff_right fun hr => hc ?_)
        obtain ⟨r', hr', rfl⟩ := mem_map.mp hr
        exact any_eq_true.mpr ⟨r', hr', (r'.covers_stamp S k).symm.trans hcov⟩

end

/-- A batch that is collapsed and inserted at one sequence above everything there is makes visible
what the reference engine reaches by applying its operations one after another. The memtable may stand
above any older versions and tombstones. -/
theorem visible_insertBatch {older : List Entry} {olderRanges : List MemRange} {S : ℕ}
    (hS : S ≤ kMaxSeqNum) (hsorted : m.entries.Pairwise Entry.Lt)
    (hentries : ∀ e ∈ m.entries ++ older, e.seq < S) {v : Model.Version}
    (hv : ∀ k, visible (m.entries ++ older) (m.ranges ++ olderRanges) k S = Model.lookup v.entries k)
    (b : WriteBatch) :
    ∃ m', insertBatch m S (collapseBatch b) = some m' ∧
      ∀ k, visible (m'.entries ++ older) (m'.ranges ++ olderRanges) k S =
        Model.lookup (Model.applyEntries v.entries (b.map (·.toModel))) k := by
  have hops : ∃ m₁, (collapseBatch b).ops.foldlM (insertOp S) m = some m₁ := by
    refine foldlM_insertOp_of_fresh hS _ (fun x _ e he _ => ?_) (collapse_entries_nodup b S)
    exact (hentries e (mem_append_left _ he)).ne
  obtain ⟨m₁, hm₁⟩ := hops
  have hins : insertBatch m S (collapseBatch b) =
      some ((collapseBatch b).ranges.foldl (insertRange S) m₁) := by
    unfold insertBatch
    rw [hm₁]
    rfl
  refine ⟨_, hins, fun k => ?_⟩
  have hprior : (fun k => visible (m.entries ++ older) (m.ranges ++ olderRanges) k S) = v.get :=
    funext fun k => (hv k).trans (Model.lookup_entries v k)
  rw [visible_eq_content hsorted hentries hins, hprior, Collapse.content_of,
    Model.applyEntries_eq, Model.lookup_entries]


/-- Two versions in a memtable, with a tombstone between them in age. -/
def sampleMem : MemTable where
  entries := [{ key := [1], seq := 3, type := .value, value := [7] },
    { key := [2], seq := 1, type := .value, value := [8] }]
  ranges := [{ start := [2], fin := [4], seq := 2 }]

/-- A set that is erased, one that follows its range, an inverted range, a deletion and a range without
an end. -/
def sampleBatch : WriteBatch :=
  [.set [1] [9], .deleteRange (some [1]) (some [3]), .set [2] [5],
    .deleteRange (some [5]) (some [4]), .delete [6], .deleteRange (some [7]) none]

theorem visible_sampleBatch : ∃ v : Model.Version,
    (∀ k, visible sampleMem.entries sampleMem.ranges k 4 = Model.lookup v.entries k) ∧
      ∃ m', insertBatch sampleMem 4 (collapseBatch sampleBatch) = some m' ∧
        ∀ k, visible m'.entries m'.ranges k 4 =
          Model.lookup (Model.applyEntries v.entries (sampleBatch.map (·.toModel))) k := by
  obtain ⟨v, hv⟩ := exists_version sampleMem.entries sampleMem.ranges 4
  have hprior : ∀ k, visible (sampleMem.entries ++ []) (sampleMem.ranges ++ []) k 4 =
      Model.lookup v.entries k := by
    intro k
    rw [append_nil, append_nil, Model.lookup_entries, hv]
  obtain ⟨m', hins, hm'⟩ := visible_insertBatch (by decide) (by decide) (by decide) hprior sampleBatch
  simp only [append_nil] at hprior hm'
  exact ⟨v, hprior, m', hins, hm'⟩

end Rift.Engine
