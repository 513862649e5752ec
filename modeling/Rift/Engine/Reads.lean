import Rift.Engine.Drop
import Rift.Engine.Scan
import Rift.Engine.Workload

/-!
# Compactions and readers

Nobody who reads at the current sequence or through a live snapshot can tell that a compaction took
place: lookups and walks give what they gave before. Dropping is sound because a compaction takes in
everything of level 1 that its inputs could hide. A range deletion without an end breaks this: it is
not part of the bounds of its table, so a table of level 1 that it hides may be left out, and when the
deletion is dropped, what it hid is back.
-/

namespace Rift.Engine

open List

/-! ### Clipped tombstones -/

section

variable {fileStart boundary : Option Slice} {r r' : MemRange} {k : Slice}

theorem MemRange.covers_of_clip (h : r.clip fileStart boundary = some r') (hc : r'.covers k) :
    r.covers k := by
  obtain ⟨-, hstart, -, hfin, -⟩ := clip_eq_some h
  rw [covers_iff] at hc ⊢
  refine ⟨hstart.trans hc.1, ?_⟩
  by_cases hu : r.endUnbounded
  · exact .inl hu
  · obtain ⟨hu', hle⟩ := hfin hu
    exact .inr ((hc.2.resolve_left hu').trans_le hle)

theorem MemRange.exists_clip (hc : r.covers k) (hstart : ∀ s ∈ fileStart, s ≤ k)
    (hnext : ∀ b ∈ boundary, k < b) :
    ∃ r', r.clip fileStart boundary = some r' ∧ r'.covers k ∧ r'.seq = r.seq := by
  rw [covers_iff] at hc
  have hlo : r.clipStart fileStart ≤ k := by
    unfold clipStart
    cases fileStart with
    | none => exact hc.1
    | some s =>
      dsimp only
      split_ifs
      · exact hstart s rfl
      · exact hc.1
  unfold clip
  cases boundary with
  | none =>
    dsimp only
    split_ifs with hu hlt
    · exact ⟨_, rfl, covers_iff.mpr ⟨hlo, .inl hu⟩, rfl⟩
    · exact ⟨_, rfl, covers_iff.mpr ⟨hlo, hc.2⟩, rfl⟩
    · exact absurd (hlo.trans_lt (hc.2.resolve_left hu)) hlt
  | some b =>
    have hb := hnext b rfl
    dsimp only
    have hhi : k < if r.endUnbounded then b else if b < r.fin then b else r.fin := by
      split_ifs with hu hlt
      · exact hb
      · exact hb
      · exact hc.2.resolve_left hu
    rw [if_pos (hlo.trans_lt hhi)]
    exact ⟨_, rfl, covers_iff.mpr ⟨hlo, .inr hhi⟩, rfl⟩

end

namespace Table

variable {tombstones : List MemRange} {next : Option Slice} {t : Table} {ts : List Table} {e : Entry}

theorem firstKey_le (he : e ∈ t.entries) : t.firstKey ≤ e.key := by
  unfold firstKey
  obtain ⟨x, xs, hxs⟩ := exists_cons_of_ne_nil t.nonempty
  simp only [hxs, head_cons]
  rw [hxs] at he
  rcases mem_cons.mp he with rfl | he
  · exact le_rfl
  · have hlt := (pairwise_cons.mp (hxs ▸ t.sorted)).1 e he
    exact (Entry.lt_iff.mp hlt).elim le_of_lt fun h => h.1.le

/-- A tombstone over a key of linked tables is over it in the table that holds the key. -/
theorem Links.exists_covering (h : Links tombstones none ts) (ht : t ∈ ts) (he : e ∈ t.entries)
    {r : MemRange} (hr : r ∈ tombstones) (hc : r.covers e.key) :
    ∃ r' ∈ ts.flatMap (·.tombstones), r'.covers e.key ∧ r'.seq = r.seq := by
  obtain ⟨next, hpiece⟩ := h.piece ht
  obtain ⟨r', hclip, hc', hseq⟩ := @MemRange.exists_clip (some t.firstKey) next r e.key hc
    (by rintro _ ⟨rfl⟩; exact firstKey_le he) fun b hb => hpiece.below b hb e he
  refine ⟨r', mem_flatMap.mpr ⟨t, ht, ?_⟩, hc', hseq⟩
  rw [hpiece.clipped]
  exact mem_filterMap.mpr ⟨r, hr, hclip⟩

theorem Links.exists_covered (h : Links tombstones next ts) {r' : MemRange} {k : Slice}
    (hr : r' ∈ ts.flatMap (·.tombstones)) (hc : r'.covers k) :
    ∃ r ∈ tombstones, r.covers k ∧ r.seq = r'.seq := by
  obtain ⟨t, ht, hr⟩ := mem_flatMap.mp hr
  obtain ⟨_, hpiece⟩ := h.piece ht
  obtain ⟨r, hmem, hclip⟩ := hpiece.exists_clip hr
  exact ⟨r, hmem, MemRange.covers_of_clip hclip hc, (MemRange.clip_eq_some hclip).1.symm⟩

end Table

/-- A read depends on which versions there are, and on what covers the one it finds. -/
theorem Entry.Read.congr {es es' : List Entry} {rs rs' : List MemRange} {k : Slice} {s : ℕ}
    {e : Entry} (hes : ∀ x, x ∈ es ↔ x ∈ es')
    (hrs : e ∈ es → e.key = k → ((∀ r ∈ rs, r.covers k → r.seq ≤ s → r.seq ≤ e.seq) ↔
      ∀ r ∈ rs', r.covers k → r.seq ≤ s → r.seq ≤ e.seq)) :
    e.Read es rs k s ↔ e.Read es' rs' k s := by
  constructor
  · intro h
    exact ⟨(hes e).mp h.mem, h.key, h.seq_le, fun x hx => h.newest x ((hes x).mpr hx), h.value,
      (hrs h.mem h.key).mp h.clear⟩
  · intro h
    have hmem := (hes e).mpr h.mem
    exact ⟨hmem, h.key, h.seq_le, fun x hx => h.newest x ((hes x).mp hx), h.value,
      (hrs hmem h.key).mpr h.clear⟩

/-! ### The invariant -/

namespace DBImpl

variable {d d' : DBImpl}

theorem mem_version_ranges (h : d.imm = none) {r : MemRange} : r ∈ d.version.ranges ↔
    r ∈ d.mem.ranges ∨ ∃ t ∈ d.l0 ++ d.l1, r ∈ t.tombstones := by
  simp [version, Version.ranges, h, or_and_right, exists_or]

theorem Inv.layered (h : d.Inv) : d.version.Layered where
  mem := h.mem.sorted
  imm := fun m hm => by
    have : d.imm = some m := hm
    rw [h.idle] at this
    cases this
  legal := fun e he => by
    rcases (mem_version_entries h.idle).mp he with he | ⟨t, -, he⟩
    · exact h.mem.legal e he
    · exact t.legal e he
  newer := by
    have hsub : d.version.contents.Sublist (d.mem.entries :: d.stores) := by
      unfold Version.contents stores version
      rw [h.idle]
      refine .cons_cons _ ?_
      split_ifs with hl
      · simp
      · simp
    have hnewer := pairwise_cons.mpr
      ⟨fun a ha x hx y hy => h.lt_of_mem_stores ha hx hy, h.newer⟩
    exact (hnewer.sublist hsub).imp fun hab x hx y hy _ => hab x hx y hy
  distinct := h.distinct
  run := (accepted_iff.mpr h.clear).2.1

/-! ### Before and after a compaction -/

/-- A tombstone without an end among the inputs of a compaction begins above every version of a table
of level 1 that the compaction leaves out. -/
def Confines (d : DBImpl) : Prop :=
  ∀ p ∈ d.pick, ∀ t ∈ p.inputs, ∀ r ∈ t.tombstones, r.endUnbounded →
    ∀ u ∈ p.keepL1, ∀ e ∈ u.entries, e.key < r.start

instance (d : DBImpl) : Decidable d.Confines := by
  unfold Confines
  infer_instance

variable {p : Picked} {r : TableRoller} {e : Entry}

theorem mem_tables_iff (hp : d.pick = some p) {t : Table} :
    t ∈ d.l0 ++ d.l1 ↔ t ∈ p.inputs ∨ t ∈ p.keepL1 := by
  obtain ⟨_, _, -, h₀, h₁, hkeep⟩ := pick_eq_some hp
  rw [Picked.inputs, h₀, h₁, hkeep]
  simp only [mem_append, mem_filter, Bool.not_eq_true']
  constructor
  · rintro (ht | ht)
    · exact .inl (.inl ht)
    · rcases Bool.eq_false_or_eq_true (overlaps (hull _ _) t) with ho | ho
      · exact .inl (.inr ⟨ht, ho⟩)
      · exact .inr ⟨ht, ho⟩
  · rintro ((ht | ⟨ht, -⟩) | ⟨ht, -⟩)
    · exact .inl ht
    · exact .inr ht
    · exact .inr ht

/-- A key of a table that is left out is no key of an input, and no tombstone of an input is over
it. -/
theorem Inv.apart_of_keep (h : d.Inv) (hp : d.pick = some p) (hconf : d.Confines) {u : Table}
    (hu : u ∈ p.keepL1) {x : Entry} (hx : x ∈ u.entries) :
    ∀ t ∈ p.inputs, (∀ e ∈ t.entries, e.key ≠ x.key) ∧ ∀ r ∈ t.tombstones, ¬ r.covers x.key := by
  have hxlo : u.lo ≤ x.key := InternalKey.userKey_le (u.bounds.lower x hx)
  intro t ht
  by_cases ha : p.above u
  · have hbefore := h.inputs_before hp hu ha t ht
    refine ⟨fun e he => ((hbefore.key_lt he).trans_le hxlo).ne, fun r hr hc => ?_⟩
    rw [MemRange.covers_iff] at hc
    by_cases hub : r.endUnbounded
    · exact hc.1.not_gt (hconf p hp t ht r hr hub u hu x hx)
    · have hfin := (t.bounds.fin r hr hub).trans hbefore.hi_le
      exact ((hc.2.resolve_left hub).trans_le (hfin.trans hxlo)).false
  · have hlt : x.key < t.lo := (h.before_inputs hp hu ha t ht).key_lt hx
    refine ⟨fun e he => (hlt.trans_le (InternalKey.userKey_le (t.bounds.lower e he))).ne',
      fun r hr hc => ?_⟩
    exact ((MemRange.covers_iff.mp hc).1.trans_lt hlt).not_ge (t.bounds.start r hr)

/-- The drop rule applies: what is left out lies apart from the inputs. -/
theorem Inv.sound (h : d.Inv) (hmax : d.seq ≤ kMaxSeqNum) (hp : d.pick = some p)
    (hconf : d.Confines) (hs : (merged p.contents).Pairwise Entry.Lt) :
    (d.compaction p).Sound (merged p.contents) (p.keepL1.flatMap (·.entries)) := by
  have hin : ∀ {e}, e ∈ merged p.contents → ∃ t ∈ p.inputs, e ∈ t.entries := fun {e} he =>
    mem_flatMap.mp (p.flatten_contents ▸ mem_merged.mp he)
  have htomb : ∀ {x}, x ∈ (d.compaction p).tombstones → ∃ t ∈ p.inputs, x ∈ t.tombstones :=
    fun {x} hx => mem_flatMap.mp hx
  have hpin : ∀ {t}, t ∈ p.inputs → t.check.largestSeq ≤ (d.compaction p).pinSeq := fun {t} ht =>
    Table.le_foldl_max (.inr (mem_map_of_mem ht))
  have hobs : ∀ {s}, s ∈ (d.compaction p).observable → s ≤ d.seq := fun {s} hs => by
    rcases mem_observableNow.mp hs with rfl | hs
    · exact le_rfl
    · exact h.snapshots_le s hs
  refine
    { sorted := hs
      distinct := fun x hx y hy => ?_
      ascending := pairwise_observableNow
      legal := fun s hs => (hobs hs).trans hmax
      last := ⟨d.seq, mem_observableNow.mpr (.inl rfl), fun e he => ?_, fun x hx => ?_⟩
      pin := ⟨fun e he => ?_, fun x hx => ?_⟩
      older := fun x hx e he hk => ?_
      bottom := fun _ x hx => ⟨fun e he => ?_, fun y hy => ?_⟩ }
  · have hmem : ∀ {e}, e ∈ merged p.contents → e ∈ d.version.entries := fun he => by
      obtain ⟨t, ht, he⟩ := hin he
      exact (mem_version_entries h.idle).mpr (.inr ⟨t, mem_inputs hp ht, he⟩)
    exact h.distinct x (hmem hx) y (hmem hy)
  · obtain ⟨t, ht, he⟩ := hin he
    exact h.table_entry_le (mem_inputs hp ht) he
  · obtain ⟨t, ht, hx⟩ := htomb hx
    exact (t.range_seq_le_largestSeq hx).trans (h.tableSeq t (mem_inputs hp ht))
  · obtain ⟨t, ht, he⟩ := hin he
    exact (t.seq_le_largestSeq he).trans (hpin ht)
  · obtain ⟨t, ht, hx⟩ := htomb hx
    exact (t.range_seq_le_largestSeq hx).trans (hpin ht)
  · obtain ⟨u, hu, hx⟩ := mem_flatMap.mp hx
    obtain ⟨t, ht, he⟩ := hin he
    exact absurd hk.symm ((h.apart_of_keep hp hconf hu hx t ht).1 e he)
  · obtain ⟨u, hu, hx⟩ := mem_flatMap.mp hx
    obtain ⟨t, ht, he⟩ := hin he
    exact (h.apart_of_keep hp hconf hu hx t ht).1 e he
  · obtain ⟨u, hu, hx⟩ := mem_flatMap.mp hx
    obtain ⟨t, ht, hy⟩ := htomb hy
    exact (h.apart_of_keep hp hconf hu hx t ht).2 y hy

theorem Inv.pinSeq_lt (h : d.Inv) (hp : d.pick = some p) (he : e ∈ d.mem.entries) :
    (d.compaction p).pinSeq < e.seq := by
  have hold : ∀ u ∈ p.inputs, u.check.largestSeq < e.seq := fun u hu =>
    h.fresher e he u (mem_inputs hp hu)
  have hle : (d.compaction p).pinSeq ≤ e.seq - 1 := by
    refine Table.foldl_max_le (Nat.zero_le _) fun q hq => ?_
    obtain ⟨u, hu, rfl⟩ := mem_map.mp hq
    exact Nat.le_sub_one_of_lt (hold u hu)
  obtain ⟨t₀, ts, hl0, h₀, -⟩ := pick_eq_some hp
  have := hold t₀ (mem_append_left _ (by rw [h₀, hl0]; exact mem_cons_self))
  omega

/-- The tombstones that were written are clipped to their files. Over the versions that are left this
makes no difference. -/
theorem Inv.clear_iff (h : d.Inv) (hp : d.pick = some p) (hconf : d.Confines)
    (hlinks : Table.Links (d.tombstones p) none r.outputs) {k : Slice}
    {s : ℕ} (hk : e.key = k)
    (he : e ∈ d.mem.entries ∨ (∃ t ∈ r.outputs, e ∈ t.entries) ∨ ∃ t ∈ p.keepL1, e ∈ t.entries) :
    (∀ x ∈ r.outputs.flatMap (·.tombstones), x.covers k → x.seq ≤ s → x.seq ≤ e.seq) ↔
      ∀ x ∈ (d.compaction p).survivors, x.covers k → x.seq ≤ s → x.seq ≤ e.seq := by
  subst hk
  constructor
  · intro hclear x hx hc hs
    obtain ⟨u, hu, hxu⟩ := mem_of_mem_survivors hx
    rcases he with he | ⟨t, ht, he⟩ | ⟨t, ht, he⟩
    · exact (u.range_seq_le_largestSeq hxu).trans (h.fresher e he u (mem_inputs hp hu)).le
    · obtain ⟨y, hy, hcy, hseq⟩ := hlinks.exists_covering ht he (mem_sortRanges.mpr hx) hc
      exact hseq ▸ hclear y hy hcy (hseq ▸ hs)
    · exact absurd hc ((h.apart_of_keep hp hconf ht he u hu).2 x hxu)
  · intro hclear x hx hc hs
    obtain ⟨y, hy, hcy, hseq⟩ := hlinks.exists_covered hx hc
    exact hseq ▸ hclear y (mem_sortRanges.mp hy) hcy (hseq ▸ hs)

theorem Inv.visible_doCompact (h : d.Inv) (hmax : d.seq ≤ kMaxSeqNum)
    (hp : d.pick = some p) (hconf : d.Confines) (hsep : d.Separates p)
    (hc : d.doCompact p = some d') {s : ℕ} (hs : s ∈ d.observableNow) (k : Slice) :
    visible d'.version.entries d'.version.ranges k s =
      visible d.version.entries d.version.ranges k s := by
  have h' := h.doCompact hp hsep hc
  obtain ⟨r, hr, hd'⟩ := doCompact_eq_some hp hc
  have hmem : d'.mem = d.mem := by rw [hd']
  have htables : d'.l0 ++ d'.l1 = p.nextL1 r := by rw [hd']; rfl
  obtain ⟨hsort, ho⟩ := h.outputs_spec hp hr
  have hout : (d.compaction p |>.emit {} (merged p.contents)).map Prod.fst =
      r.outputs.flatMap (·.entries) := ho.entries.symm
  have hin : ∀ e, e ∈ merged p.contents ↔ ∃ t ∈ p.inputs, e ∈ t.entries := fun e => by
    rw [mem_merged, p.flatten_contents, mem_flatMap]
  have hnext : ∀ t, t ∈ p.nextL1 r ↔ t ∈ r.outputs ∨ t ∈ p.keepL1 := fun t => by
    rw [Picked.nextL1, mem_sortTables, mem_append, or_comm]
  refine visible_congr h'.distinct h.distinct fun e => ?_
  have hread := (h.sound hmax hp hconf hsort).read_iff (e := e)
    (fun x hx => h.pinSeq_lt hp hx) (.inl hs) (d.mem.ranges ++ p.keepL1.flatMap (·.tombstones)) k
  refine Iff.trans ?_ (hread.symm.trans ?_)
  · refine Entry.Read.congr (fun x => ?_) fun he hk => ?_
    · rw [mem_version_entries h'.idle, mem_append, mem_append, hout, mem_flatMap,
        mem_flatMap, hmem, htables]
      simp only [hnext, or_and_right, exists_or]
    · rw [mem_version_entries h'.idle, hmem, htables] at he
      simp only [hnext, or_and_right, exists_or] at he
      have hiff : ∀ x, x ∈ d'.version.ranges ↔ x ∈ r.outputs.flatMap (·.tombstones) ∨
          x ∈ d.mem.ranges ++ p.keepL1.flatMap (·.tombstones) := fun x => by
        rw [mem_version_ranges h'.idle, hmem, htables, mem_append, mem_flatMap,
          mem_flatMap]
        simp only [hnext, or_and_right, exists_or]
        exact or_left_comm
      simp only [hiff, mem_append (s := (d.compaction p).survivors), or_imp, forall_and,
        h.clear_iff hp hconf ho.links (s := s) hk he]
  · refine Entry.Read.congr (fun x => ?_) fun _ _ => ?_
    · rw [mem_version_entries h.idle, mem_append, mem_append, hin, mem_flatMap]
      simp only [mem_tables_iff hp, or_and_right, exists_or]
    · have hiff : ∀ x : MemRange, x ∈ (d.compaction p).tombstones ++
          (d.mem.ranges ++ p.keepL1.flatMap (·.tombstones)) ↔ x ∈ d.version.ranges := fun x => by
        rw [mem_version_ranges h.idle]
        simp only [mem_append, mem_flatMap, compaction, mem_tables_iff hp, or_and_right,
          exists_or]
        exact or_left_comm
      simp only [hiff]

/-! ### Whole runs -/

/-- Whoever reads at an observable sequence finds the same after a compaction: every lookup, and both
walks inside any bounds. The tombstones of the compactions respect the files around them, and the one in
question confines its tombstones without an end. -/
theorem Reach.compaction_keeps_reads {caps : Caps} {flushBytes : ℕ} {memoryUsage : MemTable → ℕ}
    {d₁ d₂ : DBImpl} {s : ℕ} (h : Reach (separates · ·) (fresh caps flushBytes memoryUsage) d)
    (hsep : separates .sync d) (hf : d.syncFlush = some d₁) (hconf : d₁.Confines)
    (hmax : d₁.seq ≤ kMaxSeqNum) (hc : d₁.maybeCompact = some d₂) (hs : s ∈ d₁.observableNow) :
    (∀ k, d₂.version.get k s = d₁.version.get k s) ∧
      ∀ (o : IterOptions) (fuel : ℕ), (d₁.version.content s).entries.length < fuel →
        d₂.version.scan s o fuel = d₁.version.scan s o fuel ∧
          d₂.version.scanBack s o fuel = d₁.version.scanBack s o fuel ∧
          (d₂.version.scan s o fuel).isSome ∧ (d₂.version.scanBack s o fuel).isSome := by
  have h₁ := h.inv.syncFlush hf
  have hsep := separates_sync hsep hf
  have h₂ := h₁.maybeCompact hsep hc
  have hle : s ≤ kMaxSeqNum := by
    refine le_trans ?_ hmax
    rcases mem_observableNow.mp hs with rfl | hs
    · exact le_rfl
    · exact h₁.snapshots_le s hs
  have hsame : ∀ k, visible d₂.version.entries d₂.version.ranges k s =
      visible d₁.version.entries d₁.version.ranges k s := by
    rcases maybeCompact_eq_some hc with rfl | ⟨p, hp, hc⟩
    · exact fun _ => rfl
    · exact h₁.visible_doCompact hmax hp hconf (hsep p hp) hc hs
  have hcontent : d₂.version.content s = d₁.version.content s :=
    OrderedMap.ext_get fun k => by rw [Version.get_content, Version.get_content, hsame]
  have hacc₁ := (accepted_iff.mpr h₁.clear).1
  have hacc₂ := (accepted_iff.mpr h₂.clear).1
  refine ⟨fun k => ?_, fun o fuel hfuel => ?_⟩
  · rw [Version.get_eq h₁.layered hle, Version.get_eq h₂.layered hle, hsame]
  · have hfuel₂ := hcontent ▸ hfuel
    rw [Version.scan_eq h₁.layered hacc₁ s o hfuel, Version.scanBack_eq h₁.layered hacc₁ s o hfuel,
      Version.scan_eq h₂.layered hacc₂ s o hfuel₂, Version.scanBack_eq h₂.layered hacc₂ s o hfuel₂,
      hcontent]
    exact ⟨rfl, rfl, rfl, rfl⟩

/-- A deletion of the key 98 and a snapshot below it, before the compaction that takes them in. -/
theorem small_snapshot_kept :
    ∃ d d₁ d₂, small.performAll separates
        [.write [.set [98] [0]], .newSnapshot, .write boundedBatch, .sync, .write boundedBatch, .sync,
          .write boundedBatch, .sync, .write boundedBatch] = some d ∧
      d.syncFlush = some d₁ ∧ d₁.maybeCompact = some d₂ ∧ d₁.l0.length = 4 ∧ d₂.l0 = [] ∧
      1 ∈ d₁.observableNow ∧ d₁.version.get [98] 1 = some (some [0]) ∧
      ∀ k, d₂.version.get k 1 = d₁.version.get k 1 := by
  have heval : (small.performAll separates
      [.write [.set [98] [0]], .newSnapshot, .write boundedBatch, .sync, .write boundedBatch, .sync,
        .write boundedBatch, .sync, .write boundedBatch]).any (fun d => separates .sync d &&
      d.syncFlush.any fun d₁ => d₁.Confines && d₁.seq ≤ kMaxSeqNum && d₁.l0.length = 4 &&
        1 ∈ d₁.observableNow && d₁.version.get [98] 1 = some (some [0]) &&
        d₁.maybeCompact.any fun d₂ => d₂.l0.isEmpty) = true := by
    decide +kernel
  obtain ⟨d, hd, heval⟩ := (Option.any_eq_true _ _).mp heval
  obtain ⟨hsep, heval⟩ := (Bool.and_eq_true _ _).mp heval
  obtain ⟨d₁, hf, heval⟩ := (Option.any_eq_true _ _).mp heval
  simp only [Bool.and_eq_true, decide_eq_true_eq] at heval
  obtain ⟨⟨⟨⟨⟨hconf, hmax⟩, hlen⟩, hobs⟩, hget⟩, heval⟩ := heval
  obtain ⟨d₂, hc, hnil⟩ := (Option.any_eq_true _ _).mp heval
  have hreach : Reach (separates · ·) small d := reach_of_performAll (fun _ _ => id) .refl hd
  exact ⟨d, d₁, d₂, hd, hf, hc, hlen, isEmpty_iff.mp hnil, hobs, hget,
    (@Reach.compaction_keeps_reads d {} 1 _ d₁ d₂ 1 hreach hsep hf hconf hmax hc hobs).1⟩

/-- A table of level 1 holds the key 122, and a range deletion without an end that starts below it is
flushed. Nobody reads below the deletion, so the compaction drops it; the table is not taken in,
because the bounds of level 0 end below it. The key is back. -/
theorem small_deletion_undone :
    ∃ d d₁ d₂, Reach (separates · ·) small d ∧ separates .sync d ∧ d.syncFlush = some d₁ ∧
      d₁.maybeCompact = some d₂ ∧ d₁.seq ∈ d₁.observableNow ∧
      d₁.version.get [122] d₁.seq = some none ∧ d₂.version.get [122] d₁.seq = some (some [0]) := by
  have heval : (small.performAll separates
      [.write [.set [122] [0]], .sync, .write [.set [122] [0]], .sync, .write [.set [122] [0]], .sync,
        .write [.set [122] [0]], .sync, .write mixedBatch, .sync, .write mixedBatch, .sync,
        .write mixedBatch, .sync, .write mixedBatch]).any (fun d => separates .sync d &&
      d.syncFlush.any fun d₁ => d₁.version.get [122] d₁.seq = some none &&
        d₁.maybeCompact.any fun d₂ => d₂.version.get [122] d₁.seq = some (some [0])) = true := by
    decide +kernel
  obtain ⟨d, hd, heval⟩ := (Option.any_eq_true _ _).mp heval
  obtain ⟨hsep, heval⟩ := (Bool.and_eq_true _ _).mp heval
  obtain ⟨d₁, hf, heval⟩ := (Option.any_eq_true _ _).mp heval
  obtain ⟨hbefore, heval⟩ := (Bool.and_eq_true _ _).mp heval
  obtain ⟨d₂, hc, hafter⟩ := (Option.any_eq_true _ _).mp heval
  exact ⟨d, d₁, d₂, reach_of_performAll (fun _ _ => id) .refl hd, hsep, hf, hc, mem_observableNow.mpr (.inl rfl), of_decide_eq_true hbefore,
    of_decide_eq_true hafter⟩

end DBImpl

end Rift.Engine
