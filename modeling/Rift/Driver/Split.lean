import Rift.Driver.Fleet
import Rift.Kv.Relocation

/-!
# What a split does to the records

`applySplit` divides the records of a range by their user keys. The left half stays where it is; the
right half is written again under the keyspace of a new range, in the same engine. Every record is in
one half, and the half that owns a key answers about it as the range did.

The left replica keeps a copy of its new descriptor, and a copy of an empty end is no end at all. A
cut at the empty key gives the left replica an unbounded extent and no records; leaders never propose
one.

## Main definitions

* `Divides` — two machines have the records of a range between them, and give its answers

## Main results

* `split_preserves_answers` — what a split does, at a key that is not empty
* `cut_at_empty_key` — the left half of a cut at the empty key answers for keys it has lost
-/

namespace Rift.Driver

open Kv Model List

variable {r : Range} {spec : SplitSpec} {d : RangeDescriptor} {s : Store} {key : Key}
  {e : Bytes × Bytes} {kind : UInt8}

/-- The machine of a range with nothing staged. -/
def Range.machine (r : Range) : Machine := { desc := r.desc, store := r.store }

/-! ### Records -/

theorem records_replaceRecords {rs : List (Bytes × Bytes)} (mark : Timestamp)
    (hsorted : rs.Pairwise fun a b => a.1 < b.1) (howns : ∀ e ∈ rs, s.owns e.1) :
    (replaceRecords s rs mark).records = rs := by
  have hnodup : (rs.map (·.1)).Nodup := by
    rw [List.Nodup, pairwise_map]
    exact hsorted.imp fun hlt => hlt.ne
  rw [Store.records_eq]
  refine OrderedMap.filter_eq_of_mem hsorted fun k x => ?_
  constructor
  · intro hmem
    refine ⟨?_, howns _ hmem⟩
    rw [get_replaceRecords_eq]
    exact (get_applyTo_sets_iff hnodup).mpr (.inl hmem)
  · rintro ⟨hget, hk⟩
    exact mem_records_replaceRecords (Store.mem_records.mpr ⟨hk, hget⟩)

theorem sorted_recordsIn (s : Store) (d : RangeDescriptor) :
    (recordsIn s d).Pairwise fun a b => a.1 < b.1 := by
  rw [recordsIn, Store.records_eq]
  exact (s.db.sorted.filter _).filter _

theorem mem_recordsIn_metaKey (hkind : kind ∈ Store.kinds) {rest x : Bytes} :
    (metaKey s.ns kind key ++ rest, x) ∈ recordsIn s d ↔
      s.db.get (metaKey s.ns kind key ++ rest) = some x ∧ d.contains key := by
  rw [recordsIn, mem_filter, Store.mem_records, userKeyOf_metaKey s hkind, Option.any_some]
  exact and_congr_left fun _ => and_iff_right (Store.owns_metaKey hkind key rest)

theorem reNamespace_append (src dst rest x : Bytes) :
    reNamespace (src ++ rest, x) src dst = (dst ++ rest, x) := by
  simp [reNamespace]

theorem movedRecords_eq (m : Machine) (spec : SplitSpec) :
    m.movedRecords spec = (recordsIn m.store spec.right).map fun e =>
      reNamespace e m.store.ns (rangePrefix spec.right.id) := by
  rw [recordsIn, ← Machine.map_filter_keyed, map_map]
  rfl

theorem exists_of_mem_recordsIn (h : e ∈ recordsIn s d) : ∃ rest, e = (s.ns ++ rest, e.2) := by
  have howns : s.owns e.1 := ((Store.mem_records (x := e.2)).mp (mem_of_mem_filter h)).1
  obtain ⟨rest, hrest⟩ := Store.isPrefix_of_owns howns
  exact ⟨rest, Prod.ext hrest.symm rfl⟩

theorem sorted_moved (s : Store) (d : RangeDescriptor) (dst : Bytes) :
    ((recordsIn s d).map fun e => reNamespace e s.ns dst).Pairwise fun a b => a.1 < b.1 := by
  rw [pairwise_map]
  refine (sorted_recordsIn s d).imp_of_mem fun {a b} ha hb hlt => ?_
  obtain ⟨u, hu⟩ := exists_of_mem_recordsIn ha
  obtain ⟨v, hv⟩ := exists_of_mem_recordsIn hb
  rw [hu, hv, append_lt_append_iff] at hlt
  rwa [hu, hv, reNamespace_append, reNamespace_append, append_lt_append_iff]

theorem mem_moved_metaKey {dst : Bytes} {rest x : Bytes} :
    (metaKey dst kind key ++ rest, x) ∈ (recordsIn s d).map (fun e => reNamespace e s.ns dst) ↔
      (metaKey s.ns kind key ++ rest, x) ∈ recordsIn s d := by
  have hmeta : ∀ ns : Bytes, metaKey ns kind key ++ rest = ns ++ (kind :: putBytes key.1 ++ rest) :=
    fun ns => append_assoc _ _ _
  constructor
  · intro hmem
    obtain ⟨e, he, heq⟩ := mem_map.mp hmem
    obtain ⟨u, hu⟩ := exists_of_mem_recordsIn he
    rw [hu, reNamespace_append, hmeta, Prod.mk.injEq, append_cancel_left_eq] at heq
    rw [hmeta, ← heq.1, ← heq.2, ← hu]
    exact he
  · intro hmem
    refine mem_map.mpr ⟨_, hmem, ?_⟩
    rw [hmeta, reNamespace_append, hmeta]

theorem owns_moved {dst : Store} (h : e ∈ (recordsIn s d).map fun e => reNamespace e s.ns dst.ns) :
    dst.owns e.1 := by
  obtain ⟨e, he, rfl⟩ := mem_map.mp h
  obtain ⟨hin, hkey⟩ := mem_filter.mp he
  obtain ⟨kind, hkind, rest, hrest⟩ :=
    Store.owns_iff.mp ((Store.mem_records (x := e.2)).mp hin).1
  have heq : e = (s.ns ++ kind :: rest, e.2) := Prod.ext (by simp [← hrest]) rfl
  rw [heq, reNamespace_append]
  exact Store.owns_iff.mpr ⟨kind, hkind, rest, by simp⟩

/-- Stores whose lookups of a key's records are alike hold the same records of it. -/
theorem sameAt_of_get_iff {t : Store} (hmark : s.gcMark = t.gcMark)
    (h : ∀ kind ∈ Store.kinds, ∀ rest x, s.db.get (metaKey s.ns kind key ++ rest) = some x ↔
      t.db.get (metaKey t.ns kind key ++ rest) = some x) : s.SameAt t key :=
  ⟨hmark, fun kind hkind rest => Option.ext fun x => h kind hkind rest x⟩

/-! ### The halves -/

/-- Two machines have divided a range: its extent, its records by their user keys, those on the right
under their own keyspace, and the answers about every key. -/
structure Divides (r : Range) (left right : Machine) : Prop where
  /-- Each key of the extent is on one side. -/
  side : ∀ key, r.desc.contains key → (left.desc.contains key ↔ ¬ right.desc.contains key)
  left_records : left.store.records = recordsIn r.store left.desc
  right_records : right.store.records =
    (recordsIn r.store right.desc).map fun e => reNamespace e r.store.ns right.store.ns
  left_answers : ∀ key, left.desc.contains key → left.store.SameAt r.store key
  right_answers : ∀ key, right.desc.contains key → right.store.SameAt r.store key

section Halves

variable {ranges : List RangeID} {cut : Key}

theorem contains_right_iff (hcur : spec.current r.desc) (hleft : spec.left.fin = some cut)
    (hstart : spec.right.start = cut) (hend : spec.right.fin = r.desc.fin)
    (hkey : r.desc.contains key) : spec.left.contains key ↔ ¬ spec.right.contains key := by
  simp only [SplitSpec.current, Bool.and_eq_true, decide_eq_true_eq] at hcur
  obtain ⟨hge, hlt⟩ := RangeDescriptor.contains_iff.mp hkey
  rw [RangeDescriptor.contains_iff, RangeDescriptor.contains_iff, hleft, hstart, hend, hcur.1.2]
  simp only [Option.mem_some_iff, forall_eq', hge, true_and]
  constructor
  · exact fun hk hge' => absurd hge'.1 hk.not_ge
  · exact fun hnot => lt_of_not_ge fun hk => hnot ⟨hk, hlt⟩

/-- A copy of a descriptor has the extent of the descriptor, unless its end is the empty string. -/
theorem contains_clone (h : ∀ e ∈ d.fin, e.1 ≠ []) (key : Key) :
    d.clone.contains key = d.contains key := by
  cases hfin : d.fin with
  | none => simp [RangeDescriptor.contains, RangeDescriptor.clone, hfin]
  | some e =>
    simp [RangeDescriptor.contains, RangeDescriptor.clone, hfin, copyBound_of_ne_nil (h e hfin)]

section

variable (hcontained : r.Contained)
  (hside : ∀ key, r.desc.contains key → (spec.left.contains key ↔ ¬ spec.right.contains key))
include hcontained hside

theorem keptRecords_eq : r.machine.keptRecords spec = recordsIn r.store spec.left := by
  have hkeyed := Machine.map_filter_keyed r.machine spec.left.contains
  rw [Machine.keptRecords, recordsIn, ← show r.machine.store = r.store from rfl, ← hkeyed]
  congr 1
  refine filter_congr fun kr hkr => ?_
  have hkey := hside kr.1 (Machine.contains_of_mem_keyed hcontained hkr)
  cases hleft : spec.left.contains kr.1 <;> simp_all

theorem covered_of_side :
    (r.machine.keyed.any fun kr => !spec.right.contains kr.1 && !spec.left.contains kr.1) = false := by
  refine Bool.eq_false_iff.mpr fun hany => ?_
  obtain ⟨kr, hkr, hneither⟩ := any_eq_true.mp hany
  have hkey := hside kr.1 (Machine.contains_of_mem_keyed hcontained hkr)
  cases hleft : spec.left.contains kr.1 <;> simp_all

end

/-- Descriptors that agree on the extent of a range select the same records of it. -/
theorem recordsIn_congr {d' : RangeDescriptor} (hcontained : r.Contained)
    (h : ∀ key, r.desc.contains key → d.contains key = d'.contains key) :
    recordsIn r.store d = recordsIn r.store d' := by
  refine filter_congr fun e he => ?_
  obtain ⟨key, huser, hkey⟩ := hcontained e.1 e.2 he
  rw [huser, Option.any_some, Option.any_some, h key hkey]

section

variable (hns : r.store.ns = rangePrefix r.desc.id) (hmem : r.desc.id ∈ ranges)
  (hcontained : r.Contained) (hcur : spec.current r.desc) (hfresh : spec.right.id ∉ ranges)
include hns hmem hcontained hcur hfresh

theorem applySplit_eq_some
    (hside : ∀ key, r.desc.contains key → (spec.left.contains key ↔ ¬ spec.right.contains key))
    (conf : Configuration) :
    ∃ left right,
      r.machine.applySplit conf ranges spec = some ((left, ranges ++ [spec.right.id]), some right) ∧
      left.desc = spec.left.clone ∧ right.desc = spec.right.clone ∧
      left.store.Agree (replaceRecords r.store (recordsIn r.store spec.left) r.store.gcMark) ∧
      ∃ db, right.store =
        replaceRecords { ns := rangePrefix spec.right.id, db := db }
          ((recordsIn r.store spec.right).map fun e =>
            reNamespace e r.store.ns (rangePrefix spec.right.id)) r.store.gcMark := by
  have hne : r.desc.id ≠ spec.right.id := fun heq => hfresh (heq ▸ hmem)
  have hkept := keptRecords_eq hcontained hside
  have hmoved := movedRecords_eq r.machine spec
  let left : Machine :=
    { r.machine.ingest (r.machine.keptRecords spec) r.store.gcMark with desc := spec.left.clone }
  let right := Machine.bearRight left.store.db spec (r.machine.movedRecords spec) r.store.gcMark conf
  have hstore : left.store =
      replaceRecords r.store (recordsIn r.store spec.left) r.store.gcMark := hkept ▸ rfl
  refine ⟨{ left with store := { left.store with db := right.store.db } }, right, ?_, rfl, rfl, ?_, ?_⟩
  · have hcur' : spec.current r.machine.desc := hcur
    simp only [Machine.applySplit, hcur', covered_of_side hcontained hside, Bool.not_true,
      Bool.false_eq_true, if_false, if_neg hfresh]
    rfl
  · rw [← hstore]
    refine Store.agree_with_db fun k hk => ?_
    have hpre : rangePrefix r.desc.id <+: k := by
      rw [← hns]
      exact Store.isPrefix_of_owns hk
    exact Machine.get_bearRight hne (fun e he => Machine.movedRecords_isPrefix he) hpre _ _ _
  · obtain ⟨v, -, hv⟩ := Machine.bearRight_eq left.store.db spec (r.machine.movedRecords spec)
      r.store.gcMark conf
    refine ⟨v, ?_⟩
    change right.store = replaceRecords _ ((recordsIn r.machine.store spec.right).map fun e =>
      reNamespace e r.machine.store.ns (rangePrefix spec.right.id)) _
    rw [← hmoved, show right = _ from hv]
    rfl

variable (hcut : cut.1 ≠ []) (hleft : spec.left.fin = some cut) (hstart : spec.right.start = cut)
  (hend : spec.right.fin = r.desc.fin)
include hcut hleft hstart hend

/-- The halves hold the records of the range, and each the records of its own keys. -/
theorem divides_applySplit (conf : Configuration) :
    ∃ left right,
      r.machine.applySplit conf ranges spec = some ((left, ranges ++ [spec.right.id]), some right) ∧
      left.store.ns = r.store.ns ∧ right.store.ns = rangePrefix spec.right.id ∧
      Divides r left right := by
  have hside : ∀ key, r.desc.contains key → (spec.left.contains key ↔ ¬ spec.right.contains key) :=
    fun key hkey => contains_right_iff hcur hleft hstart hend hkey
  obtain ⟨left, right, hsplit, hldesc, hrdesc, hagree, db, hright⟩ :=
    applySplit_eq_some hns hmem hcontained hcur hfresh hside conf
  have hin_left : ∀ key, left.desc.contains key = spec.left.contains key := by
    rw [hldesc]
    refine contains_clone fun e he => ?_
    rw [hleft] at he
    exact Option.some.inj he ▸ hcut
  have hin_right : ∀ key, r.desc.contains key → right.desc.contains key = spec.right.contains key := by
    -- A range with a key in its extent does not end at the empty string.
    intro key hkey
    rw [hrdesc]
    refine contains_clone (fun e he hnil => ?_) key
    have hlt := (RangeDescriptor.contains_iff.mp hkey).2 e (hend ▸ he)
    rw [hnil] at hlt
    exact not_lt_nil _ hlt
  have hleft_records : left.store.records = recordsIn r.store left.desc := by
    rw [hagree.records, recordsIn_congr hcontained fun key _ => hin_left key]
    refine records_replaceRecords _ (sorted_recordsIn _ _) fun e he => ?_
    exact ((Store.mem_records (x := e.2)).mp (mem_of_mem_filter he)).1
  have hright_ns : right.store.ns = rangePrefix spec.right.id := by
    rw [hright]
    rfl
  have hright_records : right.store.records =
      (recordsIn r.store right.desc).map fun e => reNamespace e r.store.ns right.store.ns := by
    rw [recordsIn_congr hcontained hin_right, hright_ns, hright]
    exact records_replaceRecords _ (sorted_moved _ _ _) fun e he => owns_moved he
  have hright_mark : right.store.gcMark = r.store.gcMark := by
    rw [hright]
    rfl
  refine ⟨left, right, hsplit, hagree.ns, hright_ns, fun key hkey => ?_, hleft_records,
    hright_records, fun key hkey => ?_, fun key hkey => ?_⟩
  · rw [hin_left, hin_right key hkey]
    exact hside key hkey
  · refine sameAt_of_get_iff hagree.gcMark fun kind hkind rest x => ?_
    have howns : left.store.owns (metaKey left.store.ns kind key ++ rest) :=
      Store.owns_metaKey hkind key rest
    have hin := (Store.mem_records (x := x)).trans (and_iff_right howns)
    rw [← hin, hleft_records, show left.store.ns = r.store.ns from hagree.ns,
      mem_recordsIn_metaKey hkind, and_iff_left hkey]
  · refine sameAt_of_get_iff hright_mark fun kind hkind rest x => ?_
    have howns : right.store.owns (metaKey right.store.ns kind key ++ rest) :=
      Store.owns_metaKey hkind key rest
    have hin := (Store.mem_records (x := x)).trans (and_iff_right howns)
    rw [← hin, hright_records]
    exact mem_moved_metaKey.trans ((mem_recordsIn_metaKey hkind).trans (and_iff_left hkey))

/-- **A split preserves every answer.** A split that is current, cuts the extent at a key that is not
empty and has a new right identifier leaves every record in one half, the one whose extent has the
record's user key, and under that half's keyspace. The half that owns a key of the extent gives every
answer about it that the range gave. -/
theorem split_preserves_answers (conf : Configuration) :
    ∃ left right,
      r.machine.applySplit conf ranges spec = some ((left, ranges ++ [spec.right.id]), some right) ∧
      left.store.ns = r.store.ns ∧ right.store.ns = rangePrefix spec.right.id ∧
      left.store.records = recordsIn r.store left.desc ∧
      right.store.records = (recordsIn r.store right.desc).map
        (fun e => reNamespace e r.store.ns right.store.ns) ∧
      ∀ key, r.desc.contains key →
        (left.desc.contains key ↔ ¬ right.desc.contains key) ∧
        let owner := if right.desc.contains key then right.store else left.store
        (∀ ts, owner.readAt key ts = r.store.readAt key ts) ∧
        owner.readLatest key = r.store.readLatest key ∧
        (∀ readTS ceiling, owner.getTxn key readTS ceiling = r.store.getTxn key readTS ceiling) ∧
        owner.lock key = r.store.lock key ∧
        (∀ startTS, owner.txn key startTS = r.store.txn key startTS) ∧
        owner.readMark key = r.store.readMark key := by
  obtain ⟨left, right, hsplit, hlns, hrns, hdiv⟩ :=
    divides_applySplit hns hmem hcontained hcur hfresh hcut hleft hstart hend conf
  refine ⟨left, right, hsplit, hlns, hrns, hdiv.left_records, hdiv.right_records, fun key hkey => ?_⟩
  have hsame : (if right.desc.contains key then right.store else left.store).SameAt r.store key := by
    split
    · next hright => exact hdiv.right_answers key hright
    · next hright => exact hdiv.left_answers key ((hdiv.side key hkey).mpr hright)
  exact ⟨hdiv.side key hkey, hsame.readAt, hsame.readLatest, hsame.getTxn, hsame.lock, hsame.txn,
    hsame.readMark⟩

end

/-- The first range with two keys. -/
def twoKeys : Range :=
  ((Machine.born .empty firstRangeDescriptor [] {}).range.apply
    (.put (Fleet.keyNamed 97) { wall := 1 } [1])).apply (.put (Fleet.keyNamed 99) { wall := 2 } [2])

theorem contained_twoKeys : twoKeys.Contained :=
  (Machine.contained_born firstRangeDescriptor {} {}).apply.apply

/-- The hypotheses hold of a range with two keys that is cut between them. -/
theorem split_preserves_answers_twoKeys :
    let spec := SplitSpec.cut firstRangeDescriptor (Fleet.keyNamed 98) 2
    ∃ left right,
      twoKeys.machine.applySplit {} [firstRange] spec = some ((left, [firstRange, 2]), some right) ∧
      (if right.desc.contains (Fleet.keyNamed 97) then right.store else left.store).readLatest
        (Fleet.keyNamed 97) = some [1] ∧
      (if right.desc.contains (Fleet.keyNamed 99) then right.store else left.store).readLatest
        (Fleet.keyNamed 99) = some [2] := by
  intro spec
  have hmem : twoKeys.desc.id ∈ [firstRange] := by decide +kernel
  have hcur : spec.current twoKeys.desc := by decide +kernel
  have hfresh : spec.right.id ∉ [firstRange] := by decide
  obtain ⟨left, right, hsplit, -, -, -, -, hkeys⟩ :=
    split_preserves_answers rfl hmem contained_twoKeys hcur hfresh
      (by decide) rfl rfl rfl {}
  obtain ⟨-, -, hlow, -⟩ := hkeys (Fleet.keyNamed 97) (by decide +kernel)
  obtain ⟨-, -, hhigh, -⟩ := hkeys (Fleet.keyNamed 99) (by decide +kernel)
  exact ⟨left, right, hsplit, hlow.trans (by decide +kernel), hhigh.trans (by decide +kernel)⟩

/-- The first range is to end at the empty key. -/
def emptyCut : SplitSpec :=
  { SplitSpec.cut firstRangeDescriptor .empty 2 with
    left := { firstRangeDescriptor with fin := some .empty, epoch := firstRangeDescriptor.epoch + 1 } }

/-- A cut at the empty key is accepted, and moves every record. The left replica keeps an extent
without an end: it owns a key whose value it has lost. -/
theorem cut_at_empty_key :
    let spec := emptyCut
    spec.left.fin = some .empty ∧ spec.right.start = .empty ∧ spec.right.fin = twoKeys.desc.fin ∧
      ∃ left right,
        twoKeys.machine.applySplit {} [firstRange] spec =
          some ((left, [firstRange, 2]), some right) ∧
        left.desc.contains (Fleet.keyNamed 97) ∧
        twoKeys.store.readLatest (Fleet.keyNamed 97) = some [1] ∧
        left.store.readLatest (Fleet.keyNamed 97) = none := by
  intro spec
  have hsplit : ((twoKeys.machine.applySplit {} [firstRange] spec).any fun x =>
      x.1.2 = [firstRange, 2] && x.2.isSome && x.1.1.desc.contains (Fleet.keyNamed 97) &&
        x.1.1.store.readLatest (Fleet.keyNamed 97) = none) = true := by decide +kernel
  obtain ⟨⟨⟨left, ids⟩, right⟩, hsome, hx⟩ := (Option.any_eq_true _ _).mp hsplit
  simp only [Bool.and_eq_true, decide_eq_true_eq] at hx
  obtain ⟨⟨⟨rfl, hright⟩, hin⟩, hlost⟩ := hx
  obtain ⟨right, rfl⟩ := Option.isSome_iff_exists.mp hright
  exact ⟨rfl, rfl, rfl, left, right, hsome, hin, by decide +kernel, hlost⟩

end Halves

end Rift.Driver
