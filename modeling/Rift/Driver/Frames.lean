import Rift.Driver.Replication

/-!
# What a range leaves alone

The replicas of a machine share one engine. Whatever a range stages lies under its own keyspace, and a
split writes to the keyspace of the range it creates besides, so the other ranges of the machine do
not notice.
-/

namespace Rift.Driver

open Kv Model List

/-- A batch leaves the keys outside a set alone. -/
def Confined (P : Bytes → Prop) (b : Batch) : Prop :=
  ∀ (v : Version) (k : Bytes), ¬ P k → (applyTo v b).get k = v.get k

section Confined

variable {P : Bytes → Prop} {k : Bytes} {b c : Batch} {s : Store} {key : Key}

theorem Confined.nil : Confined P [] := fun _ _ _ => rfl

theorem Confined.append (hb : Confined P b) (hc : Confined P c) : Confined P (b ++ c) := by
  intro v k hk
  rw [applyTo_append, hc _ k hk, hb v k hk]

theorem confined_set {x : Bytes} (h : P k) : Confined P [.set k x] := by
  intro v k' hk'
  have hne : k ≠ k' := fun heq => hk' (heq ▸ h)
  simp [hne]

theorem confined_delete (h : P k) : Confined P [.delete k] := by
  intro v k' hk'
  have hne : k ≠ k' := fun heq => hk' (heq ▸ h)
  simp [hne]

theorem confined_map {α : Type*} {f : α → Op} {l : List α} (h : ∀ a ∈ l, Confined P [f a]) :
    Confined P (l.map f) := by
  induction l with
  | nil => exact .nil
  | cons a l ih =>
    rw [map_cons, ← singleton_append]
    exact (h a (by simp)).append (ih fun a' ha' => h a' (by simp [ha']))

theorem confined_deleteRange {q : Bytes} (h : ∀ k, q <+: k → P k) :
    Confined P [.deleteRange q (prefixEnd q)] := by
  intro v k hk
  have hr : inRange q (prefixEnd q) k = false :=
    Bool.eq_false_iff.mpr fun hin => hk (h k (inRange_prefixEnd.mp hin))
  simp [hr]

/-- What an operation stages lies under the store's own keys. -/
theorem confined_stages {n : ℕ} {t : List Timestamp} (hb : Store.Stages s.ns key t n b) :
    Confined (s.owns ·) b := by
  intro v k hk
  refine get_applyTo_of_untouched (fun op hop htouch => hk ?_) v
  cases hb op hop with
  | stamped hkind =>
    exact htouch ▸ Store.owns_metaKey (by simp [Store.kinds] at hkind ⊢; tauto) _ _
  | txn => exact htouch ▸ Store.owns_metaKey (by simp [Store.kinds]) _ _
  | lock => exact htouch ▸ Store.owns_metaKey_nil (by simp [Store.kinds]) _
  | delete hk' => exact htouch ▸ Store.owns_iff.mpr hk'

theorem confined_collected (s : Store) (upTo : Timestamp) :
    Confined (s.owns ·) ((s.collected upTo).map .delete) := by
  refine confined_map fun k hk => confined_delete ?_
  obtain ⟨⟨key, ts⟩, hdec⟩ :=
    Option.isSome_iff_exists.mp (Store.isSome_decodeKey_of_mem_gcScan hk)
  obtain ⟨r, rfl⟩ := eq_of_decodeKey hdec
  exact Store.owns_metaKey (by simp [Store.kinds]) _ _

theorem confined_ingest {rs : List (Bytes × Bytes)} (hrs : ∀ r ∈ rs, s.owns r.1)
    (mark : Timestamp) : Confined (s.owns ·) (s.ingestRecordsInto [] rs mark).1 := by
  rw [Store.ingestRecordsInto, nil_append]
  refine (confined_map fun kind hkind => ?_).append
    (confined_map fun r hr => confined_set (hrs r hr))
  exact confined_deleteRange fun k hk => Store.owns_iff.mpr ⟨kind, hkind, hk⟩

end Confined

namespace Machine

variable {m m' : Machine} {conf : Configuration} {ranges ranges' : List RangeID} {id : RangeID}
  {k : Bytes}

theorem get_applySplit {spec : SplitSpec}
    (h : (m.applySplit conf ranges spec).map (·.1) = some (m', ranges')) (hstaged : m.staged = [])
    (hout : ¬ m.store.owns k) (hmem : id ∈ ranges) (hk : rangePrefix id <+: k) : m'.flush.store.db.get k = m.store.db.get k := by
  have hkept : ∀ r ∈ m.keptRecords spec, m.store.owns r.1 := by
    intro r hr
    obtain ⟨kr, hkr, rfl⟩ := mem_map.mp hr
    obtain ⟨r, hin, hkey⟩ := mem_filterMap.mp (mem_of_mem_filter hkr)
    obtain ⟨key, -, rfl⟩ := Option.map_eq_some_iff.mp hkey
    exact ((Store.mem_records (x := r.2)).mp hin).1
  have hleft : (m.ingest (m.keptRecords spec) m.store.gcMark).store.db.get k = m.store.db.get k := by
    rw [ingest, hstaged]
    exact confined_ingest hkept m.store.gcMark _ k hout
  have hflushed : (m.ingest (m.keptRecords spec) m.store.gcMark).staged = [] := rfl
  unfold applySplit at h
  dsimp only at h
  generalize m.ingest (m.keptRecords spec) m.store.gcMark = left at hleft hflushed h
  split at h
  · cases h
    rw [flush, hstaged]
    rfl
  · split at h
    · simp at h
    · split at h
      · cases h
        simp only [flush, hflushed, Store.flush_nil]
        exact hleft
      · next hnew =>
        cases h
        have hne : id ≠ spec.right.id := fun heq => hnew (heq ▸ hmem)
        simp only [flush, hflushed, Store.flush_nil]
        exact (get_bearRight hne (fun r hr => movedRecords_isPrefix hr) hk _ _ _).trans hleft

theorem flush_of_staged (hstaged : m.staged = []) : m.flush = m := by
  rw [flush, hstaged, Store.flush_nil]
  cases m
  simp only at hstaged
  rw [hstaged]

theorem get_apply {r : Range} {c : Command} (hc : ∀ spec, c ≠ .split spec)
    (hout : ¬ r.store.owns k) : (r.apply c).store.db.get k = r.store.db.get k := by
  cases c with
  | split spec => exact absurd rfl (hc spec)
  | none => rfl
  | txn c =>
    simp only [Range.apply]
    split
    · exact confined_stages (stages_applyTxnTo r.store c) _ k hout
    · rfl
  | collect upTo =>
    simp only [Range.apply, Store.step_gc]
    split
    · exact confined_collected r.store _ _ k hout
    · rfl
  | put key ts x =>
    simp only [Range.apply]
    split
    · refine Store.perform_cases (P := fun s => s.db.get k = _) rfl fun b hput => ?_
      exact confined_stages (Store.stages_putInto hput) _ k hout
    · rfl

theorem get_applyEntry {e : Entry} (h : m.applyEntry conf ranges e = some (m', ranges'))
    (hns : m.store.ns = rangePrefix m.desc.id) (hstaged : m.staged = []) (hid : id ≠ m.desc.id)
    (hmem : id ∈ ranges) (hk : rangePrefix id <+: k) :
    m'.flush.store.db.get k = m.store.db.get k := by
  have hout : ¬ m.store.owns k := fun howns =>
    not_isPrefix_of_ne hid hk (hns ▸ Store.isPrefix_of_owns howns)
  cases hdec : decodeSplitCommand e.data with
  | none =>
    obtain ⟨m₁, h₁, -, hrange⟩ := applyEntry_of_not_split hdec m conf ranges
    cases h₁.symm.trans h
    have hget := get_apply (r := m.range) (c := commandOf e.data) (k := k)
      (fun spec hspec => absurd (hdec.symm.trans (commandOf_eq_split.mp hspec)) (by simp)) hout
    rw [← hrange, range, range, hstaged] at hget
    exact hget
  | some spec =>
    rw [applyEntry_of_split hdec, flush_of_staged hstaged] at h
    exact get_applySplit h hstaged hout hmem hk

end Machine

end Rift.Driver
