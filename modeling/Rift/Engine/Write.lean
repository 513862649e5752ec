import Mathlib.Algebra.Order.BigOperators.Group.List
import Mathlib.Algebra.Order.Group.Nat
import Rift.Engine.Wal

/-!
# Writing and replaying a batch

`DBImpl::Write` of `engine-cpp/src/db.cc` collapses a batch, buffers its record in the log, and inserts
what the collapse left into the memtable. Recovery (`engine-cpp/src/wal/recovery.cc`) reads the record
back and inserts its operations.

## Main definitions

* `Front.write` - a write, with what it buffers in the log and inserts into the memtable.
* `Front.replayNewest` - the replay of the newest record.

## Main results

* `replay_eq`, `insertBatch_eq_some` - what a replay and a write insert.
* `collapse_ops_fit` - an admitted record fits its length fields.
-/

namespace Rift.Engine

open List

/-- What a write reads and changes. -/
structure Front where
  mem : MemTable := {}
  wal : Wal := {}
  seq : ℕ := 0
  closed : Bool := false
  deriving DecidableEq, Repr

/-- How a write ends. -/
inductive WriteStatus
  | ok (seq : ℕ)
  | writeAfterClose
  | refused (seq : ℕ) (e : WalError)
  deriving DecidableEq, Repr

/-- Insert one operation of a collapsed batch. Range deletions are inserted from the ranges, where the
bounds are already normalised. -/
def insertOp (seq : ℕ) (m : MemTable) (op : Op) : Option MemTable :=
  match op.kind with
  | .set => m.add { key := op.key, seq := seq, type := .value, value := op.value }
  | .delete => m.add { key := op.key, seq := seq, type := .deletion }
  | .deleteRange => some m

def insertRange (seq : ℕ) (m : MemTable) (r : MemRange) : MemTable :=
  m.addRangeTombstone seq r.start r.fin r.endUnbounded

/-- The insertions of a write. -/
def insertBatch (m : MemTable) (seq : ℕ) (c : CollapsedBatch) : Option MemTable := do
  let m ← c.ops.foldlM (insertOp seq) m
  return c.ranges.foldl (insertRange seq) m

/-- Write a batch; `none` when an assertion fails. A refused batch consumes its sequence and changes
nothing else. -/
def Front.write (d : Front) (b : WriteBatch) : Option (Front × WriteStatus) :=
  if d.closed then some (d, .writeAfterClose)
  else
    let assigned := d.seq + 1
    let c := collapseBatch b
    match d.wal.apply assigned c.ops with
    | .error e => some ({ d with seq := assigned }, .refused assigned e)
    | .ok w => do
      let m ← insertBatch d.mem assigned c
      return ({ d with mem := m, wal := w, seq := assigned }, .ok assigned)

/-- Replay one operation. An empty end means unbounded. -/
def replayOp (seq : ℕ) (m : MemTable) (op : Op) : Option MemTable :=
  match op.kind with
  | .set => m.add { key := op.key, seq := seq, type := .value, value := op.value }
  | .delete => m.add { key := op.key, seq := seq, type := .deletion }
  | .deleteRange => some (m.addRangeTombstone seq op.key op.value op.value.isEmpty)

/-- Replay one record. -/
def replayBatch (m : MemTable) (b : DecodedBatch) : Option MemTable :=
  b.ops.foldlM (replayOp b.seq) m

/-- What replaying the newest record into an empty memtable gives. -/
def Front.replayNewest (d : Front) : Option MemTable := do
  let record ← d.wal.buffered.getLast?
  let b ← decodeBatch record
  replayBatch {} b

/-! ### What the insertions leave -/

/-- The version a point operation inserts. -/
def Op.point? (seq : ℕ) (op : Op) : Option Entry :=
  match op.kind with
  | .set => some { key := op.key, seq := seq, type := .value, value := op.value }
  | .delete => some { key := op.key, seq := seq, type := .deletion }
  | .deleteRange => none

/-- The tombstone a range deletion inserts. -/
def Op.range? (seq : ℕ) (op : Op) : Option MemRange :=
  if op.kind = .deleteRange then
    some { start := op.key, fin := op.value, endUnbounded := op.value.isEmpty, seq := seq }
  else none

variable {seq S : ℕ} {ops : List Op} {m m' : MemTable} {op : Op} {b : WriteBatch}

theorem Op.point?_key {e : Entry} (h : op.point? seq = some e) :
    e.key = op.key ∧ e.seq = seq ∧ op.kind ≠ .deleteRange := by
  unfold point? at h
  split at h
  · cases h
    simp_all
  · cases h
    simp_all
  · cases h

/-- A point operation adds its version, and a range deletion its tombstone. -/
theorem replayOp_eq (seq : ℕ) (m : MemTable) (op : Op) :
    replayOp seq m op = match op.point? seq with
      | some e => m.add e
      | none => some { m with ranges := m.ranges ++ (op.range? seq).toList } := by
  obtain ⟨kind, key, value⟩ := op
  cases kind
  · rfl
  · rfl
  · cases value <;> rfl

/-- Replay of operations with distinct new keys inserts every version and every tombstone. -/
theorem replay_eq (seq : ℕ) (ops : List Op)
    (hseq : ∀ e ∈ ops.filterMap (Op.point? seq), e.seq ≤ kMaxSeqNum)
    (hm : m.entries.Pairwise Entry.Lt)
    (hkeys : ((m.entries ++ ops.filterMap (Op.point? seq)).map (·.key)).Nodup) :
    ∃ m', ops.foldlM (replayOp seq) m = some m' ∧ m'.entries.Pairwise Entry.Lt ∧
      m'.entries.Perm (m.entries ++ ops.filterMap (Op.point? seq)) ∧
      m'.ranges = m.ranges ++ ops.filterMap (Op.range? seq) := by
  induction ops generalizing m with
  | nil => exact ⟨m, rfl, hm, by simp, by simp⟩
  | cons op ops ih =>
    rw [foldlM_cons, replayOp_eq]
    cases he : op.point? seq with
    | none =>
      rw [filterMap_cons_none he] at hseq hkeys ⊢
      obtain ⟨m', h₁, h₂, h₃, h₄⟩ :=
        ih (m := { m with ranges := m.ranges ++ (op.range? seq).toList }) hseq hm hkeys
      refine ⟨m', h₁, h₂, h₃, h₄.trans ?_⟩
      cases hr : op.range? seq <;> simp [hr]
    | some e =>
      rw [filterMap_cons_some he] at hseq hkeys ⊢
      -- The version's key is new, so it is added at its place.
      have hnew : ∀ x ∈ m.entries, x.key ≠ e.key := by
        intro x hx heq
        rw [map_append, nodup_append] at hkeys
        exact hkeys.2.2 _ (mem_map_of_mem hx) e.key (by simp) heq
      have hadd := MemTable.add_eq (hseq e mem_cons_self) (m := m)
        fun x hx hk => absurd hk (hnew x hx)
      have hperm := insertEntry_perm e m.entries
      have hrange : op.range? seq = none := if_neg (Op.point?_key he).2.2
      obtain ⟨m', h₁, h₂, h₃, h₄⟩ := ih (m := { m with entries := insertEntry e m.entries })
        (fun x hx => hseq x (mem_cons_of_mem _ hx))
        (pairwise_insertEntry hm fun x hx hk => absurd hk (hnew x hx))
        ((((hperm.append_right _).trans perm_middle.symm).map _).nodup_iff.mpr hkeys)
      refine ⟨m', (congrArg (· >>= _) hadd).trans h₁, h₂,
        h₃.trans ((hperm.append_right _).trans perm_middle.symm), h₄.trans ?_⟩
      rw [filterMap_cons_none hrange]

theorem foldlM_insertOp_point (h : ∀ op ∈ ops, op.kind ≠ .deleteRange) (m : MemTable) :
    ops.foldlM (insertOp seq) m = ops.foldlM (replayOp seq) m := by
  induction ops generalizing m with
  | nil => rfl
  | cons op ops ih =>
    have hop : insertOp seq m op = replayOp seq m op := by
      have := h op mem_cons_self
      unfold insertOp replayOp
      split <;> simp_all
    rw [foldlM_cons, foldlM_cons, hop]
    exact congrArg _ (funext fun m => ih (fun x hx => h x (mem_cons_of_mem _ hx)) m)

theorem foldlM_insertOp_range (h : ∀ op ∈ ops, op.kind = .deleteRange) (m : MemTable) :
    ops.foldlM (insertOp seq) m = some m := by
  induction ops with
  | nil => rfl
  | cons op ops ih =>
    rw [foldlM_cons, insertOp, h op mem_cons_self]
    exact ih fun x hx => h x (mem_cons_of_mem _ hx)

theorem foldl_insertRange (seq : ℕ) (rs : List MemRange) (m : MemTable) :
    rs.foldl (insertRange seq) m =
      { m with
        ranges := m.ranges ++ rs.map fun r =>
          { r with seq := seq, fin := if r.endUnbounded then [] else r.fin } } := by
  induction rs generalizing m with
  | nil => simp
  | cons r rs ih => simp [ih, insertRange, MemTable.addRangeTombstone]

theorem le_kMaxSeqNum_of_insertOps (h : ops.foldlM (insertOp seq) m = some m') (hop : op ∈ ops)
    (hk : op.kind ≠ .deleteRange) : seq ≤ kMaxSeqNum := by
  induction ops generalizing m with
  | nil => cases hop
  | cons a ops ih =>
    rw [foldlM_cons] at h
    obtain ⟨m₁, h₁, h⟩ := Option.bind_eq_some_iff.mp h
    rcases mem_cons.mp hop with rfl | hop
    · unfold insertOp at h₁
      split at h₁
      · exact (ite_eq_iff.mp h₁).elim (·.1.1) fun h => absurd h.2 (by simp)
      · exact (ite_eq_iff.mp h₁).elim (·.1.1) fun h => absurd h.2 (by simp)
      · exact absurd ‹_› hk
    · exact ih h hop

theorem insertOp_eq_some (hs : m.entries.Pairwise Entry.Lt) (h : insertOp seq m op = some m') :
    m'.entries.Pairwise Entry.Lt ∧ m'.entries.Perm (m.entries ++ (op.point? seq).toList) ∧
      m'.ranges = m.ranges := by
  obtain ⟨kind, key, value⟩ := op
  cases kind with
  | deleteRange =>
    cases h
    exact ⟨hs, by simp [Op.point?], rfl⟩
  | _ =>
    obtain ⟨hs', hperm, hr, -⟩ := MemTable.add_eq_some hs h
    exact ⟨hs', hperm.trans (perm_append_singleton _ _).symm, hr⟩

theorem foldlM_insertOp_eq_some (hs : m.entries.Pairwise Entry.Lt)
    (h : ops.foldlM (insertOp seq) m = some m') :
    m'.entries.Pairwise Entry.Lt ∧
      m'.entries.Perm (m.entries ++ ops.filterMap (Op.point? seq)) ∧ m'.ranges = m.ranges := by
  induction ops generalizing m with
  | nil =>
    cases h
    exact ⟨hs, by simp, rfl⟩
  | cons op ops ih =>
    rw [foldlM_cons] at h
    obtain ⟨m₁, h₁, h⟩ := Option.bind_eq_some_iff.mp h
    obtain ⟨hs₁, hadd, hr₁⟩ := insertOp_eq_some hs h₁
    obtain ⟨hs', hperm, hr⟩ := ih hs₁ h
    refine ⟨hs', hperm.trans ((hadd.append_right _).trans ?_), hr.trans hr₁⟩
    rw [append_assoc]
    refine List.Perm.append_left _ ?_
    cases hp : op.point? seq <;> simp [hp]

/-- What a batch leaves in the memtable: versions at its own sequence, and its ranges. -/
theorem insertBatch_eq_some {c : CollapsedBatch} (hs : m.entries.Pairwise Entry.Lt)
    (h : insertBatch m seq c = some m') :
    m'.entries.Pairwise Entry.Lt ∧
      m'.entries.Perm (m.entries ++ c.ops.filterMap (Op.point? seq)) ∧
      (∀ e ∈ c.ops.filterMap (Op.point? seq), e.seq = seq ∧ seq ≤ kMaxSeqNum) ∧
      m'.ranges = m.ranges ++ c.ranges.map fun r =>
        { r with seq := seq, fin := if r.endUnbounded then [] else r.fin } := by
  obtain ⟨m₁, h₁, h⟩ := Option.bind_eq_some_iff.mp h
  cases h
  obtain ⟨hs₁, hperm, hr₁⟩ := foldlM_insertOp_eq_some hs h₁
  rw [foldl_insertRange, hr₁]
  refine ⟨hs₁, hperm, fun e he => ?_, rfl⟩
  obtain ⟨op, hop, he⟩ := mem_filterMap.mp he
  obtain ⟨-, hseq, hk⟩ := Op.point?_key he
  exact ⟨hseq, le_kMaxSeqNum_of_insertOps h₁ hop hk⟩

/-! ### The record of a write -/

theorem eq_of_perm_of_pairwise {es es' : List Entry} (h : es.Perm es') (hs : es.Pairwise Entry.Lt)
    (hs' : es'.Pairwise Entry.Lt) : es = es' :=
  h.eq_of_pairwise (fun _ _ _ _ h₁ h₂ => (h₁.asymm h₂).elim) hs hs'

section

variable (b : WriteBatch)

theorem pendingOp_kind {p : Slice × OpKind × Slice} (hp : p ∈ (Collapse.of b).pending) :
    (Pending.op p).kind ≠ .deleteRange := (Collapse.inv_of b).kinds p hp

theorem rangeOp_range? {r : MemRange} (hr : r ∈ (Collapse.of b).ranges) :
    r.op.range? seq = some { r with seq := seq, fin := if r.endUnbounded then [] else r.fin } := by
  have hp := (Collapse.inv_of b).proper r hr
  unfold MemRange.Proper at hp
  unfold Op.range? MemRange.op
  rw [if_pos rfl]
  by_cases hu : r.endUnbounded
  · simp [hu]
  · -- A bounded range ends above its start, so its end is not the sentinel.
    rw [if_neg hu] at hp
    have hne : r.fin ≠ [] := fun h => absurd (h ▸ hp) (not_lt_nil _)
    simp [hu, hne]

theorem collapse_entries (seq : ℕ) : (collapseBatch b).ops.filterMap (Op.point? seq) =
    ((Collapse.of b).pending.map Pending.op).filterMap (Op.point? seq) := by
  unfold collapseBatch
  rw [filterMap_append, filterMap_map (f := MemRange.op)]
  have : (Collapse.of b).ranges.filterMap (Op.point? seq ∘ MemRange.op) = [] :=
    filterMap_eq_nil_iff.mpr fun _ _ => rfl
  rw [this, append_nil]

theorem collapse_entries_nodup (seq : ℕ) :
    (((collapseBatch b).ops.filterMap (Op.point? seq)).map (·.key)).Nodup := by
  rw [collapse_entries]
  have hkeys : ((Collapse.of b).pending.map (·.1)).Nodup :=
    pairwise_map.mpr ((Collapse.inv_of b).keys.imp fun h => h.ne)
  refine hkeys.sublist ?_
  generalize (Collapse.of b).pending = ps
  induction ps with
  | nil => exact .slnil
  | cons p ps ih =>
    rw [map_cons, map_cons]
    cases he : (Pending.op p).point? seq with
    | none => rw [filterMap_cons_none he]; exact ih.cons _
    | some e =>
      rw [filterMap_cons_some he, map_cons, (Op.point?_key he).1]
      exact ih.cons_cons _

theorem mem_collapse_ops (h : op ∈ (collapseBatch b).ops) :
    (∃ p ∈ (Collapse.of b).pending, op = Pending.op p) ∨
      ∃ r ∈ (Collapse.of b).ranges, op = r.op := by
  rcases mem_append.mp h with h | h <;> obtain ⟨x, hx, rfl⟩ := mem_map.mp h
  · exact .inl ⟨x, hx, rfl⟩
  · exact .inr ⟨x, hx, rfl⟩

/-- The operations of a record that was admitted under a cap below 4 GiB fit their length fields. -/
theorem collapse_ops_fit (h : batchRecordBytes (collapseBatch b).ops < 2 ^ 32) :
    (collapseBatch b).ops.length < 2 ^ 32 ∧ ∀ op ∈ (collapseBatch b).ops, op.Fits := by
  have hsum : ∀ op ∈ (collapseBatch b).ops,
      opBytes op ≤ ((collapseBatch b).ops.map opBytes).sum := fun op hop =>
    single_le_sum (by simp) _ (mem_map_of_mem hop)
  have hlen : (collapseBatch b).ops.length ≤ ((collapseBatch b).ops.map opBytes).sum := by
    rw [← length_map opBytes]
    refine length_le_sum_of_one_le _ fun n hn => ?_
    obtain ⟨op, -, rfl⟩ := mem_map.mp hn
    unfold opBytes
    omega
  unfold batchRecordBytes at h
  refine ⟨by omega, fun op hop => ?_⟩
  have hop' := hsum op hop
  have hbare : ¬ op.kind.valued → op.value = [] := by
    intro hv
    rcases mem_collapse_ops b hop with ⟨p, -, rfl⟩ | ⟨r, -, rfl⟩
    · refine if_neg fun hk => hv ?_
      change p.2.1.valued = true
      rw [hk]
      rfl
    · exact absurd rfl hv
  have hkey : op.key.length ≤ opBytes op := by
    unfold opBytes
    omega
  refine ⟨by omega, ?_, hbare⟩
  by_cases hv : op.kind.valued
  · have : op.value.length ≤ opBytes op := by
      unfold opBytes
      rw [if_pos hv]
      omega
    omega
  · rw [hbare hv]
    simp

end

/-- A write that is acknowledged has a record, and its operations have a legal sequence. -/
theorem Front.write_ok {d d' : Front} (h : d.write b = some (d', .ok S)) :
    batchRecordBytes (collapseBatch b).ops ≤ d.wal.caps.maxRecordBytes ∧
      d'.wal.buffered.getLast? = some (encodeBatch S (lastOps (collapseBatch b).ops)) ∧
      ∃ m m', (collapseBatch b).ops.foldlM (insertOp S) m = some m' := by
  unfold write at h
  split_ifs at h
  · cases h
  dsimp only at h
  split at h
  · cases h
  · rename_i w hw
    obtain ⟨m, hm, h⟩ := Option.bind_eq_some_iff.mp h
    obtain ⟨rfl, hS⟩ := Prod.mk.inj (Option.some.inj h)
    obtain rfl : d.seq + 1 = S := WriteStatus.ok.inj hS
    obtain ⟨hcap, hbuf⟩ := Wal.apply_eq hw
    obtain ⟨m₁, hm₁, -⟩ := Option.bind_eq_some_iff.mp hm
    exact ⟨hcap, by simp [hbuf], _, _, hm₁⟩

end Rift.Engine
