import Rift.Driver.Determinism
import Rift.Driver.Frames
import Rift.Lib.Runs

/-!
# The machines of a cluster

Every machine hosts replicas of several ranges in one engine and mints the identifiers of the ranges it
splits off. A range's log is agreed on, and each replica applies it from its birth or from a snapshot
on. Machines restart: in place, keeping their counter, or through `Open`, which starts the counter
again.

## Main results

* `replicas_agree` — replicas differ by what one has yet to apply
-/

namespace Rift.Driver

open Kv Model List

/-! ### One machine -/

/-- A replica of a range: its extent, its collection mark and how many entries of the range's log it
has applied. -/
structure Replica where
  desc : RangeDescriptor
  mark : Timestamp
  applied : ℕ
  deriving DecidableEq

/-- A machine: its source of range identifiers, its engine and the replicas it hosts. -/
structure Node where
  nextRange : RangeID
  db : Version
  replicas : List Replica
  deriving DecidableEq

namespace Node

variable (n : Node)

def ids : List RangeID := n.replicas.map (·.desc.id)

def replicaOf (id : RangeID) : Option Replica := n.replicas.find? (·.desc.id = id)

/-- The state machine of a replica, in the machine's engine. -/
def machine (r : Replica) : Machine where
  desc := r.desc
  store := { ns := rangePrefix r.desc.id, gcMark := r.mark, db := n.db }

/-- The replica a split adds to the machine, if it does. -/
def created (e : Entry) (m : Machine) (ids' : List RangeID) : List Replica :=
  match decodeSplitCommand e.data with
  | some spec =>
    if n.ids.length < ids'.length then
      [{ desc := spec.right.clone, mark := m.store.gcMark, applied := 0 }]
    else []
  | none => []

/-- The machine after one of its replicas has applied an entry. -/
def advanced (r : Replica) (e : Entry) (m : Machine) (ids' : List RangeID) : Node where
  nextRange := n.nextRange
  db := m.store.db
  replicas := (n.replicas.map fun q =>
    if q.desc.id = r.desc.id then
      { desc := m.desc, mark := m.store.gcMark, applied := r.applied + 1 }
    else q) ++ n.created e m ids'

/-- A replica applies an entry. `none` is the panic of a split that loses a record. -/
def apply (conf : Configuration) (r : Replica) (e : Entry) : Option Node :=
  ((n.machine r).applyBatch (fun _ => conf) n.ids [e]).map fun p => n.advanced r e p.1 p.2

end Node

/-! ### What an entry does to a machine -/

theorem movedRecords_congr (m m' : Machine) (h : m.store.Agree m'.store) (spec : SplitSpec) :
    m.movedRecords spec = m'.movedRecords spec := by
  simp only [Machine.movedRecords, Machine.keyed, h.records, h.userKeyOf, h.ns]

namespace Machine

variable {m m' : Machine} {conf : Configuration} {ranges ranges' : List RangeID} {e : Entry}

/-- The ranges of a machine after an entry: as before, or with the right range of a split that is
current and new to the machine. -/
theorem applyEntry_ranges (h : m.applyEntry conf ranges e = some (m', ranges'))
    (hstaged : m.staged = []) :
    (ranges' = ranges ∧ ∀ spec, decodeSplitCommand e.data = some spec → spec.current m.desc →
      spec.right.id ∈ ranges) ∨
    ∃ spec db, decodeSplitCommand e.data = some spec ∧ spec.current m.desc ∧
      spec.right.id ∉ ranges ∧ ranges' = ranges ++ [spec.right.id] ∧
      m'.flush.store.gcMark = m.store.gcMark ∧
      m'.flush.store.db = (born db spec.right (m.movedRecords spec) m.store.gcMark).store.db := by
  cases hdec : decodeSplitCommand e.data with
  | none =>
    obtain ⟨m₁, h₁, -, -⟩ := applyEntry_of_not_split hdec m conf ranges
    exact .inl ⟨(Prod.mk.inj (Option.some.inj (h₁.symm.trans h))).2.symm, by simp⟩
  | some spec =>
    rw [applyEntry_of_split hdec, flush_of_staged hstaged] at h
    have hmark : (m.ingest (m.keptRecords spec) m.store.gcMark).store.gcMark = m.store.gcMark := rfl
    have hempty : (m.ingest (m.keptRecords spec) m.store.gcMark).staged = [] := rfl
    unfold applySplit at h
    dsimp only at h
    generalize m.ingest (m.keptRecords spec) m.store.gcMark = left at hmark hempty h
    split at h
    · next hcur =>
      refine .inl ⟨(Prod.mk.inj (Option.some.inj h)).2.symm, fun spec' hspec' hcur' => ?_⟩
      cases hspec'
      simp [hcur'] at hcur
    · next hcur =>
      split at h
      · simp at h
      · split at h
        · next hin =>
          refine .inl ⟨(Prod.mk.inj (Option.some.inj h)).2.symm, fun spec' hspec' _ => ?_⟩
          cases hspec'
          exact hin
        · next hnew =>
          cases h
          obtain ⟨db, hdb⟩ : ∃ db, (bearRight left.store.db spec (m.movedRecords spec)
              m.store.gcMark conf).store.db =
                (born db spec.right (m.movedRecords spec) m.store.gcMark).store.db := ⟨_, rfl⟩
          refine .inr ⟨spec, db, rfl, by simpa using hcur, hnew, rfl, ?_, ?_⟩
          · simp only [flush, hempty, Store.flush_nil, hmark]
          · simp only [flush, hempty, Store.flush_nil, hdb]

end Machine

namespace Node

variable {n n' : Node} {r r' : Replica} {e : Entry} {new : List Replica}

/-- The replicas of a machine are of different ranges, and hold records of their own extents only. -/
structure Sane (n : Node) : Prop where
  nodup : n.ids.Nodup
  contained : ∀ r ∈ n.replicas, (n.machine r).range.Contained

theorem Sane.hosted (h : n.Sane) (hr : r ∈ n.replicas) : (n.machine r).Hosted r.desc.id n.ids where
  ns := rfl
  desc := rfl
  mem := mem_map_of_mem hr
  contained := h.contained r hr

/-- What an entry does to a machine: the replica that applies it becomes `r'`, the others hold what
they held, and `new` is the replica of the right range of a split. -/
structure Advances (n : Node) (r : Replica) (e : Entry) (n' : Node) (r' : Replica)
    (new : List Replica) : Prop where
  nextRange : n'.nextRange = n.nextRange
  replicas : n'.replicas = (n.replicas.map fun q => if q.desc.id = r.desc.id then r' else q) ++ new
  applied : r'.applied = r.applied + 1
  id : r'.desc.id = r.desc.id
  self : (n'.machine r').range.Agree ((n.machine r).range.apply (commandOf e.data))
  other : ∀ q ∈ n.replicas, q.desc.id ≠ r.desc.id → (n'.machine q).range.Agree (n.machine q).range
  /-- No range is new, or the right range of a split that is current and new to the machine. -/
  founds : (new = [] ∧ ∀ spec, decodeSplitCommand e.data = some spec → spec.current r.desc →
      spec.right.id ∈ n.ids) ∨
    ∃ spec, decodeSplitCommand e.data = some spec ∧ spec.current r.desc ∧ spec.right.id ∉ n.ids ∧
      new = [{ desc := spec.right, mark := r.mark, applied := 0 }] ∧
      (n'.machine { desc := spec.right, mark := r.mark, applied := 0 }).range.Agree
        (Machine.born {} spec.right ((n.machine r).movedRecords spec) r.mark).range

theorem Sane.apply (h : n.Sane) (hr : r ∈ n.replicas)
    (hcuts : ∀ spec, decodeSplitCommand e.data = some spec → spec.Cuts r.desc.id)
    (conf : Configuration) :
    ∃ n' r' new, n.apply conf r e = some n' ∧ n.Advances r e n' r' new := by
  have hhosted := h.hosted hr
  obtain ⟨m, ids', hentry, -, -, -⟩ := Machine.range_applyEntry hhosted hcuts conf
  obtain ⟨m', ids'', hbatch, hm', hstaged', hagree'⟩ :=
    Machine.range_applyBatch hhosted (show ∀ e' ∈ [e], ∀ spec, _ from by simpa using hcuts)
      fun _ => conf
  obtain ⟨rfl, rfl⟩ : m.flush = m' ∧ ids' = ids'' := by
    simpa [Machine.applyBatch, hentry] using hbatch
  refine ⟨n.advanced r e m.flush ids', ⟨m.flush.desc, m.flush.store.gcMark, r.applied + 1⟩,
    n.created e m.flush ids', by simp [Node.apply, hbatch], rfl, rfl, rfl, hm'.desc, ?_, ?_, ?_⟩
  · have hmachine : ((n.advanced r e m.flush ids').machine
        { desc := m.flush.desc, mark := m.flush.store.gcMark, applied := r.applied + 1 }).range =
        m.flush.range := by
      simp only [Node.machine, Node.advanced, Machine.range, Store.flush_nil, hstaged', hm'.desc,
        ← hm'.ns]
    rw [hmachine]
    exact hagree'
  · -- The entry leaves the keys of the other replicas alone.
    intro q hq hne
    refine ⟨rfl, Store.agree_with_db (s := (n.machine q).store) fun k hk => ?_⟩
    have hpre : rangePrefix q.desc.id <+: k :=
      Store.isPrefix_of_owns hk
    exact Machine.get_applyEntry (m := n.machine r) hentry rfl rfl hne (mem_map_of_mem hq) hpre
  · rcases Machine.applyEntry_ranges hentry rfl with
      ⟨rfl, hin⟩ | ⟨spec, db, hdec, hcur, hnew, rfl, hmark, hdb⟩
    · refine .inl ⟨?_, hin⟩
      rw [Node.created]
      split <;> simp
    · have hmark' : m.flush.store.gcMark = r.mark := hmark
      refine .inr ⟨spec, hdec, hcur, hnew, ?_, ?_⟩
      · simp [Node.created, hdec, hmark', (hcuts spec hdec).clone_right]
      · have hmachine : ((n.advanced r e m.flush (n.ids ++ [spec.right.id])).machine
            { desc := spec.right, mark := r.mark, applied := 0 }).range =
            (Machine.born db spec.right ((n.machine r).movedRecords spec) r.mark).range := by
          simp only [Node.machine, Node.advanced, hdb]
          rfl
        rw [hmachine]
        exact Machine.range_born_agree db {} _ _ _

theorem Advances.ids (h : n.Advances r e n' r' new) : n'.ids = n.ids ++ new.map (·.desc.id) := by
  simp only [Node.ids, h.replicas, map_append, map_map]
  congr 1
  refine map_congr_left fun q _ => ?_
  by_cases hq : q.desc.id = r.desc.id <;> simp [hq, h.id]

/-- A replica of the machine afterwards is the one that applied the entry, one of the others, or the
one a split founded. -/
theorem Advances.cases (h : n.Advances r e n' r' new) {q : Replica} (hq : q ∈ n'.replicas) :
    q = r' ∨ (q ∈ n.replicas ∧ q.desc.id ≠ r.desc.id) ∨ q ∈ new := by
  rw [h.replicas] at hq
  rcases mem_append.mp hq with hq | hq
  · obtain ⟨q, hmem, rfl⟩ := mem_map.mp hq
    split
    · exact .inl rfl
    · next hne => exact .inr (.inl ⟨hmem, hne⟩)
  · exact .inr (.inr hq)

theorem Advances.sane (h : n.Advances r e n' r' new) (hn : n.Sane) (hr : r ∈ n.replicas) :
    n'.Sane where
  nodup := by
    rw [h.ids]
    rcases h.founds with ⟨rfl, -⟩ | ⟨spec, -, -, hnew, rfl, -⟩
    · simpa using hn.nodup
    · exact hn.nodup.append (by simp) (by simpa using hnew)
  contained q hq := by
    rcases h.cases hq with rfl | ⟨hmem, hne⟩ | hmem
    · exact (hn.contained r hr).apply.of_agree ⟨h.self.desc.symm, h.self.store.symm⟩
    · have hagree := h.other q hmem hne
      exact (hn.contained q hmem).of_agree ⟨hagree.desc.symm, hagree.store.symm⟩
    · rcases h.founds with ⟨rfl, -⟩ | ⟨spec, -, -, -, rfl, hagree⟩
      · simp at hmem
      · obtain rfl := mem_singleton.mp hmem
        have hborn := Machine.hosted_born ((n.machine r).belongs_movedRecords spec)
          (mem_singleton.mpr rfl) {} r.mark
        exact hborn.contained.of_agree ⟨hagree.desc.symm, hagree.store.symm⟩

end Node

/-! ### The cluster -/

/-- How a range came to be: the split entry it was born of, and what it started from. -/
structure Origin where
  parent : Option (RangeID × ℕ) := none
  desc : RangeDescriptor
  mark : Timestamp := {}
  records : List (Bytes × Bytes) := []

/-- The state the range starts from. -/
def Origin.range (o : Origin) : Range := (Machine.born .empty o.desc o.records o.mark).range

/-- The machines, the committed log and the birth of each range, the splits proposed and not yet
committed, and the identifiers of all splits proposed. -/
structure Fleet (N : ℕ) where
  nodes : Fin N → Node
  log : RangeID → List Entry
  birth : RangeID → Option Origin
  pending : List (RangeID × SplitSpec) := []
  issued : List RangeID := []

namespace Fleet

variable {N : ℕ}

/-- Where a machine's identifiers start. -/
def seed (i : Fin N) : RangeID := UInt64.ofNat (2 + i)

/-- A new cluster: every machine hosts the first range. -/
def start (N : ℕ) : Fleet N where
  nodes i :=
    { nextRange := seed i, db := .empty, replicas := [{ desc := firstRangeDescriptor, mark := {}, applied := 0 }] }
  log _ := []
  birth id := if id = firstRange then some { desc := firstRangeDescriptor } else none

inductive Event (N : ℕ)
  /-- A leader proposes a split, and the proposal is taken or refused. -/
  | propose (i : Fin N) (id : RangeID) (taken : Bool)
  | commit (id : RangeID) (e : Entry)
  | apply (i : Fin N) (id : RangeID) (conf : Configuration)
  /-- A machine is recovered in place, or one of its replicas installs a snapshot. -/
  | restart (i : Fin N) (n : Node)
  /-- A machine is rebuilt through `Open`. -/
  | reopen (i : Fin N) (n : Node)

variable (w : Fleet N) {id id' : RangeID} {n : Node} {i : Fin N} {e : Entry} {r : Replica} {st : Range}
  {o : Origin} {k : ℕ}

/-- The state of a range after a prefix of its log. -/
def stateAt (id : RangeID) (k : ℕ) : Option Range :=
  (w.birth id).map fun o => (Machine.commands ((w.log id).take k)).foldl Range.apply o.range

/-- What a split moves out of a range in a given state. -/
def moved (r : Range) (spec : SplitSpec) : List (Bytes × Bytes) :=
  ({ desc := r.desc, store := r.store } : Machine).movedRecords spec

/-- What the next entry of a range's log founds: a split that is current where it stands founds its
right range. -/
def founded (id : RangeID) (e : Entry) : Option Origin := do
  let spec ← decodeSplitCommand e.data
  let r ← w.stateAt id (w.log id).length
  if spec.current r.desc then
    some { parent := some (id, (w.log id).length), desc := spec.right, mark := r.store.gcMark,
           records := moved r spec }
  else none

/-- The births after an entry is committed. -/
def birthsAfter (id : RangeID) (e : Entry) : RangeID → Option Origin :=
  match w.founded id e with
  | some o => if (w.birth o.desc.id).isNone then Function.update w.birth o.desc.id (some o) else w.birth
  | none => w.birth

def setNode (i : Fin N) (n : Node) : Fleet N := { w with nodes := Function.update w.nodes i n }

def step (w : Fleet N) : Event N → Fleet N
  | .propose i id taken =>
    match (w.nodes i).replicaOf id with
    | none => w
    | some r =>
      match ((w.nodes i).machine r).splitSpec (w.nodes i).nextRange with
      | none => w
      | some spec =>
        let n := w.nodes i
        let w := w.setNode i { n with nextRange := n.nextRange + UInt64.ofNat N }
        if taken then
          { w with pending := (id, spec) :: w.pending, issued := spec.right.id :: w.issued }
        else w
  | .commit id e =>
    { w with
      log := Function.update w.log id (w.log id ++ [e])
      birth := w.birthsAfter id e
      pending := match decodeSplitCommand e.data with
        | some spec => w.pending.erase (id, spec)
        | none => w.pending }
  | .apply i id conf =>
    match (w.nodes i).replicaOf id with
    | none => w
    | some r =>
      match (w.log id)[r.applied]? with
      | none => w
      | some e => (((w.nodes i).apply conf r e).map (w.setNode i)).getD w
  | .restart i n => w.setNode i { n with nextRange := (w.nodes i).nextRange }
  | .reopen i n => w.setNode i { n with nextRange := seed i }

/-- What recovery brings back: some of the ranges the machine hosted, each as of some prefix of its
log. -/
def recovered (i : Fin N) (n : Node) : Bool :=
  n.ids.Nodup && n.replicas.all fun r => r.desc.id ∈ (w.nodes i).ids &&
    r.applied ≤ (w.log r.desc.id).length &&
    (w.stateAt r.desc.id r.applied).map Range.state = some (n.machine r).range.state

/-- What replication and recovery guarantee: entries are committed to ranges that exist, a split only
if it was proposed, and at most once; recovery brings back states along the log. -/
def allows (w : Fleet N) : Event N → Prop
  | .propose .. | .apply .. => True
  | .commit id e => (w.birth id).isSome ∧
      ∀ spec ∈ decodeSplitCommand e.data, (id, spec) ∈ w.pending
  | .restart i n | .reopen i n => w.recovered i n

/-- No counter is started again after it has been used, and none wraps around. -/
def keepsCounter (w : Fleet N) : Event N → Prop
  | .propose i _ _ => (w.nodes i).nextRange.toNat + N < 2 ^ 64
  | .reopen i _ => (w.nodes i).nextRange = seed i
  | _ => True

/-! ### What holds along a run -/

/-- The counters and what they have issued. Every machine keeps to its own residue. -/
structure Counters (w : Fleet N) : Prop where
  own : ∀ i, 2 ≤ (w.nodes i).nextRange.toNat ∧ (w.nodes i).nextRange.toNat % N = (2 + i) % N
  issued : ∀ id ∈ w.issued, 2 ≤ id.toNat ∧
    ∃ i : Fin N, id.toNat % N = (2 + i) % N ∧ id.toNat < (w.nodes i).nextRange.toNat
  nodup : w.issued.Nodup

/-- The replicas of a machine are on their logs. -/
structure OnLog (w : Fleet N) (n : Node) : Prop where
  nodup : n.ids.Nodup
  replica : ∀ r ∈ n.replicas, r.applied ≤ (w.log r.desc.id).length ∧
    ∃ st, w.stateAt r.desc.id r.applied = some st ∧ (n.machine r).range.Agree st

/-- What a cluster whose counters are kept maintains. -/
structure Sound (w : Fleet N) : Prop where
  counters : w.Counters
  birth : ∀ id o, w.birth id = some o → o.desc.id = id ∧ Belongs o.desc o.records ∧
    (id = firstRange ∨ id ∈ w.issued)
  pending : ∀ id spec, (id, spec) ∈ w.pending → spec.Cuts id ∧ spec.right.id ∈ w.issued ∧
    w.birth spec.right.id = none
  distinct : (w.pending.map (·.2.right.id)).Nodup
  /-- A split in the log cuts its range, and where it is current it has founded its right range. -/
  log : ∀ id k e spec, (w.log id)[k]? = some e → decodeSplitCommand e.data = some spec →
    (w.birth id).isSome ∧ spec.Cuts id ∧
      ∀ st, w.stateAt id k = some st → spec.current st.desc →
        w.birth spec.right.id = some
          { parent := some (id, k), desc := spec.right, mark := st.store.gcMark,
            records := moved st spec }
  onLog : ∀ i, w.OnLog (w.nodes i)

variable {w}

theorem add_mod_inj {j : Fin N} (h : (2 + i.1) % N = (2 + j.1) % N) : i = j := by
  have hmod : i.1 ≡ j.1 [MOD N] := Nat.ModEq.add_left_cancel' 2 h
  exact Fin.ext (Nat.ModEq.eq_of_lt_of_lt hmod i.2 j.2)

theorem Counters.fresh (h : w.Counters) (i : Fin N) :
    (w.nodes i).nextRange ∉ w.issued ∧ (w.nodes i).nextRange ≠ firstRange := by
  constructor
  · intro hmem
    obtain ⟨-, j, hmod, hlt⟩ := h.issued _ hmem
    obtain rfl := add_mod_inj ((h.own i).2.symm.trans hmod)
    exact lt_irrefl _ hlt
  · intro heq
    have := (h.own i).1
    rw [heq] at this
    exact absurd this (by decide)

theorem Sound.birth_fresh (h : w.Sound) (i : Fin N) : w.birth (w.nodes i).nextRange = none := by
  cases hb : w.birth (w.nodes i).nextRange with
  | none => rfl
  | some o =>
    rcases (h.birth _ o hb).2.2 with hfirst | hissued
    · exact absurd hfirst (h.counters.fresh i).2
    · exact absurd hissued (h.counters.fresh i).1

theorem Sound.contained_stateAt (h : w.Sound) (hst : w.stateAt id k = some st) :
    st.store.ns = rangePrefix id ∧ st.Contained := by
  obtain ⟨o, ho, rfl⟩ := Option.map_eq_some_iff.mp hst
  obtain ⟨hid, hbelongs, -⟩ := h.birth id o ho
  have hborn := Machine.hosted_born hbelongs (mem_singleton.mpr rfl) {} o.mark
  have hfold : ∀ (cs : List Command) (r : Range), r.Contained →
      (cs.foldl Range.apply r).store.ns = r.store.ns ∧ (cs.foldl Range.apply r).Contained := by
    intro cs
    induction cs with
    | nil => exact fun r hr => ⟨rfl, hr⟩
    | cons c cs ih =>
      intro r hr
      obtain ⟨hns, hc⟩ := ih (r.apply c) hr.apply
      exact ⟨hns.trans (ns_apply r c), hc⟩
  obtain ⟨hns, hc⟩ := hfold (Machine.commands ((w.log id).take k)) o.range hborn.contained
  exact ⟨hns.trans (hid ▸ rfl), hc⟩

theorem Sound.sane (h : w.Sound) (hn : w.OnLog n) : n.Sane where
  nodup := hn.nodup
  contained r hr := by
    obtain ⟨-, st, hst, hagree⟩ := hn.replica r hr
    exact (h.contained_stateAt hst).2.of_agree ⟨hagree.desc.symm, hagree.store.symm⟩

/-! ### One step -/

theorem stateAt_succ (hst : w.stateAt id k = some st) (he : (w.log id)[k]? = some e) :
    w.stateAt id (k + 1) = some (st.apply (commandOf e.data)) := by
  obtain ⟨o, ho, rfl⟩ := Option.map_eq_some_iff.mp hst
  have htake : (w.log id).take (k + 1) = (w.log id).take k ++ [e] := by
    rw [take_add_one, he]
    rfl
  simp only [Fleet.stateAt, ho, htake, Machine.commands_append, foldl_append, Option.map_some]
  rfl

/-- A replica that applies its next entry stays on its log, and so do the others of its machine. -/
theorem Sound.apply (h : w.Sound) (hn : w.OnLog n) (hr : r ∈ n.replicas)
    (he : (w.log r.desc.id)[r.applied]? = some e) (conf : Configuration) :
    ∃ n', n.apply conf r e = some n' ∧ w.OnLog n' ∧ n'.nextRange = n.nextRange ∧
      ∀ spec, decodeSplitCommand e.data = some spec → spec.current r.desc →
        spec.right.id ∈ n.ids ∨ ∃ mark, ⟨spec.right, mark, 0⟩ ∈ n'.replicas := by
  obtain ⟨-, st, hst, hagree⟩ := hn.replica r hr
  have hlt : r.applied < (w.log r.desc.id).length := (List.getElem?_eq_some_iff.mp he).1
  obtain ⟨n', r', new, hn', hadv⟩ := (h.sane hn).apply hr
    (fun spec hdec => (h.log _ _ e spec he hdec).2.1) conf
  refine ⟨n', hn', ⟨(hadv.sane (h.sane hn) hr).nodup, fun q hq => ?_⟩, hadv.nextRange, ?_⟩
  · rcases hadv.cases hq with rfl | ⟨hmem, hne⟩ | hmem
    · -- The replica itself is one entry further on.
      rw [hadv.id, hadv.applied]
      exact ⟨hlt, _, stateAt_succ hst he, hadv.self.trans (hagree.apply _)⟩
    · obtain ⟨hle, st', hst', hagree'⟩ := hn.replica q hmem
      exact ⟨hle, st', hst', (hadv.other q hmem hne).trans hagree'⟩
    · -- The replica a split founds is at the beginning of its log.
      rcases hadv.founds with ⟨rfl, -⟩ | ⟨spec, hdec, hcur, -, rfl, hborn⟩
      · simp at hmem
      · obtain rfl := mem_singleton.mp hmem
        have hbirth := (h.log _ _ e spec he hdec).2.2 st hst (hagree.desc ▸ hcur)
        have hmoved : (n.machine r).movedRecords spec = moved st spec :=
          movedRecords_congr _ ⟨st.desc, st.store, []⟩ hagree.store spec
        have hmark : r.mark = st.store.gcMark := hagree.store.gcMark
        refine ⟨Nat.zero_le _, _, by simp only [Fleet.stateAt, hbirth]; rfl, ?_⟩
        rw [hmoved, hmark] at hborn
        exact hmark ▸ hborn
  · intro spec hdec hcur
    rcases hadv.founds with ⟨-, hin⟩ | ⟨spec', hdec', -, -, rfl, -⟩
    · exact .inl (hin spec hdec hcur)
    · cases hdec.symm.trans hdec'
      refine .inr ⟨r.mark, ?_⟩
      rw [hadv.replicas]
      simp

theorem mem_records_born {desc : RangeDescriptor} {rs : List (Bytes × Bytes)}
    (hbelongs : Belongs desc rs) (hnodup : (rs.map (·.1)).Nodup) {k x : Bytes} (h : (k, x) ∈ rs)
    (db : Version) (mark : Timestamp) :
    (k, x) ∈ (Machine.born db desc rs mark).range.store.records := by
  obtain ⟨key, hkey, -⟩ := hbelongs _ h
  refine Store.mem_records.mpr ⟨?_, ?_⟩
  · rw [Store.userKeyOf] at hkey
    split at hkey
    · next howns =>
      exact howns
    · simp at hkey
  · have hdb := get_replaceRecords_eq { ns := rangePrefix desc.id, db := db } rs mark
    exact (congrArg (fun v : Version => v.get k) hdb).trans
      ((get_applyTo_sets_iff hnodup).mpr (.inl h))

theorem nodup_moved (r : Range) (spec : SplitSpec) : ((moved r spec).map (·.1)).Nodup := by
  rw [moved, Machine.movedRecords, map_map, Machine.keyed]
  have hsorted : r.store.records.Pairwise fun a b => a.1 < b.1 ∧ r.store.ns <+: a.1 ∧
      r.store.ns <+: b.1 := by
    rw [Store.records_eq]
    refine (r.store.db.sorted.sublist filter_sublist).imp_of_mem fun {a b} ha hb hlt => ?_
    have hpre : ∀ c ∈ r.store.db.entries.filter fun e => r.store.owns e.1, r.store.ns <+: c.1 :=
      fun c hc => Store.isPrefix_of_owns (mem_filter.mp hc).2
    exact ⟨hlt, hpre a ha, hpre b hb⟩
  rw [List.Nodup, pairwise_map]
  refine List.Pairwise.filter _ (List.Pairwise.filterMap _ ?_ hsorted)
  intro a b hab kr hkr kr' hkr'
  obtain ⟨key, -, rfl⟩ := Option.map_eq_some_iff.mp hkr
  obtain ⟨key', -, rfl⟩ := Option.map_eq_some_iff.mp hkr'
  obtain ⟨hlt, ⟨x, hx⟩, ⟨y, hy⟩⟩ := hab
  rw [← hx, ← hy, append_lt_append_iff] at hlt
  simp [reNamespace, ← hx, ← hy, hlt.ne]

theorem founded_eq_some :
    w.founded id e = some o ↔ ∃ spec st, decodeSplitCommand e.data = some spec ∧
      w.stateAt id (w.log id).length = some st ∧ spec.current st.desc ∧
      { parent := some (id, (w.log id).length), desc := spec.right, mark := st.store.gcMark,
        records := moved st spec } = o := by
  simp only [founded, Option.bind_eq_bind, Option.bind_eq_some_iff]
  constructor
  · rintro ⟨spec, hdec, st, hst, h⟩
    split at h
    · next hcur => exact ⟨spec, st, hdec, hst, hcur, Option.some.inj h⟩
    · simp at h
  · rintro ⟨spec, st, hdec, hst, hcur, rfl⟩
    exact ⟨spec, hdec, st, hst, if_pos hcur⟩

theorem birthsAfter_cases (w : Fleet N) (id : RangeID) (e : Entry) :
    w.birthsAfter id e = w.birth ∨ ∃ o, w.founded id e = some o ∧ w.birth o.desc.id = none ∧
      w.birthsAfter id e = Function.update w.birth o.desc.id (some o) := by
  unfold birthsAfter
  split
  · next o ho =>
    split
    · next hnone => exact .inr ⟨o, ho, Option.isNone_iff_eq_none.mp hnone, rfl⟩
    · exact .inl rfl
  · exact .inl rfl

theorem birth_commit (h : w.birth id' = some o) (e : Entry) : w.birthsAfter id e id' = some o := by
  rcases birthsAfter_cases w id e with heq | ⟨o', -, hnone, heq⟩
  · rw [heq, h]
  · have hne : id' ≠ o'.desc.id := by
      rintro rfl
      simp [h] at hnone
    rw [heq, Function.update_of_ne hne, h]

theorem stateAt_commit (hst : w.stateAt id' k = some st) (hk : k ≤ (w.log id').length) (e : Entry) :
    (w.step (.commit id e)).stateAt id' k = some st := by
  obtain ⟨o, ho, rfl⟩ := Option.map_eq_some_iff.mp hst
  have hlog : ((w.step (.commit id e)).log id').take k = (w.log id').take k := by
    by_cases hid : id' = id
    · subst hid
      simp only [step, Function.update_self]
      exact take_append_of_le_length hk
    · simp only [step, Function.update_of_ne hid]
  rw [stateAt, hlog]
  simp only [step, birth_commit ho e, Option.map_some]

theorem OnLog.commit (hn : w.OnLog n) (id : RangeID) (e : Entry) : (w.step (.commit id e)).OnLog n where
  nodup := hn.nodup
  replica r hr := by
    obtain ⟨hle, st, hst, hagree⟩ := hn.replica r hr
    refine ⟨?_, st, stateAt_commit hst hle e, hagree⟩
    by_cases hid : r.desc.id = id
    · simp only [step, hid, Function.update_self, length_append]
      exact (hid ▸ hle).trans (Nat.le_add_right _ _)
    · simpa only [step, Function.update_of_ne hid] using hle

theorem Sound.commit (h : w.Sound) (hok : w.allows (.commit id e)) :
    (w.step (.commit id e)).Sound := by
  obtain ⟨hexists, hproposed⟩ := hok
  -- What the entry founds comes from a split that was pending.
  have hfounded : ∀ o, w.founded id e = some o → ∃ spec, decodeSplitCommand e.data = some spec ∧
      (id, spec) ∈ w.pending ∧ o.desc = spec.right ∧ Belongs o.desc o.records := by
    intro o ho
    obtain ⟨spec, st, hdec, -, -, rfl⟩ := founded_eq_some.mp ho
    exact ⟨spec, hdec, hproposed spec hdec, rfl, Machine.belongs_movedRecords _ spec⟩
  have hbirth : ∀ id' o, (w.step (.commit id e)).birth id' = some o →
      w.birth id' = some o ∨ w.founded id e = some o ∧ o.desc.id = id' := by
    intro id' o ho
    rcases birthsAfter_cases w id e with heq | ⟨o', ho', -, heq⟩
    · exact .inl (heq ▸ ho)
    · by_cases hid : id' = o'.desc.id
      · subst hid
        have : some o' = some o := by simpa [step, heq] using ho
        exact .inr ⟨Option.some.inj this ▸ ho', Option.some.inj this ▸ rfl⟩
      · left
        simpa [step, heq, Function.update_of_ne hid] using ho
  -- A split that stays pending is another one than the entry's.
  have herase : ∀ id' spec', (id', spec') ∈ (w.step (.commit id e)).pending →
      (id', spec') ∈ w.pending ∧ ∀ spec, decodeSplitCommand e.data = some spec →
        spec'.right.id ≠ spec.right.id := by
    intro id' spec' hmem
    cases hdec : decodeSplitCommand e.data with
    | none => exact ⟨by simpa [step, hdec] using hmem, by simp⟩
    | some spec =>
      simp only [step, hdec] at hmem
      have hnodup : w.pending.Nodup := h.distinct.of_map
      obtain ⟨hne, hmem⟩ := hnodup.mem_erase_iff.mp hmem
      refine ⟨hmem, fun spec'' hspec heq => hne ?_⟩
      cases hspec
      exact inj_on_of_nodup_map h.distinct hmem (hproposed spec hdec) heq
  refine
    { counters := ⟨h.counters.own, h.counters.issued, h.counters.nodup⟩
      birth := ?_, pending := ?_, distinct := ?_, log := ?_
      onLog := fun i => (h.onLog i).commit id e }
  · intro id' o hb
    rcases hbirth id' o hb with ho | ⟨ho, rfl⟩
    · exact h.birth id' o ho
    · obtain ⟨spec, -, hpending, hdesc, hbelongs⟩ := hfounded o ho
      exact ⟨rfl, hbelongs, .inr (hdesc ▸ (h.pending id spec hpending).2.1)⟩
  · intro id' spec' hmem
    obtain ⟨hmem, hne⟩ := herase id' spec' hmem
    obtain ⟨hcuts, hissued, hnone⟩ := h.pending id' spec' hmem
    refine ⟨hcuts, hissued, ?_⟩
    cases hb : (w.step (.commit id e)).birth spec'.right.id with
    | none => rfl
    | some o =>
      rcases hbirth _ o hb with ho | ⟨ho, hid⟩
      · simp [hnone] at ho
      · obtain ⟨spec, hdec, -, hdesc, -⟩ := hfounded o ho
        exact absurd (hdesc ▸ hid.symm) (hne spec hdec)
  · cases hdec : decodeSplitCommand e.data with
    | none => simpa [step, hdec] using h.distinct
    | some spec =>
      simp only [step, hdec]
      exact h.distinct.sublist (erase_sublist.map _)
  · intro id' k e' spec' hget hdec
    -- Whatever stood in the log before is as it was.
    have hold : (w.log id')[k]? = some e' → ((w.step (.commit id e)).birth id').isSome ∧
        spec'.Cuts id' ∧ ∀ st, (w.step (.commit id e)).stateAt id' k = some st →
          spec'.current st.desc → (w.step (.commit id e)).birth spec'.right.id = some
            { parent := some (id', k), desc := spec'.right, mark := st.store.gcMark,
              records := moved st spec' } := by
      intro hget
      obtain ⟨hsome, hcuts, hfound⟩ := h.log id' k e' spec' hget hdec
      obtain ⟨o, ho⟩ := Option.isSome_iff_exists.mp hsome
      refine ⟨by simp [step, birth_commit ho e], hcuts, fun st hst hcur => ?_⟩
      have hlt : k < (w.log id').length := (List.getElem?_eq_some_iff.mp hget).1
      obtain ⟨st', hst'⟩ : ∃ st', w.stateAt id' k = some st' := ⟨_, by rw [stateAt, ho]; rfl⟩
      obtain rfl : st' = st :=
        Option.some.inj ((stateAt_commit hst' hlt.le e).symm.trans hst)
      exact birth_commit (hfound st' hst' hcur) e
    by_cases hid : id' = id
    · subst hid
      simp only [step, Function.update_self] at hget
      rcases Nat.lt_or_ge k (w.log id').length with hlt | hge
      · exact hold (by rwa [getElem?_append_left hlt] at hget)
      · -- The entry itself.
        rw [getElem?_append_right hge] at hget
        obtain ⟨hk, rfl⟩ : k - (w.log id').length = 0 ∧ e = e' := by
          cases hk : k - (w.log id').length with
          | zero => simpa [hk] using hget
          | succ j => simp [hk] at hget
        obtain rfl : k = (w.log id').length := by omega
        have hpending := h.pending id' spec' (hproposed spec' hdec)
        obtain ⟨o, ho⟩ := Option.isSome_iff_exists.mp hexists
        refine ⟨by simp [step, birth_commit ho e], hpending.1, fun st hst hcur => ?_⟩
        obtain ⟨st', hst'⟩ : ∃ st', w.stateAt id' (w.log id').length = some st' :=
          ⟨_, by rw [stateAt, ho]; rfl⟩
        obtain rfl : st' = st := Option.some.inj ((stateAt_commit hst' le_rfl e).symm.trans hst)
        have hfound := founded_eq_some.mpr ⟨spec', st', hdec, hst', hcur, rfl⟩
        simp [step, birthsAfter, hfound, hpending.2.2]
    · simp only [step, Function.update_of_ne hid] at hget
      exact hold hget

theorem nodes_setNode (w : Fleet N) (i j : Fin N) (n : Node) :
    (w.setNode i n).nodes j = if j = i then n else w.nodes j := by
  by_cases h : j = i
  · subst h
    simp [setNode]
  · simp [setNode, h]

/-- A machine in another state, with its replicas on their logs and its counter as it was. -/
theorem Sound.setNode (h : w.Sound) (hn : w.OnLog n) (hnext : n.nextRange = (w.nodes i).nextRange) :
    (w.setNode i n).Sound := by
  have hsame : ∀ j, ((w.setNode i n).nodes j).nextRange = (w.nodes j).nextRange := by
    intro j
    rw [nodes_setNode]
    split
    · next hj => rw [hj, hnext]
    · rfl
  refine
    { counters := ⟨fun j => hsame j ▸ h.counters.own j, fun id hid => ?_, h.counters.nodup⟩
      birth := h.birth, pending := h.pending, distinct := h.distinct, log := h.log
      onLog := fun j => ?_ }
  · obtain ⟨hle, j, hmod, hlt⟩ := h.counters.issued id hid
    exact ⟨hle, j, hmod, hsame j ▸ hlt⟩
  · rw [nodes_setNode]
    split
    · exact ⟨hn.nodup, hn.replica⟩
    · exact ⟨(h.onLog j).nodup, (h.onLog j).replica⟩

theorem mem_of_replicaOf (h : n.replicaOf id = some r) : r ∈ n.replicas ∧ r.desc.id = id :=
  ⟨mem_of_find?_eq_some h, by simpa using find?_some h⟩

theorem agree_of_state {r r' : Range} (hns : r.store.ns = r'.store.ns) (h : r.state = r'.state) :
    r.Agree r' := by
  simp only [Range.state, Prod.mk.injEq] at h
  obtain ⟨hdesc, hmark, hrecords⟩ := h
  refine ⟨hdesc, hns, hmark, fun k hk => ?_⟩
  have hk' : r'.store.owns k := by rwa [← Store.owns_congr hns]
  have hiff : ∀ x, r.store.db.get k = some x ↔ r'.store.db.get k = some x := by
    intro x
    have hmem : (k, x) ∈ r.store.records ↔ (k, x) ∈ r'.store.records := by rw [hrecords]
    simpa [Store.mem_records, hk, hk'] using hmem
  exact Option.ext hiff

theorem Sound.onLog_of_recovered (h : w.Sound) (hn : w.recovered i n) : w.OnLog n := by
  simp only [recovered, Bool.and_eq_true, decide_eq_true_eq, all_eq_true] at hn
  refine ⟨hn.1, fun r hr => ?_⟩
  obtain ⟨⟨-, hle⟩, hstate⟩ := hn.2 r hr
  obtain ⟨st, hst, heq⟩ := Option.map_eq_some_iff.mp hstate
  exact ⟨hle, st, hst, agree_of_state (h.contained_stateAt hst).1.symm heq.symm⟩

theorem Counters.mint (h : w.Counters) (hroom : (w.nodes i).nextRange.toNat + N < 2 ^ 64)
    (hn : n.nextRange = (w.nodes i).nextRange + UInt64.ofNat N) (taken : Bool) :
    Counters { w.setNode i n with
      issued := if taken then (w.nodes i).nextRange :: w.issued else w.issued } := by
  have hnext : n.nextRange.toNat = (w.nodes i).nextRange.toNat + N := by
    rw [hn, UInt64.toNat_add, UInt64.toNat_ofNat', Nat.add_mod_mod, Nat.mod_eq_of_lt hroom]
  have hle : ∀ j, (w.nodes j).nextRange.toNat ≤ ((w.setNode i n).nodes j).nextRange.toNat := by
    intro j
    rw [nodes_setNode]
    split
    · next hj => rw [hj, hnext]; omega
    · exact le_rfl
  refine ⟨fun j => ?_, fun id hid => ?_, ?_⟩
  · obtain ⟨htwo, hmod⟩ := h.own j
    refine ⟨htwo.trans (hle j), ?_⟩
    simp only [nodes_setNode]
    split
    · next hj => rw [hnext, Nat.add_mod_right, ← hj, hmod]
    · exact hmod
  · have hold : id ∈ w.issued → 2 ≤ id.toNat ∧ ∃ j : Fin N, id.toNat % N = (2 + j) % N ∧
        id.toNat < ((w.setNode i n).nodes j).nextRange.toNat := by
      intro hid
      obtain ⟨htwo, j, hmod, hlt⟩ := h.issued id hid
      exact ⟨htwo, j, hmod, hlt.trans_le (hle j)⟩
    cases taken with
    | false => exact hold (by simpa using hid)
    | true =>
      rcases mem_cons.mp (by simpa using hid) with rfl | hid
      · refine ⟨(h.own i).1, i, (h.own i).2, ?_⟩
        have hpos : 0 < N := i.pos
        simp only [nodes_setNode, if_true, hnext]
        omega
      · exact hold hid
  · cases taken with
    | false => exact h.nodup
    | true => exact nodup_cons.mpr ⟨(h.fresh i).1, h.nodup⟩

theorem Sound.propose (h : w.Sound) {taken : Bool} (hroom : w.keepsCounter (.propose i id taken)) :
    (w.step (.propose i id taken)).Sound := by
  simp only [step]
  split
  · exact h
  · next r hr =>
    obtain ⟨hmem, rfl⟩ := mem_of_replicaOf hr
    split
    · exact h
    · next spec hspec =>
      have hcuts := Machine.cuts_of_splitSpec ((h.sane (h.onLog i)).hosted hmem) rfl hspec
      have hright : spec.right.id = (w.nodes i).nextRange := by
        obtain ⟨key, -, rfl⟩ := Option.map_eq_some_iff.mp hspec
        rfl
      have hcounters := h.counters.mint hroom (n := { w.nodes i with
        nextRange := (w.nodes i).nextRange + UInt64.ofNat N }) rfl taken
      have honLog : ∀ j, w.OnLog ((w.setNode i { w.nodes i with
          nextRange := (w.nodes i).nextRange + UInt64.ofNat N }).nodes j) := by
        intro j
        rw [nodes_setNode]
        split
        · exact ⟨(h.onLog i).nodup, (h.onLog i).replica⟩
        · exact h.onLog j
      cases taken with
      | false =>
        exact
          { counters := ⟨hcounters.own, hcounters.issued, hcounters.nodup⟩
            birth := h.birth, pending := h.pending, distinct := h.distinct, log := h.log
            onLog := fun j => ⟨(honLog j).nodup, (honLog j).replica⟩ }
      | true =>
        -- The new identifier is nobody's.
        have hissued : (w.nodes i).nextRange ∉ w.issued := (h.counters.fresh i).1
        simp only [if_true, hright]
        refine
          { counters := ⟨hcounters.own, hcounters.issued, hcounters.nodup⟩
            birth := fun id' o ho => ?_, pending := fun id' spec' hspec' => ?_, distinct := ?_
            log := h.log, onLog := fun j => ⟨(honLog j).nodup, (honLog j).replica⟩ }
        · obtain ⟨hid, hbelongs, hin⟩ := h.birth id' o ho
          exact ⟨hid, hbelongs, hin.imp_right (mem_cons_of_mem _)⟩
        · rcases mem_cons.mp hspec' with heq | hspec'
          · cases heq
            exact ⟨hcuts, hright ▸ mem_cons_self, hright ▸ h.birth_fresh i⟩
          · obtain ⟨hcuts', hin, hnone⟩ := h.pending id' spec' hspec'
            exact ⟨hcuts', mem_cons_of_mem _ hin, hnone⟩
        · refine nodup_cons.mpr ⟨fun hmem' => ?_, h.distinct⟩
          obtain ⟨p, hp, heq⟩ := mem_map.mp hmem'
          have hp' : p.2.right.id = (w.nodes i).nextRange := heq.trans hright
          exact hissued (hp' ▸ (h.pending p.1 p.2 hp).2.1)

theorem Sound.step (h : w.Sound) {e : Event N} (hok : w.allows e) (hkeeps : w.keepsCounter e) :
    (w.step e).Sound := by
  cases e with
  | propose i id taken => exact h.propose hkeeps
  | commit id e => exact h.commit hok
  | apply i id conf =>
    simp only [Fleet.step]
    split
    · exact h
    · next r hr =>
      obtain ⟨hmem, rfl⟩ := mem_of_replicaOf hr
      split
      · exact h
      · next e he =>
        obtain ⟨n', hn', honLog, hnext, -⟩ := h.apply (h.onLog i) hmem he conf
        rw [hn']
        exact h.setNode honLog hnext
  | restart i n =>
    have hn := h.onLog_of_recovered hok
    exact h.setNode (n := { n with nextRange := (w.nodes i).nextRange }) ⟨hn.nodup, hn.replica⟩ rfl
  | reopen i n =>
    have hn := h.onLog_of_recovered hok
    exact h.setNode (n := { n with nextRange := seed i }) ⟨hn.nodup, hn.replica⟩ hkeeps.symm

theorem sound_start (hN : N < 2 ^ 63) : (start N).Sound := by
  have hseed : ∀ i : Fin N, (seed i).toNat = 2 + i := by
    intro i
    rw [seed, UInt64.toNat_ofNat']
    exact Nat.mod_eq_of_lt (by have := i.2; omega)
  refine
    { counters := ⟨fun i => ?_, by simp [start], by simp [start]⟩
      birth := fun id o ho => ?_
      pending := by simp [start], distinct := by simp [start]
      log := by simp [start]
      onLog := fun i => ⟨by simp [start, Node.ids], fun r hr => ?_⟩ }
  · simp only [start, hseed]
    exact ⟨by omega, trivial⟩
  · simp only [start] at ho
    split at ho
    · next hid =>
      cases ho
      exact ⟨hid.symm, by simp [Belongs], .inl hid⟩
    · simp at ho
  · obtain rfl := mem_singleton.mp hr
    exact ⟨Nat.zero_le _, _, rfl, .refl _⟩

/-- What a split does where it is current: the right range is founded here and starts from every
record the split moves, or a replica of it is here already that was born of this very entry, from
these records. -/
theorem Sound.split (h : w.Sound) {spec : SplitSpec} (hr : (w.nodes i).replicaOf id = some r)
    (he : (w.log id)[r.applied]? = some e) (hdec : decodeSplitCommand e.data = some spec)
    (hcur : spec.current r.desc) (conf : Configuration) :
    ∃ n', (w.nodes i).apply conf r e = some n' ∧
      if spec.right.id ∈ (w.nodes i).ids then
        ∃ o, w.birth spec.right.id = some o ∧ o.parent = some (id, r.applied) ∧
          o.records = ((w.nodes i).machine r).movedRecords spec
      else ∃ q ∈ n'.replicas, q.desc = spec.right ∧
        ∀ x ∈ ((w.nodes i).machine r).movedRecords spec, x ∈ (n'.machine q).store.records := by
  obtain ⟨hmem, rfl⟩ := mem_of_replicaOf hr
  obtain ⟨n', hn', honLog, -, hnew⟩ := h.apply (h.onLog i) hmem he conf
  obtain ⟨-, st, hst, hagree⟩ := (h.onLog i).replica r hmem
  have hbirth := (h.log _ _ e spec he hdec).2.2 st hst (hagree.desc ▸ hcur)
  have hmoved : ((w.nodes i).machine r).movedRecords spec = moved st spec :=
    movedRecords_congr _ ⟨st.desc, st.store, []⟩ hagree.store spec
  refine ⟨n', hn', ?_⟩
  split
  · exact ⟨_, hbirth, rfl, hmoved.symm⟩
  · next hnot =>
    obtain ⟨mark, hq⟩ := (hnew spec hdec hcur).resolve_left hnot
    refine ⟨_, hq, rfl, fun x hx => ?_⟩
    rw [hmoved] at hx
    obtain ⟨-, st', hst', hagree'⟩ := honLog.replica _ hq
    have hborn : (Machine.born {} spec.right (moved st spec) st.store.gcMark).range = st' := by
      simpa [Fleet.stateAt, hbirth, Machine.commands, Origin.range] using hst'
    have hin : x ∈ st'.store.records := by
      rw [← hborn]
      exact mem_records_born (Machine.belongs_movedRecords _ spec) (nodup_moved st spec) hx {} _
    rw [← hagree'.store.records] at hin
    exact hin

/-- **Range identifiers are never reused.** In every run in which no counter is started again after use
and none wraps around, the identifiers of all splits proposed are distinct, what a machine mints next
is no identifier of a split or of a range that exists, and a split that is applied founds its right
range from every record it moves or finds the replica it founded before. -/
theorem identifiers_unique (hN : N < 2 ^ 63) {es : List (Event N)}
    (hallows : Follows Fleet.step allows (start N) es)
    (hkeeps : Follows Fleet.step keepsCounter (start N) es) :
    let w := es.foldl Fleet.step (start N)
    w.issued.Nodup ∧ firstRange ∉ w.issued ∧
    (∀ i, (w.nodes i).nextRange ∉ w.issued ∧ w.birth (w.nodes i).nextRange = none ∧
      ∀ j, (w.nodes i).nextRange ∉ (w.nodes j).ids) ∧
    ∀ i id r e spec, (w.nodes i).replicaOf id = some r → (w.log id)[r.applied]? = some e →
      decodeSplitCommand e.data = some spec → spec.current r.desc → ∀ conf,
        ∃ n', (w.nodes i).apply conf r e = some n' ∧
          if spec.right.id ∈ (w.nodes i).ids then
            ∃ o, w.birth spec.right.id = some o ∧ o.parent = some (id, r.applied) ∧
              o.records = ((w.nodes i).machine r).movedRecords spec
          else ∃ q ∈ n'.replicas, q.desc = spec.right ∧
            ∀ x ∈ ((w.nodes i).machine r).movedRecords spec, x ∈ (n'.machine q).store.records := by
  have h : (es.foldl Fleet.step (start N)).Sound :=
    (hallows.and hkeeps).invariant (fun _ _ hw hok => hw.step hok.1 hok.2) (sound_start hN)
  generalize es.foldl Fleet.step (start N) = w at h
  refine ⟨h.counters.nodup, fun hmem => ?_, fun i => ?_, ?_⟩
  · exact absurd (h.counters.issued _ hmem).1 (by decide)
  · refine ⟨(h.counters.fresh i).1, h.birth_fresh i, fun j hmem => ?_⟩
    obtain ⟨r, hr, hid⟩ := mem_map.mp hmem
    obtain ⟨-, st, hst, -⟩ := (h.onLog j).replica r hr
    simp [Fleet.stateAt, hid, h.birth_fresh i] at hst
  · intro i id r e spec hr he hdec hcur conf
    exact h.split hr he hdec hcur conf

/-! ### Runs on one machine -/

instance (w : Fleet N) (e : Event N) : Decidable (w.allows e) := by
  unfold allows
  split <;> infer_instance

instance (w : Fleet N) (e : Event N) : Decidable (w.keepsCounter e) := by
  unfold keepsCounter
  split <;> infer_instance

def keyNamed (b : UInt8) : Key := ⟨[b], length_singleton_lt b⟩

/-- A put under one of four keys. -/
def putNamed (b : UInt8) : Entry where
  term := 1
  index := 1
  data := encodeCmd { op := opPut, key := keyNamed b, value := keyNamed b, ts := { wall := 1 } }

/-- The entry of a split of the first range. -/
def splitEntry (desc : RangeDescriptor) (b : UInt8) : Entry where
  term := 1
  index := 5
  data := encodeSplitCommand (SplitSpec.cut desc (keyNamed b) 2)

/-- Four keys are written and the range is split between them. -/
def splitRun : List (Event 1) :=
  [.commit firstRange (putNamed 97), .commit firstRange (putNamed 98),
    .commit firstRange (putNamed 99), .commit firstRange (putNamed 100),
    .apply 0 firstRange {}, .apply 0 firstRange {}, .apply 0 firstRange {}, .apply 0 firstRange {},
    .propose 0 firstRange true, .commit firstRange (splitEntry firstRangeDescriptor 99),
    .apply 0 firstRange {}]

/-- The hypotheses hold of a run that splits a range, and its identifiers are distinct. -/
theorem identifiers_unique_split :
    (splitRun.foldl Fleet.step (start 1)).issued = [2] ∧
    (splitRun.foldl Fleet.step (start 1)).issued.Nodup ∧
    ((splitRun.foldl Fleet.step (start 1)).nodes 0).nextRange ∉
      ((splitRun.foldl Fleet.step (start 1)).nodes 0).ids :=
  have hallows : Follows Fleet.step allows (start 1) splitRun := by decide +kernel
  have hkeeps : Follows Fleet.step keepsCounter (start 1) splitRun := by decide +kernel
  have h := identifiers_unique (by decide) hallows hkeeps
  ⟨by decide +kernel, h.1, (h.2.2.1 0).2.2 0⟩

/-- The machine is rebuilt through `Open` as it was, and its leader splits what is left of the range. -/
def reuseRun : List (Event 1) :=
  splitRun ++ [.reopen 0 ((splitRun.foldl Fleet.step (start 1)).nodes 0),
    .propose 0 firstRange true,
    .commit firstRange (splitEntry (SplitSpec.cut firstRangeDescriptor (keyNamed 99) 2).left 98)]

/-- A replica of the machine holds a record of a user key. -/
def holds (n : Node) (key : Key) : Bool :=
  n.replicas.any fun r =>
    (n.machine r).store.records.any fun x => (n.machine r).store.userKeyOf x.1 = some key

/-- **A machine rebuilt through `Open` mints its identifiers again.** Two splits carry the same right
identifier, and the second finds the right range of the first and drops the records it moves. -/
theorem reopened_machine_loses_record :
    let before := reuseRun.foldl Fleet.step (start 1)
    let after := before.step (.apply 0 firstRange {})
    Follows Fleet.step allows (start 1) (reuseRun ++ [.apply 0 firstRange {}]) ∧
      after.issued = [2, 2] ∧ holds (before.nodes 0) (keyNamed 98) ∧
      holds (after.nodes 0) (keyNamed 98) = false := by
  decide +kernel

/-! ### Replicas of a range -/

/-- **Replicas of a range agree.** In every run in which no counter is started again after use and none
wraps around, whatever splits, snapshots and restarts it holds: a replica that applies the entries
between it and another replica of its range reaches the extent, the collection mark and the records of
the other. Two replicas that have applied as many entries are in the same state. -/
theorem replicas_agree (hN : N < 2 ^ 63) {es : List (Event N)}
    (hallows : Follows Fleet.step allows (start N) es)
    (hkeeps : Follows Fleet.step keepsCounter (start N) es) :
    let w := es.foldl Fleet.step (start N)
    ∀ i j, ∀ r ∈ (w.nodes i).replicas, ∀ r' ∈ (w.nodes j).replicas, r.desc.id = r'.desc.id →
      r.applied ≤ r'.applied →
      ((Machine.commands (((w.log r.desc.id).take r'.applied).drop r.applied)).foldl Range.apply
        ((w.nodes i).machine r).range).state = ((w.nodes j).machine r').range.state := by
  intro w i j r hr r' hr' hid hle
  have h : w.Sound :=
    (hallows.and hkeeps).invariant (fun _ _ hw hok => hw.step hok.1 hok.2) (sound_start hN)
  clear_value w
  obtain ⟨-, st, hst, hagree⟩ := (h.onLog i).replica r hr
  obtain ⟨-, st', hst', hagree'⟩ := (h.onLog j).replica r' hr'
  -- Both are on the log of the range, from one birth on.
  obtain ⟨o, ho, rfl⟩ := Option.map_eq_some_iff.mp hst
  rw [← hid, stateAt, ho, Option.map_some] at hst'
  cases hst'
  have hsplit := take_append_drop r.applied ((w.log r.desc.id).take r'.applied)
  rw [take_take, min_eq_left hle] at hsplit
  rw [(hagree.foldl _).state, hagree'.state, ← foldl_append, ← Machine.commands_append, hsplit]

theorem replicas_agree_put :
    let w := [.commit firstRange (putNamed 97), .apply 0 firstRange {}].foldl Fleet.step (start 2)
    ∃ r ∈ (w.nodes 1).replicas, ∃ r' ∈ (w.nodes 0).replicas, r.applied < r'.applied ∧
      ((Machine.commands (((w.log r.desc.id).take r'.applied).drop r.applied)).foldl Range.apply
        ((w.nodes 1).machine r).range).state = ((w.nodes 0).machine r').range.state := by
  intro w
  have hrun : ∃ r ∈ (w.nodes 1).replicas, ∃ r' ∈ (w.nodes 0).replicas,
      r.desc.id = r'.desc.id ∧ r.applied < r'.applied := by decide +kernel
  obtain ⟨r, hr, r', hr', hid, hlt⟩ := hrun
  exact ⟨r, hr, r', hr', hlt, replicas_agree (by decide) (by decide +kernel) (by decide +kernel)
    1 0 r hr r' hr' hid hlt.le⟩

end Fleet

end Rift.Driver
