import Mathlib.Data.List.TakeWhile
import Rift.Driver.Frames
import Rift.Driver.Stored
import Rift.Lib.Runs
import Rift.Raft.Membership
import Rift.Raft.Watermarks

/-!
# What a crash leaves of a replica

A replica writes raft's state to the shared engine, learns later that the writes are durable, and folds
them into its record then. A crash takes the engine back to the durable sequence and the replica reads it
back. What it reads is the record, whatever was in flight, as long as what it writes fits the encodings.

## Main results

* `recovers_record` — a restart finds the record
-/

namespace Rift.Driver

open Kv Model List

/-! ### The replica -/

/-- What of a replica concerns durability. -/
structure Keeper where
  rng : RangeID
  cfg : Config
  snapshotThreshold : ℕ := 0
  db : DB := {}
  /-- The sequence of the last batch this process has applied. -/
  visibleSeq : ℕ := 0
  raft : Raft
  applied : ℕ := 0
  dur : Record := {}
  /-- Some completion was observed, so the record is one. -/
  durRecorded : Bool := false
  pending : List PendingWrite := []
  writtenLast : ℕ := 0
  ackedSeq : ℕ := 0

/-- What the state machine does while a Ready is handled: the batches it writes for an installed snapshot
and for committed entries, the collection a leader proposes meanwhile, and its contents afterwards. -/
structure Applying where
  ingested : List Batch := []
  written : List Batch := []
  proposals : List (ProposalID × Bytes) := []
  desc : RangeDescriptor := firstRangeDescriptor
  mark : Timestamp := {}
  records : List (Bytes × Bytes) := []

/-- The payload of a snapshot taken then. -/
def Applying.data (a : Applying) : Bytes := encodeMachine a.desc a.mark a.records

/-- The recovered state is the recorded one. Entry types are not compared. -/
def sameDurableState (r : Record) (st : Recovered) : Prop :=
  r.hs = st.hs ∧ r.snap = st.snap ∧
    r.log.map (fun e => (e.index, e.term, e.id, e.data)) =
      st.entries.map fun e => (e.index, e.term, e.id, e.data)

instance (r : Record) (st : Recovered) : Decidable (sameDurableState r st) :=
  inferInstanceAs (Decidable (_ ∧ _))

/-- The configuration that a snapshot and the entries after it say, if the snapshot says one. -/
def derivedConf (st : Recovered) : Option Configuration :=
  if st.snap.conf.voters = [] then none
  else some <| st.entries.foldl (fun conf e =>
    if e.type = .confChange then
      match applyConfEntry conf e.data with
      | .ok next => next
      | .error _ => conf
    else conf) st.snap.conf

namespace Keeper

variable (k : Keeper)

def apply (b : Batch) : Keeper :=
  { k with db := k.db.apply b, visibleSeq := k.db.seq + 1 }

/-- Apply a batch and note what it wrote. -/
def write (b : Batch) (w : PendingWrite) : Keeper :=
  { k.apply b with pending := k.pending ++ [{ w with seq := k.db.seq + 1 }] }

/-- A snapshot to install is written first and on its own. -/
def install (snapMark : ℕ) : Option Snapshot → Option Keeper
  | none => some k
  | some s =>
    match decodeMachine s.data with
    | none => none
    | some _ =>
      let snap : SnapshotMeta := { index := s.index, term := s.term, conf := s.conf }
      let k := { k.write (installBatch k.rng snap s.data) (installWrite snapMark snap) with
        writtenLast := snap.index }
      if k.applied < snap.index then
        some { k with applied := snap.index, raft := k.raft.ackApplied snap.index }
      else some k

/-- Then the hard state and the entries. -/
def persist (rd : Ready) : Keeper :=
  if rd.hardState.isSome ∨ rd.entries ≠ [] then
    { k.write (logBatch k.rng k.writtenLast rd.hardState rd.entries)
        (logWrite k.writtenLast rd.mark rd.hardState rd.entries) with
      writtenLast := (rd.entries.getLast?.map (·.index)).getD k.writtenLast }
  else k

/-- The snapshot a compaction takes now, with the node that has compacted its log. -/
def compaction : Option (Raft × SnapshotMeta) :=
  let applied := k.raft.appliedIdx
  if k.snapshotThreshold = 0 ∨ applied < k.raft.snapIndex + k.snapshotThreshold then none
  else match k.raft.compact applied with
    | .error _ => none
    | .ok (r, term, conf) => some (r, { index := applied, term := term, conf := conf })

/-- Compact once the log has grown past the threshold. -/
def maybeSnapshot (data : Bytes) : Keeper :=
  match k.compaction with
  | none => k
  | some (r, snap) => { k with raft := r }.write (compactBatch k.rng snap data) (compactWrite snap)

/-- Write a Ready down. -/
def store (rd : Ready) (a : Applying) : Option Keeper :=
  (k.install rd.snapMark rd.snapshot).map fun k =>
    a.written.foldl apply ((a.ingested.foldl apply k).persist rd)

/-- Have the state machine apply what is committed, up to a last entry. -/
def acknowledge (last : Entry) (a : Applying) : Option Keeper :=
  match a.proposals.foldlM (fun r p => (r.exec (.propose p.1 p.2)).map (·.1)) k.raft with
  | .error _ => none
  | .ok r => some { k with applied := last.index, raft := r.ackApplied last.index }

/-- One round of the drain loop. `none` is a panic. -/
def drain (a : Applying) : Option Keeper :=
  match k.raft.ready with
  | .error _ => none
  | .ok (r, rd) =>
    match { k with raft := r }.store rd a with
    | none => none
    | some k =>
      match rd.committed.getLast? with
      | none => some k
      | some last => (k.acknowledge last a).map (·.maybeSnapshot a.data)

/-- Read the engine back. The source panics while something visible is not durable. -/
def readDurable : Option Recovered :=
  if k.visibleSeq ≠ k.db.durableSeq then none else some (readBack k.rng k.db.visible.version)

/-- The highest mark that a completion covers. A mark that a write in flight still carries is not
covered. -/
def coveredMark (landed kept : List PendingWrite) : ℕ :=
  let mark := landed.foldl (fun m w => max m w.mark) 0
  match kept with
  | w :: _ => if w.mark ≠ 0 ∧ w.mark ≤ mark then w.mark - 1 else mark
  | [] => mark

/-- Tell raft which marks are durable. -/
def ack (mark snapMark : ℕ) : Keeper :=
  let r := if mark = 0 then k.raft else k.raft.ackPersisted mark
  { k with raft := if snapMark = 0 then r else r.ackSnapshot snapMark }

/-- The comparison of the record with the engine, made when nothing is in flight. -/
def crossChecked : Bool :=
  if k.visibleSeq = k.db.durableSeq ∧ k.ackedSeq = k.db.durableSeq ∧ k.pending = [] then
    k.readDurable.any fun st => sameDurableState k.dur st
  else true

/-- The engine reports everything up to a sequence durable. -/
def onDurable (seq : ℕ) : Option Keeper :=
  let landed := k.pending.filter (·.seq ≤ seq)
  let kept := k.pending.filter (seq < ·.seq)
  match landed.foldlM Record.fold k.dur with
  | none => none
  | some dur =>
    let k := { k with
      dur := dur
      durRecorded := k.durRecorded || !landed.isEmpty
      pending := kept
      ackedSeq := max k.ackedSeq seq }
    if k.crossChecked then
      some (k.ack (coveredMark landed kept) (landed.foldl (fun m w => max m w.snapMark) 0))
    else none

/-- The engine advances, and the replica hears of it. -/
def durable (seq : ℕ) : Option Keeper :=
  match k.db.advanceDurable seq with
  | none => none
  | some db => { k with db := db }.onDurable seq

/-- A crash takes what is not durable. -/
def crash : Keeper :=
  { k with
    db := k.db.crash
    visibleSeq := k.db.durableSeq
    pending := []
    writtenLast := k.dur.last }

/-- Compare what was read with the record, or take it as one. -/
def adopt (st : Recovered) : Option Keeper :=
  if k.durRecorded then if sameDurableState k.dur st then some k else none
  else some { k with
    dur := { hs := st.hs, snap := st.snap, log := st.entries }
    durRecorded := true }

/-- Rebuild the replica. `none` is a panic. -/
def restartFrom (st : Recovered) : Option Keeper :=
  match k.adopt st with
  | none => none
  | some k =>
    match Raft.restore k.cfg st.hs st.snap st.entries with
    | .error _ => none
    | .ok r =>
      if (derivedConf st).all (· = r.conf) ∧ (st.machine.isSome ∨ k.rng = firstRange) then
        some { k with
          raft := r
          applied := if k.applied < st.snap.index then st.snap.index else k.applied
          writtenLast := k.dur.last }
      else none

end Keeper

/-- The machine that comes back hosts the range: it is the first, or its descriptor is stored. -/
def Hosts (id : RangeID) (v : Version) : Prop :=
  id = firstRange ∨ ((v.get (keyDescOf id)).bind decodeDesc).any (·.id = id)

instance (id : RangeID) (v : Version) : Decidable (Hosts id v) :=
  inferInstanceAs (Decidable (_ ∨ _))

namespace Keeper

/-- Crash and recover. A range whose descriptor is gone is not rebuilt. -/
def restart (k : Keeper) : Option Keeper :=
  if Hosts k.rng k.db.durable.version then k.crash.readDurable.bind k.crash.restartFrom else none

/-- What happens to a replica: an input of raft, a write of somebody else, a round of the drain loop, a
completion, and a crash with the recovery after it. -/
inductive Event
  | call (c : Call)
  | other (b : Batch)
  | drain (a : Applying)
  | durable (seq : ℕ)
  | restart

/-- A panic leaves the replica where it was. -/
def step (k : Keeper) : Event → Keeper
  | .call c =>
    match k.raft.exec c with
    | .ok (r, _) => { k with raft := r }
    | .error _ => k
  | .other b => k.apply b
  | .drain a => (k.drain a).getD k
  | .durable seq => (k.durable seq).getD k
  | .restart => k.restart.getD k

end Keeper

/-! ### Who else writes -/

/-- Writes that leave raft's state of a range alone. -/
def RaftForeign (id : RangeID) (b : Batch) : Prop :=
  ∀ (v : Version) (k : Bytes), IsRaftKey id k → (applyTo v b).get k = v.get k

theorem exists_of_isRaftKey {id : RangeID} {k : Bytes} (h : IsRaftKey id k) :
    ∃ t, rangePrefix id ++ 47 :: t = k := by
  rcases h with rfl | rfl | rfl | ⟨t, rfl⟩
  · exact ⟨_, rfl⟩
  · exact ⟨_, rfl⟩
  · exact ⟨_, rfl⟩
  · exact ⟨_, by rw [logPrefixOf, append_assoc]; rfl⟩

/-- What a store owns is no key of raft's, of whichever range. -/
theorem Confined.raftForeign {id id' : RangeID} {s : Store} {b : Batch} (hns : s.ns = rangePrefix id')
    (h : Confined (s.owns ·) b) : RaftForeign id b := by
  refine fun v k hk => h v k fun howns => ?_
  obtain ⟨t, rfl⟩ := exists_of_isRaftKey hk
  obtain ⟨kind, hkind, r, hr⟩ := Store.owns_iff.mp howns
  rw [hns, append_assoc] at hr
  obtain rfl := rangePrefix_inj hr
  obtain rfl : kind = 47 := by simpa using congrArg head? (append_cancel_left hr)
  exact absurd hkind (by decide)

/-- The state machine of a range leaves raft's state alone: whatever a transaction, a put, a collection
or an ingestion of its records writes. -/
theorem raftForeign_of_store {id id' : RangeID} {s : Store} (hns : s.ns = rangePrefix id') :
    (∀ c, RaftForeign id (applyTxnTo s [] c)) ∧
      (∀ key ts x b, s.putInto [] key ts x = .ok b → RaftForeign id b) ∧
      (∀ upTo, RaftForeign id ((s.collected upTo).map .delete)) ∧
      ∀ rs mark, (∀ r ∈ rs, s.owns r.1) → RaftForeign id (s.ingestRecordsInto [] rs mark).1 :=
  ⟨fun c => (confined_stages (stages_applyTxnTo s c)).raftForeign hns,
    fun _ _ _ _ h => (confined_stages (Store.stages_putInto h)).raftForeign hns,
    fun upTo => (confined_collected s upTo).raftForeign hns,
    fun _ mark hrs => (confined_ingest hrs mark).raftForeign hns⟩

/-- The keys that a split gives to the new range are foreign to every other range. -/
theorem raftForeign_born {id id' : RangeID} (h : id ≠ id') (x y : Bytes) :
    RaftForeign id [.set (keyDescOf id') x, .set (keySnapshotOf id') y] := by
  intro v k hk
  obtain ⟨t, rfl⟩ := exists_of_isRaftKey hk
  refine get_applyTo_of_untouched (fun op hop htouch => h ?_) v
  simp only [mem_cons, not_mem_nil, or_false] at hop
  rcases hop with rfl | rfl
  · exact (rangePrefix_inj (htouch : keyDescOf id' = _)).symm
  · exact (rangePrefix_inj (htouch : keySnapshotOf id' = _)).symm

/-! ### The engine's versions and the writes in flight -/

/-- A version in which the range exists holds the record. -/
def Kept (id : RangeID) (v : Version) (r : Record) : Prop := Hosts id v → Stores id v r

/-- The versions since a record was made, the writes in flight, and the record they lead to: every version
comes from one of the writes, or leaves the record as it was. -/
inductive Track (id : RangeID) : Record → List Stamped → List PendingWrite → Record → Prop
  | nil (r : Record) : Track id r [] [] r
  | foreign {r r' : Record} {v : Stamped} {vs : List Stamped} {ws : List PendingWrite}
      (hk : Kept id v.version r) (ht : Track id r vs ws r') : Track id r (v :: vs) ws r'
  | own {r r₁ r' : Record} {v : Stamped} {vs : List Stamped} {w : PendingWrite}
      {ws : List PendingWrite} (hseq : w.seq = v.seq) (hf : r.fold w = some r₁)
      (hk : Kept id v.version r₁) (ht : Track id r₁ vs ws r') : Track id r (v :: vs) (w :: ws) r'

namespace Track

variable {id : RangeID} {r r' r'' : Record} {vs vs' : List Stamped} {ws ws' : List PendingWrite}

theorem append (h : Track id r vs ws r') (h' : Track id r' vs' ws' r'') :
    Track id r (vs ++ vs') (ws ++ ws') r'' := by
  induction h with
  | nil => exact h'
  | foreign hk _ ih => exact .foreign hk (ih h')
  | own hseq hf hk _ ih => exact .own hseq hf hk (ih h')

theorem split (h : Track id r (vs ++ vs') ws r') : ∃ ws₁ ws₂ r₁, ws = ws₁ ++ ws₂ ∧
    Track id r vs ws₁ r₁ ∧ Track id r₁ vs' ws₂ r' := by
  induction vs generalizing r ws with
  | nil => exact ⟨[], ws, r, rfl, .nil r, h⟩
  | cons v vs ih =>
    cases h with
    | foreign hk ht =>
      obtain ⟨ws₁, ws₂, r₁, rfl, h₁, h₂⟩ := ih ht
      exact ⟨ws₁, ws₂, r₁, rfl, .foreign hk h₁, h₂⟩
    | @own _ _ _ _ _ w _ hseq hf hk ht =>
      obtain ⟨ws₁, ws₂, r₁, rfl, h₁, h₂⟩ := ih ht
      exact ⟨w :: ws₁, ws₂, r₁, rfl, .own hseq hf hk h₁, h₂⟩

theorem foldlM_fold (h : Track id r vs ws r') : ws.foldlM Record.fold r = some r' := by
  induction h with
  | nil => rfl
  | foreign _ _ ih => exact ih
  | own _ hf _ _ ih =>
    rw [foldlM_cons, hf]
    exact ih

theorem kept_getLast (h : Track id r vs ws r') {v : Stamped} (hk : Kept id v.version r) :
    Kept id (vs.getLast?.getD v).version r' := by
  induction h generalizing v with
  | nil => exact hk
  | foreign hk' _ ih =>
    rw [getLast?_cons]
    exact ih hk'
  | own _ _ hk' _ ih =>
    rw [getLast?_cons]
    exact ih hk'

theorem exists_seq (h : Track id r vs ws r') : ∀ w ∈ ws, ∃ v ∈ vs, w.seq = v.seq := by
  induction h with
  | nil => simp
  | foreign _ _ ih => exact fun w hw => (ih w hw).imp fun v => And.imp_left (mem_cons_of_mem _)
  | own hseq _ _ _ ih =>
    refine forall_mem_cons.mpr ⟨⟨_, mem_cons_self, hseq⟩, fun w hw => ?_⟩
    exact (ih w hw).imp fun v => And.imp_left (mem_cons_of_mem _)

/-- A completion folds exactly the writes behind the versions it makes durable. -/
theorem land (h : Track id r vs ws r') (hv : vs.Pairwise (·.seq < ·.seq)) (seq : ℕ) :
    ∃ dur, (ws.filter (·.seq ≤ seq)).foldlM Record.fold r = some dur ∧
      Track id dur (vs.dropWhile (·.seq ≤ seq)) (ws.filter (seq < ·.seq)) r' ∧
      ∀ v, Kept id v.version r →
        Kept id ((vs.takeWhile (·.seq ≤ seq)).getLast?.getD v).version dur := by
  rw [← takeWhile_append_dropWhile (p := (·.seq ≤ seq)) (l := vs)] at h
  obtain ⟨landed, kept, dur, rfl, hlanded, hkept⟩ := h.split
  have hle : ∀ w ∈ landed, w.seq ≤ seq := fun w hw => by
    obtain ⟨v, hmem, heq⟩ := hlanded.exists_seq w hw
    simpa [heq] using mem_takeWhile_imp hmem
  have hgt : ∀ w ∈ kept, seq < w.seq := fun w hw => by
    obtain ⟨v, hmem, heq⟩ := hkept.exists_seq w hw
    exact heq ▸ DB.lt_of_mem_dropWhile hv hmem
  have hfold : (landed ++ kept).filter (·.seq ≤ seq) = landed := by
    rw [filter_append, filter_eq_self.mpr (by simpa using hle),
      filter_eq_nil_iff.mpr (by simpa using hgt), append_nil]
  have hrest : (landed ++ kept).filter (seq < ·.seq) = kept := by
    rw [filter_append, filter_eq_nil_iff.mpr (by simpa using hle),
      filter_eq_self.mpr (by simpa using hgt), nil_append]
  rw [hfold, hrest]
  exact ⟨dur, hlanded.foldlM_fold, hkept, fun v => hlanded.kept_getLast⟩

end Track

/-- The engine, the record and the writes in flight are in step. -/
structure InStep (id : RangeID) (db : DB) (visibleSeq : ℕ) (dur : Record)
    (pending : List PendingWrite) (written : Record) : Prop where
  track : Track id dur db.pending pending written
  kept : Kept id db.durable.version dur
  hosts : Hosts id db.visible.version
  stores : Stores id db.visible.version written
  ordered : (db.durable :: db.pending).Pairwise (·.seq < ·.seq)
  seq_le : ∀ v ∈ db.durable :: db.pending, v.seq ≤ db.seq
  visible : visibleSeq = db.seq

namespace InStep

variable {id : RangeID} {db db' : DB} {visibleSeq : ℕ} {dur written written' : Record}
  {pending : List PendingWrite} {b : Batch}

theorem hosts_of_get {v v' : Version} (h : v'.get (keyDescOf id) = v.get (keyDescOf id)) :
    Hosts id v' ↔ Hosts id v := by
  unfold Hosts
  rw [h]

theorem ordered_apply (hordered : (db.durable :: db.pending).Pairwise (·.seq < ·.seq))
    (hseq : ∀ v ∈ db.durable :: db.pending, v.seq ≤ db.seq) (b : Batch) :
    ((db.apply b).durable :: (db.apply b).pending).Pairwise (·.seq < ·.seq) ∧
      ∀ v ∈ (db.apply b).durable :: (db.apply b).pending, v.seq ≤ (db.apply b).seq := by
  have hlist : (db.apply b).durable :: (db.apply b).pending =
      (db.durable :: db.pending) ++
        [{ version := applyTo db.visible.version b, seq := db.seq + 1 }] := rfl
  rw [hlist, pairwise_append]
  refine ⟨⟨hordered, pairwise_singleton _ _, fun v hv v' hv' => ?_⟩, fun v hv => ?_⟩
  · obtain rfl := mem_singleton.mp hv'
    exact Nat.lt_succ_of_le (hseq v hv)
  · rcases mem_append.mp hv with hv | hv
    · exact (hseq v hv).trans (Nat.le_succ _)
    · obtain rfl := mem_singleton.mp hv
      exact le_rfl

section

variable (h : InStep id db visibleSeq dur pending written)
include h

theorem apply (hb : RaftForeign id b) :
    InStep id (db.apply b) (db.seq + 1) dur pending written := by
  obtain ⟨hordered, hseq⟩ := ordered_apply h.ordered h.seq_le b
  have hstores : Stores id (db.apply b).visible.version written := by
    rw [DB.visible_apply]
    exact h.stores.of_get fun k hk => hb _ k hk
  have hhosts : Hosts id (db.apply b).visible.version := by
    rw [DB.visible_apply, hosts_of_get (hb _ _ (.inr (.inr (.inl rfl))))]
    exact h.hosts
  refine ⟨?_, h.kept, hhosts, hstores, hordered, hseq, rfl⟩
  have htrack := h.track.append (.foreign (fun _ => by rwa [DB.visible_apply] at hstores) (.nil _))
  rwa [append_nil] at htrack

theorem write {w : PendingWrite} (hf : written.fold { w with seq := db.seq + 1 } = some written')
    (hst : Stores id (applyTo db.visible.version b) written' ∧
      (applyTo db.visible.version b).get (keyDescOf id) = db.visible.version.get (keyDescOf id)) :
    InStep id (db.apply b) (db.seq + 1) dur (pending ++ [{ w with seq := db.seq + 1 }])
      written' := by
  obtain ⟨hordered, hseq⟩ := ordered_apply h.ordered h.seq_le b
  refine ⟨?_, h.kept, ?_, by rw [DB.visible_apply]; exact hst.1, hordered, hseq, rfl⟩
  · exact h.track.append (.own rfl hf (fun _ => hst.1) (.nil _))
  · rw [DB.visible_apply, hosts_of_get hst.2]
    exact h.hosts

theorem land {seq : ℕ} (hadv : db.advanceDurable seq = some db') :
    ∃ dur', (pending.filter (·.seq ≤ seq)).foldlM Record.fold dur = some dur' ∧
      InStep id db' visibleSeq dur' (pending.filter (seq < ·.seq)) written := by
  obtain ⟨dur', hfold, htrack, hlast⟩ := h.track.land (pairwise_cons.mp h.ordered).2 seq
  obtain ⟨hvisible, hseq, hsub⟩ := DB.advanceDurable_spec hadv
  have hdb : db'.durable = (db.pending.takeWhile (·.seq ≤ seq)).getLast?.getD db.durable ∧
      db'.pending = db.pending.dropWhile (·.seq ≤ seq) := by
    unfold DB.advanceDurable at hadv
    split_ifs at hadv
    cases hadv
    exact ⟨rfl, rfl⟩
  refine ⟨dur', hfold, hdb.2 ▸ htrack, ?_, hvisible ▸ h.hosts, hvisible ▸ h.stores,
    h.ordered.sublist hsub, fun v hv => hseq ▸ h.seq_le v (hsub.subset hv), hseq ▸ h.visible⟩
  rw [hdb.1]
  exact hlast _ h.kept

/-- When everything visible is durable, the durable version is the visible one. -/
theorem durable_eq (hv : visibleSeq = db.durableSeq) : db.visible = db.durable := by
  have hnil : db.pending = [] := by
    refine eq_nil_iff_forall_not_mem.mpr fun v hmem => ?_
    have hlt := (pairwise_cons.mp h.ordered).1 v hmem
    have hle := h.seq_le v (mem_cons_of_mem _ hmem)
    have hvis := h.visible
    unfold DB.durableSeq at hv
    omega
  rw [DB.visible, hnil]
  rfl

theorem crash (hh : Hosts id db.durable.version) : InStep id db.crash db.durableSeq dur [] dur where
  track := .nil _
  kept := h.kept
  hosts := hh
  stores := h.kept hh
  ordered := pairwise_singleton _ _
  seq_le v hv := by
    obtain rfl := mem_singleton.mp hv
    exact le_rfl
  visible := rfl

end

end InStep

/-! ### The node and what was written of it -/

/-- What was written ends where the node has handed over, and starts where its log starts. An install that
is still to be handed over suspends that. -/
structure Aligned (r : Raft) (writtenLast : ℕ) (written : Record) : Prop where
  watermarks : r.Watermarks
  ends : writtenLast = written.snap.index + written.log.length
  snap : r.pendingSnap = none → written.snap.index = r.snapIndex
  handed : r.pendingSnap = none → r.tail.handed ≤ writtenLast

namespace Aligned

variable {r r' : Raft} {writtenLast : ℕ} {written : Record} {c : Call} {rep : Reply}

theorem of_inherits (h : Aligned r writtenLast written) (hw : r'.Watermarks) (hi : r.Inherits r') :
    Aligned r' writtenLast written where
  watermarks := hw
  ends := h.ends
  snap hn := (h.snap (hi.pendingSnap hn)).trans (hi.snapIndex hn).symm
  handed hn := (hi.handed hn).trans (h.handed (hi.pendingSnap hn))

theorem exec (h : Aligned r writtenLast written) (he : r.exec c = .ok (r', rep)) (hr : c ≠ .ready)
    (hc : ∀ i, c ≠ .compact i) : Aligned r' writtenLast written := by
  obtain ⟨hw, hi⟩ := h.watermarks.exec he hr hc
  exact h.of_inherits hw hi

end Aligned

namespace Keeper

/-- The invariant of a replica, for the record its writes lead to. -/
structure Sound (k : Keeper) (written : Record) : Prop where
  config : k.cfg.refusal = none
  inStep : InStep k.rng k.db k.visibleSeq k.dur k.pending written
  aligned : Aligned k.raft k.writtenLast written

/-! ### What a step may write -/

/-- What raft hands over fits its encodings. -/
structure ReadyFits (rd : Ready) : Prop where
  hardState : ∀ s ∈ rd.hardState, HardState.Fits s
  entries : ∀ e ∈ rd.entries, Storable e
  snapshot : ∀ s ∈ rd.snapshot,
    SnapshotMeta.Fits { index := s.index, term := s.term, conf := s.conf } s.data

/-- What a step writes fits its encodings: counters eight bytes, the numbers of voters and of learners one,
payloads and their parts four. -/
def fits (k : Keeper) : Event → Prop
  | .drain a =>
    match k.raft.ready with
    | .error _ => True
    | .ok (r, rd) => ReadyFits rd ∧
      ∀ k₁ ∈ { k with raft := r }.store rd a, ∀ last ∈ rd.committed.getLast?,
        ∀ k₂ ∈ k₁.acknowledge last a, ∀ p ∈ k₂.compaction,
          SnapshotMeta.Fits p.2 a.data ∧ Fits a.desc a.records
  | _ => True

instance (rd : Ready) : Decidable (ReadyFits rd) :=
  decidable_of_iff ((∀ s ∈ rd.hardState, HardState.Fits s) ∧ (∀ e ∈ rd.entries, Storable e) ∧
    ∀ s ∈ rd.snapshot,
      SnapshotMeta.Fits { index := s.index, term := s.term, conf := s.conf } s.data)
    ⟨fun h => ⟨h.1, h.2.1, h.2.2⟩, fun h => ⟨h.1, h.2, h.3⟩⟩

instance (k : Keeper) : ∀ ev, Decidable (k.fits ev)
  | .drain a =>
    match h : k.raft.ready with
    | .error _ => isTrue (by simp only [fits, h])
    | .ok (r, rd) =>
      decidable_of_iff (ReadyFits rd ∧
        ∀ k₁ ∈ { k with raft := r }.store rd a, ∀ last ∈ rd.committed.getLast?,
          ∀ k₂ ∈ k₁.acknowledge last a, ∀ p ∈ k₂.compaction,
            SnapshotMeta.Fits p.2 a.data ∧ Fits a.desc a.records) (by simp only [fits, h])
  | .call _ | .other _ | .durable _ | .restart => inferInstanceAs (Decidable True)

/-- The calls that come from outside; the others are the driver's own. -/
def input : Call → Bool
  | .ready | .ackPersisted _ | .ackSnapshot _ | .ackApplied _ | .compact _ => false
  | _ => true

/-- What can happen to a replica: everybody else leaves its keys alone. -/
def allows (k : Keeper) : Event → Prop
  | .call c => input c
  | .other b => RaftForeign k.rng b
  | .drain a => ∀ b ∈ a.ingested ++ a.written, RaftForeign k.rng b
  | _ => True

variable {k k' : Keeper} {written : Record} {r : Raft} {rd : Ready} {a : Applying} {id : RangeID}

/-! ### The drain loop -/

/-- The engine part of the invariant. -/
def Tracks (k : Keeper) (written : Record) : Prop :=
  InStep k.rng k.db k.visibleSeq k.dur k.pending written

/-- The fields that no write changes. -/
def fixed (k : Keeper) : Raft × ℕ × RangeID × Config := (k.raft, k.writtenLast, k.rng, k.cfg)

theorem Tracks.others {bs : List Batch} (h : k.Tracks written)
    (hb : ∀ b ∈ bs, RaftForeign k.rng b) :
    (bs.foldl Keeper.apply k).Tracks written ∧ (bs.foldl Keeper.apply k).fixed = k.fixed := by
  induction bs generalizing k with
  | nil => exact ⟨h, rfl⟩
  | cons b bs ih =>
    have happly : (k.apply b).Tracks written := InStep.apply h (hb b mem_cons_self)
    obtain ⟨htracks, hfixed⟩ := ih happly fun b' hb' => hb b' (mem_cons_of_mem _ hb')
    exact ⟨htracks, hfixed⟩

theorem Tracks.install (h : k.Tracks written) {s : Snapshot} {snapMark : ℕ}
    (hf : SnapshotMeta.Fits { index := s.index, term := s.term, conf := s.conf } s.data)
    (hi : k.install snapMark (some s) = some k') :
    ∃ written', k'.Tracks written' ∧ written'.snap.index = s.index ∧ written'.log = [] ∧
      k'.writtenLast = s.index ∧ k'.rng = k.rng ∧ k'.cfg = k.cfg ∧
      k'.raft.bounds = k.raft.bounds ∧ k'.raft.log = k.raft.log := by
  unfold Keeper.install at hi
  cases hd : decodeMachine s.data with
  | none => simp [hd] at hi
  | some m =>
    simp only [hd] at hi
    have hwrite := InStep.write (w := installWrite snapMark
        { index := s.index, term := s.term, conf := s.conf }) h
      (Stores.fold_install written snapMark (k.db.seq + 1) _)
      (InStep.stores h |>.install hf (by rw [hd]; rfl))
    split_ifs at hi
    · cases hi
      refine ⟨_, hwrite, rfl, rfl, rfl, rfl, rfl, Raft.ackApplied_bounds _ _, ?_⟩
      show (k.raft.ackApplied _).log = k.raft.log
      unfold Raft.ackApplied
      split_ifs <;> rfl
    · cases hi
      exact ⟨_, hwrite, rfl, rfl, rfl, rfl, rfl, rfl, rfl⟩

theorem Tracks.persist (h : k.Tracks written) {i : ℕ} (hf : ReadyFits rd)
    (hes : Gapless i rd.entries) (hlo : written.snap.index ≤ i) (hhi : i ≤ k.writtenLast)
    (hw : k.writtenLast = written.snap.index + written.log.length) :
    ∃ written', (k.persist rd).Tracks written' ∧ written'.snap = written.snap ∧
      (k.persist rd).writtenLast = written'.snap.index + written'.log.length ∧
      i + rd.entries.length ≤ (k.persist rd).writtenLast ∧ (k.persist rd).raft = k.raft ∧
      (k.persist rd).rng = k.rng ∧ (k.persist rd).cfg = k.cfg := by
  unfold Keeper.persist
  split_ifs with hsome
  · have hwrite := InStep.write (w := logWrite k.writtenLast rd.mark rd.hardState rd.entries) h
      (Stores.fold_persist hes hlo hhi hw (k.db.seq + 1) rd.mark)
      ((InStep.stores h).persist hf.hardState hes hf.entries hlo hhi hw)
    have hlast : (rd.entries.getLast?.map (·.index)).getD k.writtenLast =
        if rd.entries = [] then k.writtenLast else i + rd.entries.length := by
      split_ifs with hnil
      · simp [hnil]
      · rw [getLast?_eq_some_getLast hnil]
        exact hes.getLast?_index _ (getLast?_eq_some_getLast hnil)
    refine ⟨_, hwrite, rfl, ?_, ?_, rfl, rfl, rfl⟩
    · show (rd.entries.getLast?.map (·.index)).getD k.writtenLast =
        written.snap.index + (written.overwrite i rd.entries).length
      rw [hlast, Record.overwrite]
      split_ifs with hnil
      · exact hw
      · rw [length_append, length_take_of_le (by omega)]
        omega
    · show i + rd.entries.length ≤ (rd.entries.getLast?.map (·.index)).getD k.writtenLast
      rw [hlast]
      split_ifs with hnil
      · simpa [hnil] using hhi
      · exact le_rfl
  · push Not at hsome
    refine ⟨written, h, rfl, hw, ?_, rfl, rfl, rfl⟩
    rwa [hsome.2]

theorem Sound.store (h : k.Sound written) (hr : k.raft.ready = .ok (r, rd)) (hf : ReadyFits rd)
    (ha : ∀ b ∈ a.ingested ++ a.written, RaftForeign k.rng b)
    (hs : { k with raft := r }.store rd a = some k') :
    ∃ written', k'.Sound written' ∧ k'.raft.pendingSnap = none ∧ k'.rng = k.rng := by
  obtain ⟨hwater, hhanded⟩ := h.aligned.watermarks.ready hr
  have hlen := hhanded.length h.aligned.watermarks
  have hes : Gapless k.raft.tail.handed rd.entries :=
    fun j e he => hhanded.index h.aligned.watermarks he
  obtain ⟨k₁, hk₁, rfl⟩ := Option.map_eq_some_iff.mp hs
  -- After a possible install what was written starts at the node's log.
  have hinstall : ∃ written₁, k₁.Tracks written₁ ∧ k₁.rng = k.rng ∧ k₁.cfg = k.cfg ∧
      k₁.raft.bounds = r.bounds ∧ k₁.raft.log = r.log ∧
      written₁.snap.index = k.raft.snapIndex ∧ k.raft.tail.handed ≤ k₁.writtenLast ∧
      k₁.writtenLast = written₁.snap.index + written₁.log.length := by
    rw [hhanded.snapshot] at hk₁
    cases hp : k.raft.pendingSnap with
    | none =>
      rw [hp] at hk₁
      cases hk₁
      exact ⟨written, h.inStep, rfl, rfl, rfl, rfl, h.aligned.snap hp, h.aligned.handed hp,
        h.aligned.ends⟩
    | some s =>
      rw [hp] at hk₁
      obtain ⟨hindex, hend⟩ := h.aligned.watermarks.install s hp
      have hfits := hf.snapshot s (hhanded.snapshot.trans hp)
      obtain ⟨written₁, htracks, hsnap, hlog, hlast, hrng, hcfg, hbounds, hrlog⟩ :=
        Tracks.install (k := { k with raft := r }) h.inStep hfits hk₁
      refine ⟨written₁, htracks, hrng, hcfg, hbounds, hrlog, hsnap.trans hindex, ?_, ?_⟩
      · rw [hend, hlast, hindex]
      · rw [hlast, hlog, hsnap]
        rfl
  obtain ⟨written₁, htracks₁, hrng₁, hcfg₁, hbounds₁, hlog₁, hsnap₁, hhi₁, hends₁⟩ := hinstall
  have hforeign : ∀ b ∈ a.ingested ++ a.written, RaftForeign k₁.rng b := hrng₁ ▸ ha
  obtain ⟨htracks₂, hfixed₂⟩ := htracks₁.others fun b hb => hforeign b (mem_append_left _ hb)
  set k₂ := a.ingested.foldl Keeper.apply k₁
  have hlo : written₁.snap.index ≤ k.raft.tail.handed := by
    rw [hsnap₁]
    exact h.aligned.watermarks.snap_le.trans h.aligned.watermarks.durable_le
  have hfields : k₂.writtenLast = k₁.writtenLast ∧ k₂.raft = k₁.raft ∧ k₂.rng = k₁.rng ∧
      k₂.cfg = k₁.cfg :=
    ⟨congrArg (·.2.1) hfixed₂, congrArg (·.1) hfixed₂, congrArg (·.2.2.1) hfixed₂,
      congrArg (·.2.2.2) hfixed₂⟩
  obtain ⟨written₃, htracks₃, hsnap₃, hends₃, hle₃, hraft₃, hrng₃, hcfg₃⟩ :=
    htracks₂.persist hf hes hlo (hfields.1 ▸ hhi₁) (hfields.1 ▸ hends₁)
  obtain ⟨htracks₄, hfixed₄⟩ := htracks₃.others fun b hb =>
    (hrng₃.trans hfields.2.2.1) ▸ hforeign b (mem_append_right _ hb)
  set k₄ := a.written.foldl Keeper.apply (k₂.persist rd)
  have hraft₄ : k₄.raft = k₁.raft :=
    (congrArg (·.1) hfixed₄).trans (hraft₃.trans hfields.2.1)
  have hlast₄ : k₄.writtenLast = (k₂.persist rd).writtenLast := congrArg (·.2.1) hfixed₄
  have hbounds := hbounds₁
  simp only [Raft.bounds, Prod.mk.injEq] at hbounds
  obtain ⟨hb₁, hb₂, -, hb₄⟩ := hbounds
  refine ⟨written₃, ⟨?_, htracks₄, ?_⟩, ?_, ?_⟩
  · have hcfg₄ : k₄.cfg = k.cfg :=
      (congrArg (·.2.2.2) hfixed₄).trans (hcfg₃.trans (hfields.2.2.2.trans hcfg₁))
    rw [hcfg₄]
    exact h.config
  · refine ⟨hraft₄ ▸ hwater.of_eq hlog₁ hbounds₁, hlast₄ ▸ hends₃, fun _ => ?_, fun _ => ?_⟩
    · rw [hsnap₃, hsnap₁, hraft₄, hb₁, hhanded.snapIndex]
    · rw [hraft₄, hb₂, hhanded.handed, hlast₄, ← hlen]
      exact hle₃
  · rw [hraft₄, hb₄]
    exact hhanded.pendingSnap
  · exact (congrArg (·.2.2.1) hfixed₄).trans (hrng₃.trans (hfields.2.2.1.trans hrng₁))

theorem Sound.acknowledge (h : k.Sound written) (hn : k.raft.pendingSnap = none) {last : Entry}
    (hk : k.acknowledge last a = some k') :
    k'.Sound written ∧ k'.raft.pendingSnap = none := by
  unfold Keeper.acknowledge at hk
  split at hk
  · simp at hk
  · next r hr =>
    cases hk
    -- Proposing neither moves the watermarks back nor brings an install.
    have hprop : Aligned r k.writtenLast written ∧ r.pendingSnap = none := by
      refine Raft.foldlM_inv (P := fun r => Aligned r k.writtenLast written ∧ r.pendingSnap = none)
        (fun r₁ p _ r₂ hr₁ hstep => ?_) ⟨h.aligned, hn⟩ hr
      cases he : r₁.exec (.propose p.1 p.2) with
      | error _ =>
        rw [he] at hstep
        simp [Except.map] at hstep
      | ok out =>
        obtain ⟨r₃, rep⟩ := out
        rw [he] at hstep
        obtain rfl : r₃ = r₂ := by simpa [Except.map] using hstep
        refine ⟨hr₁.1.exec he (by simp) (by simp), ?_⟩
        cases exec_executed he with
        | plain _ hm => exact (hm.pendingSnap_eq (by simp)).trans hr₁.2
    have happlied : Aligned (r.ackApplied last.index) k.writtenLast written :=
      hprop.1.exec (show r.exec (.ackApplied last.index) = .ok (_, .done) from rfl) (by simp) (by simp)
    exact ⟨⟨h.config, h.inStep, happlied⟩,
      (congrArg (·.2.2.2) (r.ackApplied_bounds last.index)).trans hprop.2⟩

theorem compaction_spec {snap : SnapshotMeta} (hc : k.compaction = some (r, snap)) :
    ∃ term, k.raft.snapIndex < snap.index ∧ snap.index ≤ k.raft.tail.persisted ∧
      r = k.raft.dropThrough snap.index term snap.conf := by
  unfold Keeper.compaction at hc
  dsimp only at hc
  split_ifs at hc with hskip
  push Not at hskip
  split at hc
  · simp at hc
  · next r' term conf hok =>
    obtain ⟨rfl, rfl⟩ := Prod.mk.inj (Option.some.inj hc)
    have hexec : k.raft.exec (.compact k.raft.appliedIdx) = .ok (r', .compacted term conf) := by
      simp [Raft.exec, hok]
      rfl
    have hpos := Nat.pos_of_ne_zero hskip.1
    cases compact_executed hexec with
    | plain hp _ => exact absurd hp (by simp [Call.plain])
    | recompacted hle => omega
    | compacted hs _ hp he _ => exact ⟨_, hs, hp, rfl⟩

theorem Sound.maybeSnapshot (h : k.Sound written) (hn : k.raft.pendingSnap = none)
    (hf : ∀ p ∈ k.compaction, SnapshotMeta.Fits p.2 a.data ∧ Fits a.desc a.records) :
    ∃ written', (k.maybeSnapshot a.data).Sound written' := by
  unfold Keeper.maybeSnapshot
  split
  · exact ⟨written, h⟩
  · next r snap hc =>
    obtain ⟨term, hlo, hp, rfl⟩ := compaction_spec hc
    obtain ⟨hfits, hpayload⟩ := hf _ hc
    have hstart := h.aligned.snap hn
    have hhi : snap.index ≤ k.writtenLast :=
      hp.trans (h.aligned.watermarks.durable_le.trans (h.aligned.handed hn))
    have hends := h.aligned.ends
    have hstores := h.inStep.stores
    -- The entry at the snapshot's index is stored, so the index has a successor.
    have hnext : snap.index + 1 < 256 ^ 8 := by
      obtain ⟨e', he', hidx⟩ := hstores.gapless.exists_mem (i := snap.index) (by omega) (by omega)
      exact hidx ▸ (hstores.storable e' he').2
    have hdata : (decodeMachine a.data).isSome := by
      rw [Applying.data, decodeMachine_encodeMachine hpayload]
      rfl
    have hwrite := InStep.write (w := compactWrite snap) h.inStep
      (Stores.fold_compact hstores.gapless (by omega) (k.db.seq + 1))
      (hstores.compact hfits hdata (by omega) hnext)
    refine ⟨_, h.config, hwrite, h.aligned.watermarks.dropThrough hlo hp hn _ _, ?_, fun _ => rfl,
      fun _ => h.aligned.handed hn⟩
    show k.writtenLast = snap.index + (written.log.drop (snap.index - written.snap.index)).length
    rw [length_drop]
    omega

theorem Sound.drain (h : k.Sound written) (ha : k.allows (.drain a)) (hf : k.fits (.drain a))
    (hk : k.drain a = some k') : ∃ written', k'.Sound written' := by
  unfold Keeper.drain at hk
  split at hk
  · simp at hk
  · next r rd hr =>
    simp only [fits, hr] at hf
    obtain ⟨hready, hsnap⟩ := hf
    split at hk
    · simp at hk
    · next k₁ hs =>
      obtain ⟨written₁, hk₁, hn₁, -⟩ := h.store hr hready ha hs
      split at hk
      · cases hk
        exact ⟨written₁, hk₁⟩
      · next last hlast =>
        obtain ⟨k₂, hack, rfl⟩ := Option.map_eq_some_iff.mp hk
        obtain ⟨hk₂, hn₂⟩ := hk₁.acknowledge hn₁ hack
        exact hk₂.maybeSnapshot hn₂ (hsnap k₁ hs last hlast k₂ hack)

/-! ### Completions and crashes -/

theorem sameDurableState_of_stores {v : Version} {r : Record} (h : Stores id v r) :
    sameDurableState r (readBack id v) := by
  obtain ⟨hhs, hsnap, hlog⟩ := h.read
  exact ⟨hhs.symm, hsnap.symm, by rw [hlog]⟩

theorem Sound.ack (h : k.Sound written) (mark snapMark : ℕ) :
    (k.ack mark snapMark).Sound written := by
  refine ⟨h.config, h.inStep, ?_⟩
  have hmark : Aligned (if mark = 0 then k.raft else k.raft.ackPersisted mark) k.writtenLast
      written := by
    split_ifs
    · exact h.aligned
    · exact h.aligned.exec (show k.raft.exec (.ackPersisted mark) = .ok (_, .done) from rfl) (by simp)
        (by simp)
  unfold Keeper.ack
  dsimp only
  generalize (if mark = 0 then k.raft else k.raft.ackPersisted mark) = r at hmark ⊢
  split_ifs
  · exact hmark
  · exact hmark.exec (show r.exec (.ackSnapshot snapMark) = .ok (_, .done) from rfl) (by simp) (by simp)

theorem Sound.crossChecked (h : k.Sound written) : k.crossChecked := by
  unfold Keeper.crossChecked
  split_ifs with hc
  · obtain ⟨hv, -, -⟩ := hc
    have heq := h.inStep.durable_eq hv
    have hstores : Stores k.rng k.db.visible.version k.dur := by
      have := h.inStep.kept (heq ▸ h.inStep.hosts)
      rwa [← heq] at this
    rw [Keeper.readDurable, if_neg (by simp [hv])]
    simpa using sameDurableState_of_stores hstores
  · rfl

theorem Sound.durable (h : k.Sound written) {seq : ℕ} (hseq : seq ≤ k.db.seq) :
    ∃ k', k.durable seq = some k' ∧ k'.Sound written := by
  have hadv : ∃ db, k.db.advanceDurable seq = some db := by
    unfold DB.advanceDurable
    rw [if_neg (by omega)]
    exact ⟨_, rfl⟩
  obtain ⟨db, hdb⟩ := hadv
  obtain ⟨dur, hfold, hstep⟩ := h.inStep.land hdb
  unfold Keeper.durable Keeper.onDurable
  simp only [hdb, hfold]
  have hlanded : Sound
      { k with
        db := db
        dur := dur
        durRecorded := k.durRecorded || !(k.pending.filter (·.seq ≤ seq)).isEmpty
        pending := k.pending.filter (seq < ·.seq)
        ackedSeq := max k.ackedSeq seq } written := ⟨h.config, hstep, h.aligned⟩
  rw [if_pos hlanded.crossChecked]
  exact ⟨_, rfl, hlanded.ack _ _⟩

/-- The node folds configuration entries the way recovery checks it. -/
theorem derivedConf_eq (cfg : Config) (hs : HardState) (st : Recovered) :
    (derivedConf st).all (· = (Raft.recovered cfg hs st.snap st.entries).conf) := by
  unfold derivedConf
  split_ifs with hv
  · rfl
  · have hfold : (fun conf e => if e.type = .confChange then
          match applyConfEntry conf e.data with
          | .ok next => next
          | .error _ => conf
        else conf) = Raft.applyLogged := by
      funext conf e
      unfold Raft.applyLogged
      by_cases ht : e.type = .confChange
      · refine (if_pos ht).trans (Eq.trans ?_ (if_neg (by simp [ht])).symm)
        cases applyConfEntry conf e.data <;> rfl
      · rw [if_neg ht, if_pos ht]
    rw [hfold, Raft.foldl_applyLogged, Option.all_some, decide_eq_true_eq, Raft.recovered,
      if_neg hv]
    exact (Raft.foldl_confStep_fst st.entries (st.snap.conf, _)).symm

theorem Sound.restart (h : k.Sound written) (hh : Hosts k.rng k.db.durable.version) :
    ∃ st, k.crash.readDurable = some st ∧ st.hs = k.dur.hs ∧ st.snap = k.dur.snap ∧
      st.entries = k.dur.log ∧ Gapless k.dur.snap.index k.dur.log ∧
      Raft.restore k.cfg st.hs st.snap st.entries =
        .ok (Raft.recovered k.cfg st.hs st.snap st.entries) ∧
      ∃ k', k.restart = some k' ∧ k'.Sound k.dur := by
  have hstores := h.inStep.kept hh
  obtain ⟨hhs, hsnap, hlog⟩ := hstores.read
  have hread : k.crash.readDurable = some (readBack k.rng k.db.durable.version) :=
    if_neg (by simp [Keeper.crash, DB.durableSeq, DB.crash])
  have hsame := sameDurableState_of_stores hstores
  have hextent := hstores.extent
  generalize readBack k.rng k.db.durable.version = st at hhs hsnap hlog hread hsame hextent ⊢
  have hgap : Gapless st.snap.index st.entries := by
    rw [hsnap, hlog]
    exact hstores.gapless
  have hrestore : Raft.restore k.cfg st.hs st.snap st.entries =
      .ok (Raft.recovered k.cfg st.hs st.snap st.entries) := by
    have hnone := (firstGap_eq_none (i := 0)).mpr hgap
    simp only [Raft.restore, Raft.new, h.config, hnone]
    rfl
  -- Recorded or not, the record is what was read.
  have hadopt : ∃ recorded, k.crash.adopt st = some { k.crash with durRecorded := recorded } := by
    unfold Keeper.adopt
    split_ifs with hrec hdiff
    · exact ⟨_, rfl⟩
    · exact absurd hsame hdiff
    · refine ⟨true, ?_⟩
      rw [hhs, hsnap, hlog]
      rfl
  obtain ⟨recorded, hadopt⟩ := hadopt
  have hends : k.dur.last = k.dur.snap.index + k.dur.log.length := Record.last_eq hstores.gapless
  refine ⟨st, hread, hhs, hsnap, hlog, hstores.gapless, hrestore, ?_⟩
  unfold Keeper.restart
  rw [if_pos hh, hread, Option.bind_some, Keeper.restartFrom, hadopt]
  dsimp only
  rw [show Raft.restore k.crash.cfg st.hs st.snap st.entries = _ from hrestore]
  dsimp only
  rw [if_pos ⟨derivedConf_eq _ _ _, hextent.symm⟩]
  refine ⟨_, rfl, h.config, h.inStep.crash hh, ?_⟩
  have hwater := Raft.Watermarks.recovered k.cfg st.hs st.snap hgap
  refine ⟨hwater, hends, fun _ => by rw [← hsnap]; rfl, fun _ => ?_⟩
  have hlast := Raft.lastIndex_eq hwater.contiguous
  show (Raft.recovered k.cfg st.hs st.snap st.entries).lastIndex ≤ k.dur.last
  rw [hlast, hends, ← hsnap, ← hlog]
  exact le_rfl

theorem Sound.step (h : k.Sound written) {ev : Event} (ha : k.allows ev) (hf : k.fits ev) :
    ∃ written', (k.step ev).Sound written' := by
  cases ev with
  | call c =>
    unfold Keeper.step
    dsimp only
    split
    · next r _ he =>
      have hc : c ≠ .ready ∧ ∀ i, c ≠ .compact i := by
        refine ⟨?_, fun i => ?_⟩ <;> rintro rfl <;> simp [allows, input] at ha
      exact ⟨written, h.config, h.inStep, h.aligned.exec he hc.1 hc.2⟩
    · exact ⟨written, h⟩
  | other b => exact ⟨written, h.config, h.inStep.apply ha, h.aligned⟩
  | drain a =>
    show ∃ written', ((k.drain a).getD k).Sound written'
    cases hk : k.drain a with
    | none => exact ⟨written, h⟩
    | some k' => exact h.drain ha hf hk
  | durable seq =>
    unfold Keeper.step
    rcases Nat.lt_or_ge k.db.seq seq with hlt | hle
    · have hnone : k.durable seq = none := by
        unfold Keeper.durable DB.advanceDurable
        rw [if_pos hlt]
      exact ⟨written, by simpa [hnone] using h⟩
    · obtain ⟨k', hk', hs⟩ := h.durable hle
      exact ⟨written, by simpa [hk'] using hs⟩
  | restart =>
    unfold Keeper.step
    by_cases hh : Hosts k.rng k.db.durable.version
    · obtain ⟨st, -, -, -, -, -, -, k', hk', hs⟩ := h.restart hh
      exact ⟨k.dur, by simpa [hk'] using hs⟩
    · have hnone : k.restart = none := if_neg hh
      exact ⟨written, by simpa [hnone] using h⟩

/-! ### Births -/

/-- The batch that a split writes for the range it creates. -/
def birthBatch (desc : RangeDescriptor) (snap : SnapshotMeta) (data : Bytes) : Batch :=
  [.set (keyDescOf desc.id) (encodeDesc desc), .set (keySnapshotOf desc.id) (encodeSnapshot snap data)]

/-- A replica starts as the first range over an empty engine, or as the right half of a split, over an
engine that holds nothing of the range yet. Its record is set at once, before the batch is durable. -/
inductive Born : Keeper → Prop
  | first (cfg : Config) (threshold : ℕ) (hc : cfg.refusal = none) :
    Born { rng := firstRange, cfg := cfg, snapshotThreshold := threshold, raft := Raft.fresh cfg }
  | split (cfg : Config) (threshold : ℕ) (db : DB) (desc : RangeDescriptor) (conf : Configuration)
      (mark : Timestamp) (rs : List (Bytes × Bytes)) (hc : cfg.refusal = none)
      (hid : desc.id ≠ firstRange)
      (hfits : SnapshotMeta.Fits { conf := conf } (encodeMachine desc mark rs))
      (hpayload : Fits desc rs) (hordered : (db.durable :: db.pending).Pairwise (·.seq < ·.seq))
      (hseq : ∀ v ∈ db.durable :: db.pending, v.seq ≤ db.seq)
      (hfresh : ∀ v ∈ db.durable :: db.pending, ∀ k, IsRaftKey desc.id k → v.version.get k = none) :
    Born
      { rng := desc.id
        cfg := cfg
        snapshotThreshold := threshold
        db := db.apply (birthBatch desc { conf := conf } (encodeMachine desc mark rs))
        visibleSeq := db.seq + 1
        raft := Raft.recovered cfg {} { conf := conf } []
        dur := { snap := { conf := conf } } }

theorem track_of_kept {r : Record} {vs : List Stamped} (h : ∀ v ∈ vs, Kept id v.version r) :
    Track id r vs [] r := by
  induction vs with
  | nil => exact .nil r
  | cons v vs ih =>
    exact .foreign (h v mem_cons_self) (ih fun v' hv' => h v' (mem_cons_of_mem _ hv'))

theorem Born.sound (h : k.Born) : ∃ written, k.Sound written := by
  cases h with
  | first cfg threshold hc =>
    have hempty : Stores firstRange {} {} :=
      ⟨rfl, rfl, .inl rfl, fun _ _ _ => ⟨fun h => absurd h (by simp [OrderedMap.get]), by simp⟩, by simp,
        .nil _⟩
    refine ⟨{}, hc, ⟨.nil _, fun _ => hempty, .inl rfl, hempty, pairwise_singleton _ _, ?_, rfl⟩,
      ⟨Raft.Watermarks.fresh cfg, rfl, fun _ => rfl, fun _ => le_rfl⟩⟩
    intro v hv
    obtain rfl := mem_singleton.mp hv
    exact le_rfl
  | split cfg threshold db desc conf mark rs hc hid hfits hpayload hordered hseq hfresh =>
    obtain ⟨hne₁, hne₂, hne₃, hnot₁, hnot₂, hnot₃⟩ := raftKeys_ne desc.id
    set data := encodeMachine desc mark rs
    set b := birthBatch desc { conf := conf } data
    have hmem : db.visible ∈ db.durable :: db.pending := by
      unfold DB.visible
      cases hl : db.pending.getLast? with
      | none => exact mem_cons_self
      | some v => exact mem_cons_of_mem _ (mem_of_getLast? hl)
    have hnone := hfresh _ hmem
    have habsent : ∀ v ∈ db.durable :: db.pending, ¬ Hosts desc.id v.version := by
      intro v hv hh
      have hget := hfresh v hv (keyDescOf desc.id) (.inr (.inr (.inl rfl)))
      rw [Hosts, hget] at hh
      exact hh.elim hid (by simp)
    have hstores : Stores desc.id (applyTo db.visible.version b) { snap := { conf := conf } } := by
      have hlog : ∀ k, logPrefixOf desc.id <+: k → (applyTo db.visible.version b).get k = none := by
        intro k hk
        have h₁ : keyDescOf desc.id ≠ k := fun heq => hnot₃ (heq ▸ hk)
        have h₂ : keySnapshotOf desc.id ≠ k := fun heq => hnot₂ (heq ▸ hk)
        simp [b, birthBatch, h₁, h₂, hnone k (.inr (.inr (.inr hk)))]
      have hsnap : (applyTo db.visible.version b).get (keySnapshotOf desc.id) =
          some (encodeSnapshot { conf := conf } data) := by
        simp [b, birthBatch]
      refine Stores.of_snapshot (r := {}) ?_ hsnap hfits ?_ (fun k x hk => ?_) (by simp) (.nil _)
      · simp [readBack, b, birthBatch, hne₁, hne₃.symm, hnone _ (.inl rfl)]
      · simp [data, decodeMachine_encodeMachine hpayload]
      · simp [hlog k hk]
    have hhosts : Hosts desc.id (applyTo db.visible.version b) := by
      refine .inr ?_
      simp [b, birthBatch, hne₂]
    refine ⟨{ snap := { conf := conf } }, hc, ⟨?_, ?_, ?_, ?_, ?_, ?_, rfl⟩,
      ⟨Raft.Watermarks.recovered _ _ _ (by simp), rfl, fun _ => rfl, fun _ => le_rfl⟩⟩
    · refine track_of_kept fun v hv => ?_
      rcases mem_append.mp hv with hv | hv
      · exact fun hh => absurd hh (habsent v (mem_cons_of_mem _ hv))
      · obtain rfl := mem_singleton.mp hv
        exact fun _ => hstores
    · exact fun hh => absurd hh (habsent _ mem_cons_self)
    · rw [DB.visible_apply]
      exact hhosts
    · rw [DB.visible_apply]
      exact hstores
    · exact (InStep.ordered_apply hordered hseq b).1
    · exact (InStep.ordered_apply hordered hseq b).2

/-- **A crash at any moment leaves the record.** In every run whose writes fit their encodings, what
recovery would read after a crash is what the driver has folded, its log is gapless above the snapshot, the
node can be restored from it, and the recovery goes through. -/
theorem recovers_record {evs : List Event} (hb : k.Born) (ha : Follows step allows k evs)
    (hf : Follows step fits k evs) (hk : k' = evs.foldl step k)
    (hh : Hosts k'.rng k'.db.durable.version) :
    ∃ st, k'.crash.readDurable = some st ∧ st.hs = k'.dur.hs ∧ st.snap = k'.dur.snap ∧
      st.entries = k'.dur.log ∧ Gapless st.snap.index st.entries ∧
      Raft.restore k'.cfg st.hs st.snap st.entries =
        .ok (Raft.recovered k'.cfg st.hs st.snap st.entries) ∧
      k'.restart.isSome := by
  have hsound : ∃ written, k'.Sound written := by
    rw [hk]
    refine Follows.invariant (P := fun k => ∃ written, k.Sound written) ?_ hb.sound (ha.and hf)
    rintro k ev ⟨written, hs⟩ ⟨hallows, hfits⟩
    exact hs.step hallows hfits
  obtain ⟨written, hs⟩ := hsound
  obtain ⟨st, hread, hhs, hsnap, hlog, hgap, hrestore, k₁, hk₁, -⟩ := hs.restart hh
  refine ⟨st, hread, hhs, hsnap, hlog, ?_, hrestore, by rw [hk₁]; rfl⟩
  rw [hsnap, hlog]
  exact hgap

/-- A configuration with one voter. -/
def loneCfg : Config := { id := 1, peers := [1], electionTimeout := 2, heartbeatTimeout := 1 }

/-- The first range of a machine that snapshots after every entry. -/
def lone : Keeper :=
  { rng := firstRange, cfg := loneCfg, snapshotThreshold := 1, raft := Raft.fresh loneCfg }

/-- It wins an election, applies its first entry, compacts, and proposes another entry that is still in
flight. -/
def loneRun : List Event :=
  [.call .campaign, .drain {}, .durable 1, .drain {}, .durable 2,
    .call (.propose { node := 1, seq := 1 } [7]), .drain {}]

/-- The hypotheses hold of a run that takes a snapshot. -/
theorem recovers_record_lone :
    ∃ st, (loneRun.foldl step lone).crash.readDurable = some st ∧ st.snap.index = 1 ∧
      st.entries = [] ∧ (loneRun.foldl step lone).pending.length = 1 ∧
      (loneRun.foldl step lone).restart.isSome := by
  have hallows : Follows step allows lone loneRun :=
    ⟨rfl, by simp [allows], trivial, by simp [allows], trivial, rfl, by simp [allows], trivial⟩
  have hfits : Follows step fits lone loneRun := by decide +kernel
  have hborn : lone.Born := .first loneCfg 1 (by decide +kernel)
  obtain ⟨st, hread, -, hsnap, hlog, -, -, hrestart⟩ :=
    recovers_record hborn hallows hfits rfl (.inl rfl)
  refine ⟨st, hread, ?_, ?_, by decide +kernel, hrestart⟩
  · rw [hsnap]
    decide +kernel
  · rw [hlog]
    decide +kernel

/-- Two hundred and fifty-six peers. -/
def widePeers : List NodeID := (range 256).map fun i => UInt64.ofNat (i + 1)

theorem widePeers_sorted : widePeers.Pairwise (· < ·) := by
  refine pairwise_map.mpr (pairwise_lt_range.imp_of_mem fun ha hb hlt => ?_)
  rw [mem_range] at ha hb
  rw [UInt64.lt_iff_toNat_lt, UInt64.toNat_ofNat', UInt64.toNat_ofNat']
  omega

def wideCfg : Config := { id := 1, peers := widePeers, electionTimeout := 2, heartbeatTimeout := 1 }

def wide : Keeper :=
  { rng := firstRange, cfg := wideCfg, snapshotThreshold := 1, raft := Raft.fresh wideCfg }

theorem conf_wideCfg : wideCfg.conf = { voters := widePeers } :=
  conf_of_sorted rfl widePeers_sorted

/-- The same replica with its voters written out. -/
def wide' : Keeper :=
  { rng := firstRange
    cfg := wideCfg
    snapshotThreshold := 1
    raft :=
      { id := 1
        peers := widePeers.map fun p => { id := p }
        conf := { voters := widePeers }
        baseConf := { voters := widePeers }
        promotionLag := defaultPromotionLag
        electionTimeout := 2
        randomizedElectionTimeout := 2
        heartbeatTimeout := 1
        preVote := false } }

theorem wide_eq : wide = wide' := by
  have hmembers : ({ voters := widePeers } : Configuration).members = widePeers := by
    rw [Configuration.members, append_nil]
    exact sortIDs_of_pairwise widePeers_sorted
  unfold wide wide' Raft.fresh
  rw [conf_wideCfg, hmembers]
  rfl

/-- The leader of the first term appends an entry, and then commits it. -/
def appended : Message :=
  { type := .app, fromID := 2, toID := 1, term := 1, entries := [{ term := 1, index := 1 }] }

@[inherit_doc appended]
def committed : Message :=
  { type := .app, fromID := 2, toID := 1, term := 1, prevLogIndex := 1, prevLogTerm := 1, leaderCommit := 1 }

/-- The entry becomes durable, is applied and compacted away, and somebody writes before the snapshot
becomes durable. -/
def wideRun : List Event :=
  [.call (.step appended), .drain {}, .durable 1, .call (.step committed), .drain {}, .other [], .durable 2]

/-- **A snapshot of a range with two hundred and fifty-six voters cannot be read back.** The number of
voters is written in one byte. The record has the snapshot, the engine returns none, and recovery
panics. -/
theorem wide_snapshot_lost :
    wide.Born ∧ Follows step allows wide wideRun ∧
      Hosts (wideRun.foldl step wide).rng (wideRun.foldl step wide).db.durable.version ∧
      (wideRun.foldl step wide).crash.readDurable.map (·.snap.index) = some 0 ∧
      (wideRun.foldl step wide).dur.snap.index = 1 ∧ (wideRun.foldl step wide).restart = none := by
  refine ⟨.first wideCfg 1 ?_, ⟨rfl, by simp [allows], trivial, rfl, by simp [allows],
    fun _ _ _ => rfl, trivial, trivial⟩, .inl ?_, ?_⟩
  · unfold Config.refusal
    rw [conf_wideCfg]
    decide +kernel
  · rw [wide_eq]
    decide +kernel
  · rw [wide_eq, ← Option.isNone_iff_eq_none]
    decide +kernel

end Keeper

end Rift.Driver
