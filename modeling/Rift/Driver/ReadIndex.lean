import Rift.Driver.Determinism
import Rift.Lib.Runs

/-!
# Reads off the log

A replica answers a plain read once a leader has confirmed an index for it and the replica's applied
index has reached that. The applied index, the queue of pending reads and the contents of the state
machine are kept apart: an install and a batch of entries move the first and the last together, but a
restart puts the state machine back to the stored snapshot and leaves the applied index where it was.
-/

namespace Rift.Driver

open Kv Model List

/-! ### The replica -/

/-- A read that waits for its index; zero means that none is confirmed yet. -/
structure PendingRead where
  ctx : Bytes
  histIdx : ℤ := -1
  key : Key
  anyReplica : Bool := false
  viaFollower : Bool := false
  index : ℕ := 0
  /-- Which of all calls of `ReadIndex` was made for this read. The code keeps no such number. -/
  call : ℕ := 0
  deriving DecidableEq

/-- What of raft's Ready the state machine and the reads see. -/
structure Handover where
  snapshot : Option (ℕ × Bytes) := none
  committed : List Entry := []
  readStates : List ReadState := []

/-- What of a replica reads depend on. `delivered` is where the entries that raft hands over go on. -/
structure Reader where
  machine : Machine
  ranges : List RangeID
  applied : ℕ := 0
  delivered : ℕ := 0
  pendingReads : List PendingRead := []

/-- Give the first pending read with the context its index. -/
def confirm (st : ReadState) : List PendingRead → List PendingRead
  | [] => []
  | q :: qs => if q.ctx = st.ctx then { q with index := st.index } :: qs else q :: confirm st qs

def takeReadStates (states : List ReadState) (qs : List PendingRead) : List PendingRead :=
  states.foldl (fun qs st => confirm st qs) qs

/-- A read whose confirmed index the replica has applied. -/
def PendingRead.ready (q : PendingRead) (applied : ℕ) : Bool :=
  !(q.index = 0 || applied < q.index)

namespace Reader

variable (n : Reader)

/-- Install a snapshot. -/
def install : Option (ℕ × Bytes) → Option Reader
  | none => some n
  | some (index, data) => do
    let (desc, mark, rs) ← decodeMachine data
    return { n with
      machine := { n.machine.ingest rs mark with desc := desc }
      applied := if n.applied < index then index else n.applied
      delivered := index }

/-- Apply the committed entries of a Ready. -/
def applyCommitted (conf : Entry → Configuration) (es : List Entry) : Option Reader :=
  match es.getLast? with
  | none => some n
  | some last => do
    let (m, ranges) ← n.machine.applyBatch conf n.ranges es
    return { n with machine := m, ranges := ranges, applied := last.index, delivered := last.index }

/-- The reads that can be served, with their answers. A key that a split has moved away is tried
elsewhere. -/
def answers (qs : List PendingRead) : List (PendingRead × Option Bytes) :=
  (qs.filter (·.ready n.applied)).filterMap fun q =>
    if n.machine.desc.contains q.key then some (q, n.machine.store.readLatest q.key) else none

/-- Handle one Ready. `none` is a panic. -/
def drain (conf : Entry → Configuration) (rd : Handover) :
    Option (Reader × List (PendingRead × Option Bytes)) := do
  let n ← n.install rd.snapshot
  let n ← n.applyCommitted conf rd.committed
  let qs := takeReadStates rd.readStates n.pendingReads
  return ({ n with pendingReads := qs.filter fun q => !q.ready n.applied }, n.answers qs)

/-- The state machine that recovery builds from the stored snapshot. Without one, only the first
range knows its extent. -/
def recover (db : Version) : Option (ℕ × Bytes) → Option Machine
  | some (_, payload) => Machine.adopt db payload
  | none => if n.machine.desc.id = firstRange then some (Machine.born db firstRangeDescriptor [] {})
    else none

/-- Rebuild the replica from the engine. The applied index is only ever raised, and the reads that
wait are kept. -/
def restartFrom (db : Version) (ranges : List RangeID) (snap : Option (ℕ × Bytes)) :
    Option Reader := do
  let m ← n.recover db snap
  let index := (snap.map (·.1)).getD 0
  return { n with
    machine := m, ranges := ranges, applied := if n.applied < index then index else n.applied,
    delivered := index }

end Reader

/-- What happens to a replica: a client read, a write of somebody else to the shared engine, a Ready,
a crash with the restart after it, and a new process over the same engine. -/
inductive ReadEvent
  | read (ctx : Bytes) (key : Key)
  | other (b : Batch)
  | ready (conf : Entry → Configuration) (rd : Handover)
  | restart (db : Version) (ranges : List RangeID) (snap : Option (ℕ × Bytes))
  | reopen (db : Version) (ranges : List RangeID) (snap : Option (ℕ × Bytes))

def Reader.step (n : Reader) : ReadEvent → Reader
  | .read ctx key => { n with pendingReads := n.pendingReads ++ [{ ctx := ctx, key := key }] }
  | .other b => { n with machine := { n.machine with store := n.machine.store.flush b } }
  | .ready conf rd => ((n.drain conf rd).map (·.1)).getD n
  | .restart db ranges snap => (n.restartFrom db ranges snap).getD n
  | .reopen db ranges snap =>
    (({ machine := n.machine, ranges := n.ranges } : Reader).restartFrom db ranges snap).getD n

/-- The reads an event answers. -/
def Reader.answered (n : Reader) : ReadEvent → List (PendingRead × Option Bytes)
  | .ready conf rd => ((n.drain conf rd).map (·.2)).getD []
  | _ => []

/-! ### The log of its range -/

/-- A range's birth and its committed log, whose splits cut some descriptor of the range. -/
structure History where
  desc : RangeDescriptor
  mark : Timestamp
  records : List (Bytes × Bytes)
  log : List Entry
  belongs : Belongs desc records
  indexed : ∀ k e, log[k]? = some e → e.index = k + 1
  cuts : ∀ e ∈ log, ∀ spec, decodeSplitCommand e.data = some spec → spec.Cuts desc.id

namespace History

variable (H : History)

/-- The state after a prefix of the log. -/
def stateAt (k : ℕ) : Range :=
  (Machine.commands (H.log.take k)).foldl Range.apply (Machine.born .empty H.desc H.records H.mark).range

/-- Where the entries of a Ready start. -/
def base (n : Reader) (rd : Handover) : ℕ := (rd.snapshot.map (·.1)).getD n.delivered

/-- A stored snapshot is one of a state along the log; a range without one is born empty. -/
def Stores : Option (ℕ × Bytes) → Prop
  | some (index, payload) =>
    index ≤ H.log.length ∧ decodeMachine payload = some (H.stateAt index).state
  | none => H.desc = firstRangeDescriptor ∧ H.records = [] ∧ H.mark = {}

/-- What raft hands over and recovery reads back: snapshots of states along the log, installed only
ahead of what was delivered, and the entries after them in order. -/
def allows (n : Reader) : ReadEvent → Prop
  | .read .. => True
  | .other b => Machine.Foreign H.desc.id b
  | .ready _ rd =>
    (∀ p ∈ rd.snapshot, n.delivered ≤ p.1 ∧ p.1 ≤ H.log.length ∧
      decodeMachine p.2 = some (H.stateAt p.1).state) ∧
    rd.committed = (H.log.drop (base n rd)).take rd.committed.length
  | .restart _ ranges snap => H.desc.id ∈ ranges ∧ H.Stores snap
  | .reopen _ ranges snap => H.desc.id ∈ ranges ∧ H.Stores snap

end History

/-- A restart of a running process does not go back behind the applied index. -/
def Reader.recoversFar (n : Reader) : ReadEvent → Prop
  | .restart _ _ snap => n.applied ≤ (snap.map (·.1)).getD 0
  | _ => True

namespace History

variable {H : History} {n : Reader} {ranges : List RangeID} {e : ReadEvent} {k : ℕ}

/-- The state machine is where the entries go on, and the applied index is not ahead of it. -/
structure CaughtUp (H : History) (n : Reader) : Prop where
  hosted : n.machine.Hosted H.desc.id n.ranges
  staged : n.machine.staged = []
  agree : n.machine.range.Agree (H.stateAt n.delivered)
  bound : n.delivered ≤ H.log.length
  applied : n.applied ≤ n.delivered

theorem proper_stateAt (H : History) (k : ℕ) :
    (H.stateAt k).store.ns = rangePrefix H.desc.id ∧ (H.stateAt k).desc.id = H.desc.id ∧
      (H.stateAt k).Contained := by
  have hborn := Machine.hosted_born H.belongs (mem_singleton.mpr rfl) {} H.mark
  have hfold : ∀ (es : List Entry) (r : Range), (∀ e ∈ es, e ∈ H.log) →
      r.store.ns = rangePrefix H.desc.id → r.desc.id = H.desc.id → r.Contained →
      ((Machine.commands es).foldl Range.apply r).store.ns = rangePrefix H.desc.id ∧
        ((Machine.commands es).foldl Range.apply r).desc.id = H.desc.id ∧
        ((Machine.commands es).foldl Range.apply r).Contained := by
    intro es
    induction es with
    | nil => exact fun r _ hns hdesc hc => ⟨hns, hdesc, hc⟩
    | cons e es ih =>
      intro r hes hns hdesc hc
      refine ih _ (fun e' he' => hes e' (by simp [he'])) ((ns_apply r _).trans hns) ?_ hc.apply
      exact Machine.desc_apply_id hdesc fun spec h =>
        H.cuts e (hes e (by simp)) spec (commandOf_eq_split.mp h)
  exact hfold _ _ (fun e he => mem_of_mem_take he) rfl rfl hborn.contained

theorem hosted_of_agree {m : Machine} (hns : m.store.ns = rangePrefix H.desc.id)
    (hagree : m.range.Agree (H.stateAt k)) (hmem : H.desc.id ∈ ranges) : m.Hosted H.desc.id ranges where
  ns := hns
  desc := (congrArg RangeDescriptor.id hagree.desc).trans (H.proper_stateAt k).2.1
  mem := hmem
  contained := (H.proper_stateAt k).2.2.of_agree ⟨hagree.desc.symm, hagree.store.symm⟩

/-- Whatever takes a state along the log in place of its records is in that state. -/
theorem replaceRecords_stateAt {s : Store} (hns : s.ns = rangePrefix H.desc.id) :
    Range.Agree ⟨(H.stateAt k).desc,
      replaceRecords s (H.stateAt k).store.records (H.stateAt k).store.gcMark⟩ (H.stateAt k) :=
  ⟨rfl, replaceRecords_agree (hns.trans (H.proper_stateAt k).1.symm)⟩

theorem stateAt_add (H : History) (k l : ℕ) :
    H.stateAt (k + l) =
      (Machine.commands ((H.log.drop k).take l)).foldl Range.apply (H.stateAt k) := by
  rw [stateAt, take_add, Machine.commands_append, foldl_append]
  rfl

theorem CaughtUp.install (h : H.CaughtUp n) {snapshot : Option (ℕ × Bytes)}
    (hok : ∀ p ∈ snapshot, n.delivered ≤ p.1 ∧ p.1 ≤ H.log.length ∧
      decodeMachine p.2 = some (H.stateAt p.1).state) :
    ∃ n', n.install snapshot = some n' ∧ H.CaughtUp n' ∧
      n'.delivered = (snapshot.map (·.1)).getD n.delivered := by
  cases snapshot with
  | none => exact ⟨n, rfl, h, rfl⟩
  | some p =>
    obtain ⟨index, data⟩ := p
    obtain ⟨hge, hbound, hdec⟩ := hok (index, data) rfl
    have hagree : Machine.range { n.machine.ingest (H.stateAt index).store.records
        (H.stateAt index).store.gcMark with desc := (H.stateAt index).desc } |>.Agree
        (H.stateAt index) := by
      rw [Machine.ingest, h.staged]
      exact replaceRecords_stateAt h.hosted.ns
    refine ⟨_, by simp only [Reader.install, hdec]; rfl, ?_, rfl⟩
    exact
      { hosted := hosted_of_agree h.hosted.ns hagree h.hosted.mem
        staged := rfl
        agree := hagree
        bound := hbound
        applied := by
          have := h.applied
          simp only
          split <;> omega }

theorem CaughtUp.applyCommitted (h : H.CaughtUp n) {es : List Entry}
    (hok : es = (H.log.drop n.delivered).take es.length) (conf : Entry → Configuration) :
    ∃ n', n.applyCommitted conf es = some n' ∧ H.CaughtUp n' := by
  rw [Reader.applyCommitted]
  cases hlast : es.getLast? with
  | none => exact ⟨n, rfl, h⟩
  | some last =>
    have hcuts : ∀ e ∈ es, ∀ spec, decodeSplitCommand e.data = some spec → spec.Cuts H.desc.id := by
      intro e he
      rw [hok] at he
      exact H.cuts e (mem_of_mem_drop (mem_of_mem_take he))
    obtain ⟨m, ranges, hbatch, hm, hstaged, hagree⟩ := Machine.range_applyBatch h.hosted hcuts conf
    -- The last entry's index is where the batch ends.
    have hindex : last.index = n.delivered + es.length ∧
        n.delivered + es.length ≤ H.log.length := by
      have hlen := congrArg length hok
      rw [length_take, length_drop] at hlen
      have hpos : 0 < es.length := length_pos_of_mem (mem_of_getLast? hlast)
      have hget : H.log[n.delivered + (es.length - 1)]? = some last := by
        rw [getLast?_eq_getElem?] at hlast
        rw [← getElem?_drop, ← hlast, hok, getElem?_take, ← hok]
        simp [hpos]
      have := H.indexed _ _ hget
      omega
    refine ⟨_, by simp only [hbatch]; rfl, hm, hstaged, ?_, ?_, le_rfl⟩
    · simp only [hindex.1, stateAt_add, ← hok]
      exact hagree.trans (h.agree.foldl _)
    · simp only [hindex.1]
      exact hindex.2

theorem CaughtUp.drain (h : H.CaughtUp n) {conf : Entry → Configuration} {rd : Handover}
    (hok : H.allows n (.ready conf rd)) :
    ∃ n' as, n.drain conf rd = some (n', as) ∧ H.CaughtUp n' ∧
      ∀ a ∈ as, a.1.index ≤ n'.applied ∧ a.2 = n'.machine.store.readLatest a.1.key := by
  obtain ⟨n₁, h₁, hn₁, hdelivered⟩ := h.install hok.1
  have hcommitted : rd.committed = (H.log.drop n₁.delivered).take rd.committed.length := by
    rw [hdelivered]
    exact hok.2
  obtain ⟨n₂, h₂, hn₂⟩ := hn₁.applyCommitted hcommitted conf
  have hdrain : n.drain conf rd = some ({ n₂ with
      pendingReads := (takeReadStates rd.readStates n₂.pendingReads).filter
        (! ·.ready n₂.applied) }, n₂.answers (takeReadStates rd.readStates n₂.pendingReads)) := by
    simp [Reader.drain, h₁, h₂]
  refine ⟨_, _, hdrain,
    ⟨hn₂.hosted, hn₂.staged, hn₂.agree, hn₂.bound, hn₂.applied⟩, fun a ha => ?_⟩
  obtain ⟨q, hq, hanswer⟩ := mem_filterMap.mp ha
  have hready := (mem_filter.mp hq).2
  simp only [PendingRead.ready, Bool.not_eq_true', Bool.or_eq_false_iff, decide_eq_false_iff_not,
    not_lt] at hready
  split at hanswer
  · cases hanswer
    exact ⟨hready.2, rfl⟩
  · simp at hanswer

theorem caughtUp_restartFrom (hid : n.machine.desc.id = H.desc.id) (hmem : H.desc.id ∈ ranges)
    {snap : Option (ℕ × Bytes)} (hsnap : H.Stores snap) (hfar : n.applied ≤ (snap.map (·.1)).getD 0)
    (db : Version) : ∃ n', n.restartFrom db ranges snap = some n' ∧ H.CaughtUp n' := by
  obtain ⟨m, hrecover, hns, hstaged, hagree, hbound⟩ : ∃ m, n.recover db snap = some m ∧
      m.store.ns = rangePrefix H.desc.id ∧ m.staged = [] ∧
      m.range.Agree (H.stateAt ((snap.map (·.1)).getD 0)) ∧
      (snap.map (·.1)).getD 0 ≤ H.log.length := by
    cases snap with
    | none =>
      obtain ⟨hdesc, hrecords, hmark⟩ := hsnap
      refine ⟨Machine.born db firstRangeDescriptor [] {}, ?_, ?_, rfl, ?_, Nat.zero_le _⟩
      · rw [hdesc] at hid
        simp [Reader.recover, hid, firstRangeDescriptor]
      · rw [hdesc]
        rfl
      · rw [← hdesc, ← hrecords, ← hmark]
        exact Machine.range_born_agree db {} _ _ _
    | some p =>
      have hns := congrArg rangePrefix (H.proper_stateAt p.1).2.1
      refine ⟨Machine.born db (H.stateAt p.1).desc (H.stateAt p.1).store.records
        (H.stateAt p.1).store.gcMark, ?_, hns, rfl, replaceRecords_stateAt hns, hsnap.1⟩
      simp [Reader.recover, Machine.adopt, hsnap.2, Range.state]
  refine ⟨_, by simp only [Reader.restartFrom, hrecover]; rfl, hosted_of_agree hns hagree hmem, hstaged, hagree, hbound, ?_⟩
  simp only
  split <;> omega

theorem CaughtUp.step (h : H.CaughtUp n) (hok : H.allows n e) (hfar : n.recoversFar e) :
    H.CaughtUp (n.step e) := by
  cases e with
  | read ctx key => exact ⟨h.hosted, h.staged, h.agree, h.bound, h.applied⟩
  | other b =>
    have hother : Machine.range { n.machine with store := n.machine.store.flush b } |>.Agree
        n.machine.range := by
      refine ⟨rfl, ?_⟩
      simp only [Machine.range, h.staged, Store.flush_nil]
      exact Machine.agree_flush_foreign h.hosted.ns hok
    exact ⟨hosted_of_agree h.hosted.ns (hother.trans h.agree) h.hosted.mem, h.staged,
      hother.trans h.agree, h.bound, h.applied⟩
  | ready conf rd =>
    obtain ⟨n', as, hdrain, hn', -⟩ := h.drain hok
    simpa [Reader.step, hdrain] using hn'
  | restart db ranges snap =>
    obtain ⟨n', hrestart, hn'⟩ := caughtUp_restartFrom h.hosted.desc hok.1 hok.2 hfar db
    simpa [Reader.step, hrestart] using hn'
  | reopen db ranges snap =>
    -- A new process starts with nothing applied, and so never recovers behind it.
    obtain ⟨n', hrestart, hn'⟩ :=
      caughtUp_restartFrom (n := { machine := n.machine, ranges := n.ranges })
        h.hosted.desc hok.1 hok.2 (Nat.zero_le _) db
    simpa [Reader.step, hrestart] using hn'

/-- A replica at its range's birth. -/
def birth (H : History) (db : Version) (ranges : List RangeID) : Reader where
  machine := Machine.born db H.desc H.records H.mark
  ranges := ranges

theorem caughtUp_birth (H : History) (db : Version) (hmem : H.desc.id ∈ ranges) :
    H.CaughtUp (H.birth db ranges) where
  hosted := Machine.hosted_born H.belongs hmem db H.mark
  staged := rfl
  agree := Machine.range_born_agree db {} _ _ _
  bound := Nat.zero_le _
  applied := le_rfl

/-- **Reads are served only from a state machine that has caught up.** In every run of a replica in
which no restart goes back behind the applied index, a read is answered from the state after some
prefix of the log that reaches the index confirmed for it. -/
theorem reads_caught_up (H : History) (db : Version) (hmem : H.desc.id ∈ ranges)
    {es : List ReadEvent} (hallows : Follows Reader.step H.allows (H.birth db ranges) (es ++ [e]))
    (hfar : Follows Reader.step Reader.recoversFar (H.birth db ranges) (es ++ [e])) :
    let n := es.foldl Reader.step (H.birth db ranges)
    ∀ a ∈ n.answered e, ∃ k, a.1.index ≤ k ∧ k ≤ H.log.length ∧
      (n.step e).machine.range.Agree (H.stateAt k) ∧
      a.2 = (n.step e).machine.store.readLatest a.1.key := by
  obtain ⟨hrun, hok, -⟩ := follows_append.mp (hallows.and hfar)
  have h : H.CaughtUp (es.foldl Reader.step (H.birth db ranges)) :=
    hrun.invariant (fun _ _ hn hok => hn.step hok.1 hok.2) (H.caughtUp_birth db hmem)
  dsimp only
  generalize es.foldl Reader.step (H.birth db ranges) = n at h hok
  intro a ha
  cases e with
  | ready conf rd =>
    obtain ⟨n', as, hdrain, hn', has⟩ := h.drain hok.1
    simp only [Reader.answered, hdrain, Option.map_some, Option.getD_some] at ha
    obtain ⟨hle, hanswer⟩ := has a ha
    have hstep : n.step (.ready conf rd) = n' := by simp [Reader.step, hdrain]
    rw [hstep]
    exact ⟨n'.delivered, hle.trans hn'.applied, hn'.bound, hn'.agree, hanswer⟩
  | read ctx key => simp [Reader.answered] at ha
  | other b => simp [Reader.answered] at ha
  | restart db ranges snap => simp [Reader.answered] at ha
  | reopen db ranges snap => simp [Reader.answered] at ha

def putSome : Entry where
  term := 1
  index := 1
  data := encodeCmd { op := opPut, key := someKey, value := someKey, ts := { wall := 1 } }

/-- The first range with one put. -/
def onePut : History where
  desc := firstRangeDescriptor
  mark := {}
  records := []
  log := [putSome]
  belongs := birth_firstRange.belongs
  indexed := by
    intro k e hk
    match k with
    | 0 =>
      cases hk
      rfl
    | k + 1 => simp at hk
  cuts := by
    intro e he spec hspec
    obtain rfl := mem_singleton.mp he
    have hnone : decodeSplitCommand putSome.data = none := by decide +kernel
    simp [hnone] at hspec

/-- The put is applied and a read of its key is asked for. -/
def putThenRead : List ReadEvent :=
  [.ready (fun _ => {}) { committed := onePut.log }, .read [1] someKey]

/-- The read with the put's index. -/
def readAtPut : PendingRead where
  ctx := [1]
  key := someKey
  index := 1

/-- The leader confirms the put's index for the read. -/
def confirmed : ReadEvent := .ready (fun _ => {}) { readStates := [{ ctx := [1], index := 1 }] }

/-- The hypotheses hold of a run that answers a read. -/
theorem reads_caught_up_put :
    (putThenRead.foldl Reader.step (onePut.birth {} [firstRange])).answered confirmed =
      [(readAtPut, some someKey.1)] ∧
    ∃ k, 1 ≤ k ∧ k ≤ onePut.log.length ∧
      ((putThenRead.foldl Reader.step (onePut.birth {} [firstRange])).step
        confirmed).machine.range.Agree (onePut.stateAt k) := by
  have hanswered : (putThenRead.foldl Reader.step (onePut.birth {} [firstRange])).answered
      confirmed = [(readAtPut, some someKey.1)] := by decide +kernel
  have hallows : Follows Reader.step onePut.allows (onePut.birth {} [firstRange])
      (putThenRead ++ [confirmed]) :=
    ⟨⟨by simp, by decide +kernel⟩, trivial, ⟨by simp, by decide +kernel⟩, trivial⟩
  have hfar : Follows Reader.step Reader.recoversFar (onePut.birth {} [firstRange])
      (putThenRead ++ [confirmed]) := ⟨trivial, trivial, trivial, trivial⟩
  have hmem : onePut.desc.id ∈ [firstRange] := mem_singleton.mpr rfl
  obtain ⟨k, hk, hlen, hagree, -⟩ := reads_caught_up onePut {} hmem hallows hfar
    (readAtPut, some someKey.1) (by simp [hanswered])
  exact ⟨hanswered, k, hk, hlen, hagree⟩

/-- The process crashes after the put is applied and before any snapshot is stored. -/
def putThenCrash : List ReadEvent :=
  [.ready (fun _ => {}) { committed := onePut.log }, .restart .empty [firstRange] none,
    .read [1] someKey]

/-- **A restart leaves the applied index ahead of the state machine.** The read is confirmed at the
put's index, which the replica takes itself to have applied, and is answered from the empty state that
recovery has built. -/
theorem read_behind_confirmed_index :
    let n := putThenCrash.foldl Reader.step (onePut.birth {} [firstRange])
    Follows Reader.step onePut.allows (onePut.birth {} [firstRange])
        (putThenCrash ++ [confirmed]) ∧
      n.answered confirmed = [(readAtPut, none)] ∧
      ¬ ∃ k, 1 ≤ k ∧ k ≤ onePut.log.length ∧
        (n.step confirmed).machine.range.Agree (onePut.stateAt k) := by
  refine ⟨⟨⟨by simp, by decide +kernel⟩, ⟨by simp [onePut, firstRangeDescriptor], rfl, rfl, rfl⟩,
    trivial, ⟨by simp, by decide +kernel⟩, trivial⟩, by decide +kernel, ?_⟩
  rintro ⟨k, hk, hlen, hagree⟩
  obtain rfl : k = 1 := Nat.le_antisymm hlen hk
  exact absurd hagree.state (by decide +kernel)

end History

end Rift.Driver
