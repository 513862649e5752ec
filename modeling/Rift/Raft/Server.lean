import Rift.Lib.Journal
import Rift.Raft.Ledger

/-!
# A node and its driver's disk

A driver drains `Ready`, writes what it is handed in one batch per drain, and reports marks
back with `AckPersisted` and `AckSnapshot`. A `Server` is a node together with what its driver
has on disk and in flight: the log stream (hard state and entries) as a journal, the snapshot
installs handed over, and which indices have a durable snapshot behind them.

## Main definitions

* `Disk` — the content of the log stream, with `Disk.write` for one drained batch
* `Server.exec` — one call, with what it does to the driver's side
* `Server.admits` — a driver acknowledges only marks it was handed
* `Server.inRange` — a call does not bring a counter to the end of its 64 bits
* `Server.Starts`, `Server.Step` — where a run starts and what it is made of
-/

namespace Rift

/-- The log stream on disk. -/
structure Disk where
  hs : HardState := {}
  log : List Entry := []
  deriving DecidableEq, Repr

/-- Entries take the place of what a log holds from their first index on. -/
def overwrite (log : List Entry) : List Entry → List Entry
  | [] => log
  | e :: es => log.filter (·.index < e.index) ++ e :: es

theorem mem_overwrite {log es : List Entry} {e : Entry} (h : e ∈ overwrite log es) :
    e ∈ log ∨ e ∈ es := by
  cases es with
  | nil => exact .inl h
  | cons e₀ es =>
    exact (List.mem_append.mp h).imp_left fun h => (List.mem_filter.mp h).1

/-- One batch: the hard state if it changed, and the entries. -/
def Disk.write (d : Disk) (rd : Ready) : Disk where
  hs := rd.hardState.getD d.hs
  log := overwrite d.log rd.entries

/-- A node, its disk, and what is on the way there. -/
structure Server where
  raft : Raft
  disk : Journal Disk := { stable := {} }
  /-- The snapshot installs handed over and not yet acknowledged, by mark and snapshot index. -/
  installs : List (ℕ × ℕ) := []
  /-- The indices inside a snapshot that is durable: given at recovery, acknowledged as an
  install, or compacted from entries that were on disk. -/
  snapped : ℕ → Bool := fun _ => false
  /-- The messages handed out so far, by any incarnation of the node. -/
  sent : List Message := []
  /-- The snapshots a recovery may start from: none, every snapshot handed over to be installed, and
  every compaction point so far. -/
  snaps : List SnapshotMeta := [{}]

namespace Server

variable (s : Server) {p : Server → Call → Bool} {c : Call} {m : ℕ}

/-- The entry at an index of the current log is on the stable disk. -/
def onDisk (i : ℕ) : Bool :=
  match s.raft.entryAt i with
  | some e => e ∈ s.disk.stable.log
  | none => false

/-- The driver's side of a call: `r` is the node after it and `rep` the reply. -/
def record (c : Call) (r : Raft) (rep : Reply) : Server :=
  match c, rep with
  | .ready, .drained rd =>
    { s with
      raft := r
      disk := if rd.mark = 0 then s.disk else s.disk.push rd.mark (s.disk.newest.write rd)
      installs := match rd.snapshot with
        | some snap => s.installs ++ [(rd.snapMark, snap.index)]
        | none => s.installs
      sent := s.sent ++ rd.messages
      snaps := s.snaps ++ (rd.snapshot.map Snapshot.meta).toList }
  | .ackPersisted m, _ =>
    { s with raft := r, disk := if m ≤ s.raft.persisted then s.disk else s.disk.land m }
  | .ackSnapshot m, _ =>
    { s with
      raft := r
      installs := s.installs.filter (m < ·.1)
      snapped := fun i => s.snapped i || s.installs.any fun x => x.1 ≤ m && i ≤ x.2 }
  | .compact _, .compacted term conf =>
    { s with
      raft := r
      snaps := s.snaps ++ [{ index := r.snapIndex, term := term, conf := conf }]
      snapped := fun i =>
        s.snapped i || (s.raft.snapIndex < i && i ≤ r.snapIndex && s.onDisk i) }
  | _, _ => { s with raft := r }

/-- Perform one call. -/
def exec (c : Call) : Outcome (Server × Reply) := do
  let (r, rep) ← s.raft.exec c
  pure (s.record c r rep, rep)

/-- Marks of the log stream are acknowledged in order: a mark that was handed over, or again one
that is already durable. -/
def admitsMark : Call → Bool
  | .ackPersisted m => m ≤ s.raft.persisted || (s.disk.inFlight.map Prod.fst).contains m
  | _ => true

/-- A driver acknowledges only what it was handed, on either stream. -/
def admits : Call → Bool
  | .ackSnapshot m => m ≤ s.raft.persistedSnap || (s.installs.map Prod.fst).contains m
  | c => s.admitsMark c

end Server

/-- The counters of a message leave room for one more step below `2 ^ 64`. -/
def Message.inRange (m : Message) : Bool :=
  [m.term, m.lastLogIndex, m.prevLogIndex + m.entries.length, m.leaderCommit, m.matchIndex, m.hint,
    m.snapIndex].all (· + 1 < 2 ^ 64)

/-- The counters of a node leave room for one more step below `2 ^ 64`. -/
def Raft.inRange (r : Raft) : Bool :=
  [r.term, r.lastIndex, r.appliedIdx, r.nextMark, r.nextSnapMark].all (· + 1 < 2 ^ 64)

/-- What a call delivers has its counters in range. -/
def Call.inRange : Call → Bool
  | .step m => m.inRange
  | _ => true

namespace Server

variable (s : Server) {p : Server → Call → Bool} {c : Call} {m : ℕ}

/-- A call keeps the counters where those of the code, which have 64 bits, agree with them. -/
def inRange (c : Call) : Bool :=
  c.inRange && match s.exec c with
    | .ok (s', _) => s'.raft.inRange
    | .error _ => true

/-- The server a recovered node starts from. -/
def restored (r : Raft) (hs : HardState) (snap : SnapshotMeta) (entries : List Entry) : Server :=
  { raft := r
    disk := { stable := { hs := hs, log := entries } }
    snapped := fun i => i ≤ snap.index }

/-- A fresh node, or one recovered from a hard state, a snapshot and a log. -/
inductive Starts : Server → Prop
  | new {cfg r} (h : Raft.new cfg = .ok r) : Starts { raft := r }
  | restore {cfg hs snap entries r} (h : Raft.restore cfg hs snap entries = .ok r) :
    Starts (restored r hs snap entries)

/-- One call that satisfies `P` and does not panic. -/
def Step (P : Server → Call → Prop) (s s' : Server) : Prop :=
  ∃ c rep, P s c ∧ s.exec c = .ok (s', rep)

theorem steps_mono {P Q : Server → Call → Prop} {s s' : Server} (hPQ : ∀ s c, P s c → Q s c)
    (h : Relation.ReflTransGen (Step P) s s') : Relation.ReflTransGen (Step Q) s s' := by
  refine Relation.ReflTransGen.mono (fun s s' hstep => ?_) _ _ h
  obtain ⟨c, rep, hp, hx⟩ := hstep
  exact ⟨c, rep, hPQ s c hp, hx⟩

/-- A sequence of calls; `none` when one of them panics or fails `p`. -/
def run (p : Server → Call → Bool) (s : Server) : List Call → Option Server
  | [] => some s
  | c :: cs =>
    if p s c then
      match s.exec c with
      | .ok (s', _) => run p s' cs
      | .error _ => none
    else none

theorem run_steps {s s' : Server} {cs : List Call} (h : s.run p cs = some s') :
    Relation.ReflTransGen (Step fun s c => p s c) s s' := by
  induction cs generalizing s with
  | nil =>
    obtain rfl : s = s' := by simpa [run] using h
    exact .refl
  | cons c cs ih =>
    unfold run at h
    split_ifs at h with hp
    split at h
    · rename_i s₁ rep hx
      exact .head ⟨c, rep, hp, hx⟩ (ih h)
    · cases h

theorem exists_run {s : Server} (cs : List Call) (q : Server → Bool)
    (h : (s.run p cs).any q = true) :
    ∃ s', Relation.ReflTransGen (Step fun s c => p s c) s s' ∧ q s' = true := by
  obtain ⟨s', hs, hq⟩ := Option.any_eq_true _ _ |>.mp h
  exact ⟨s', run_steps hs, hq⟩

theorem exists_exec {s : Server} (c : Call) (q : Server → Bool)
    (h : (s.run (fun _ _ => true) [c]).any q = true) :
    ∃ s' rep, s.exec c = .ok (s', rep) ∧ q s' = true := by
  obtain ⟨s', hs, hq⟩ := Option.any_eq_true _ _ |>.mp h
  simp only [run, if_true] at hs
  split at hs
  · rename_i s₁ rep hx
    exact ⟨s₁, rep, hx, Option.some.inj hs ▸ hq⟩
  · cases hs

/-- What a drain would return now. -/
def drain? : Option (Server × Ready) :=
  match s.exec .ready with
  | .ok (s', .drained rd) => some (s', rd)
  | _ => none

theorem exec_ready_of_drain? {s s' : Server} {rd : Ready} (h : s.drain? = some (s', rd)) :
    s.exec .ready = .ok (s', .drained rd) := by
  unfold drain? at h
  split at h
  · rename_i s₁ rd₁ hx
    cases h
    exact hx
  · cases h

theorem exec_raft {s s' : Server} {rep : Reply} (h : s.exec c = .ok (s', rep)) :
    ∃ r, s.raft.exec c = .ok (r, rep) ∧ s' = s.record c r rep := by
  obtain ⟨⟨r, rep'⟩, hx, h⟩ := bind_eq_ok.mp h
  cases h
  exact ⟨r, hx, rfl⟩

theorem record_raft (s : Server) (c : Call) (r : Raft) (rep : Reply) :
    (s.record c r rep).raft = r := by
  unfold record
  split <;> rfl

/-- A call that neither drains the node nor moves its marks leaves the driver's side alone. -/
theorem record_plain (s : Server) (hp : c.plain) (r : Raft) (rep : Reply) :
    s.record c r rep = { s with raft := r } := by
  cases c <;> first | rfl | exact absurd hp (by simp [Call.plain])

theorem record_staleAck (s : Server) (h : m ≤ s.raft.persisted) (r : Raft) (rep : Reply) :
    s.record (.ackPersisted m) r rep = { s with raft := r } := by
  simp [record, h]

theorem record_ack (s : Server) (h : s.raft.persisted < m) (r : Raft) (rep : Reply) :
    s.record (.ackPersisted m) r rep = { s with raft := r, disk := s.disk.land m } := by
  simp [record, h]

theorem sent_subset_record (s : Server) (c : Call) (r : Raft) (rep : Reply) :
    s.sent ⊆ (s.record c r rep).sent := by
  unfold record
  split
  · exact List.subset_append_left _ _
  all_goals exact List.Subset.refl _

end Server

end Rift
