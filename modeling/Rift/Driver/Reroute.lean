import Rift.Driver.Requests
import Rift.Driver.Split
import Rift.Driver.Wire
import Rift.Kv.Uncertainty

/-!
# Commands that arrive after their key has moved

A leader takes a request against the extent it has applied. By the time the entry is applied, a split
may have given the key away: the command is then not applied, and the waiting client's request is
made anew from the entry and from what the replica remembers, and scheduled on the same machine.

For puts and reads this is the request that was made. A transaction step is remembered by none of
its fields, and the request that is scheduled names an operation that no replica knows.

## Main definitions

* `RangeReplica` — a replica with its state machine and its clients, `applyCommitted` for an entry
* `onMachine` — how a machine routes a request among its replicas
* `Request.Completed` — whoever waits for a request has been told

## Main results

* `Service.onClient_replica` — the replicas of a `Service` take requests as a `RangeReplica` does
* `rerouted_same_command` — a rerouted command is the same unless it is a transaction step
-/

namespace Rift.Driver

open Kv Model List

/-! ### The replica -/

/-- A replica of a range. `readIndex` says that plain reads are kept out of the log, `coordinated`
that somebody wants to hear of transaction steps, and `maxOffset` bounds the clocks' offsets. -/
structure RangeReplica where
  raft : Raft
  machine : Machine
  readIndex : Bool := false
  coordinated : Bool := true
  maxOffset : Int64 := 0
  propSeq : UInt64 := 0
  readSeq : UInt64 := 0
  inflight : List WaitingOp := []
  pendingReads : List PendingRead := []

/-- What is told to whom: a client hears of its operation by its place in the history, with the value
read or that it was refused; a coordinator hears of the step it asked for. -/
inductive Notice
  | ended (histIdx : ℤ) (value : Option Bytes)
  | stepped (c : TxnCommand) (res : TxnResult)
  | readStep (c : TxnCommand) (ceiling : Timestamp) (res : Except KvError (Option Bytes))

/-- A request with the range and the epoch its client believes in; zero is no belief. -/
structure Routed where
  req : Request
  range : RangeID := 0
  epoch : UInt64 := 0
  deriving DecidableEq

/-- `"txn"`, which names no operation of the state machine. -/
def opTxn : Str := ⟨[116, 120, 110], by decide⟩

namespace RangeReplica

variable (n : RangeReplica)

/-- Propose under the next identifier, and remember who waits for it. -/
def submit (data : Bytes) (req : Request) : Outcome RangeReplica := do
  let seq := n.propSeq + 1
  let id : ProposalID := { node := n.raft.id, seq := seq.toNat }
  match ← n.raft.propose id data with
  | .ok r => return { n with raft := r, propSeq := seq, inflight := n.inflight ++ [req.waiting id] }
  | .error _ => return { n with propSeq := seq }

/-- Ask raft for an index under the next context. -/
def askIndex (req : Request) : Outcome RangeReplica := do
  let seq := n.readSeq + 1
  let ctx := encodeReadCtx n.raft.id seq
  match ← n.raft.readIndex ctx with
  | .ok r =>
    let q : PendingRead :=
      { ctx := ctx, histIdx := req.histIdx, key := req.key, anyReplica := req.anyReplica
        viaFollower := r.role ≠ .leader }
    return { n with raft := r, readSeq := seq, pendingReads := n.pendingReads ++ [q] }
  | .error _ => return { n with readSeq := seq }

/-- Take a request. -/
def onClient (req : Request) (now : Timestamp) : Outcome RangeReplica :=
  match req.intake (n.raft.role = .leader) n.readIndex now with
  | .drop => pure n
  | .propose data => n.submit data req
  | .ask => n.askIndex req

/-! ### Answers -/

/-- What the operation of an applied entry ends with. -/
def outcome (op : Str) (key : Key) (readTS : Timestamp) : Option Bytes :=
  if op = opGet then
    match n.machine.store.readAt key readTS with
    | .ok v => some (v.getD [])
    | .error _ => none
  else some []

/-- A client without a place in the history is not told. -/
def ending (op : Str) (key : Key) (readTS : Timestamp) (c : WaitingOp) : Option Notice :=
  if 0 ≤ c.histIdx then some (.ended c.histIdx (n.outcome op key readTS)) else none

/-- End the operations that wait for an entry. -/
def answerAt (e : Entry) (op : Str) (key : Key) (readTS : Timestamp) :
    RangeReplica × List Notice :=
  if e.id.zero then (n, [])
  else
    ({ n with inflight := n.inflight.filter (·.id ≠ e.id) },
      (n.inflight.filter (·.id = e.id)).filterMap (n.ending op key readTS))

/-- What a coordinator is told of a step that was applied; a read is evaluated here. -/
def stepNotice (c : TxnCommand) (res : TxnResult) : Notice :=
  if c.op = .txnGet then
    let ceiling := if c.maxTS.isSet then c.maxTS else uncertaintyCeiling c.readTS n.maxOffset
    .readStep c ceiling (n.machine.store.getTxn c.key c.readTS ceiling)
  else .stepped c res

/-- Tell the coordinator that its step landed, if it was proposed here. -/
def answerTxn (e : Entry) (c : TxnCommand) (res : TxnResult) : RangeReplica × List Notice :=
  if e.id.zero ∨ ¬ n.coordinated then (n, [])
  else
    ({ n with inflight := n.inflight.filter (·.id ≠ e.id) },
      if n.inflight.any (·.id = e.id) then [n.stepNotice c res] else [])

/-- Send the clients that wait for an entry back to whichever range owns the key now. -/
def rerouteAt (e : Entry) (op : Str) (key : Key) (value : Str) : RangeReplica × List Routed :=
  if e.id.zero then (n, [])
  else
    ({ n with inflight := n.inflight.filter (·.id ≠ e.id) },
      (n.inflight.filter (·.id = e.id)).map fun c =>
        { req := { op := op, key := key, value := value, histIdx := c.histIdx
                   readTS := c.readTS } })

/-- How an applied entry is answered. -/
inductive Verdict
  | answer (op : Str) (key : Key) (ts : Timestamp)
  | step (c : TxnCommand) (res : TxnResult)
  | reroute (op : Str) (key : Key) (value : Str)
  deriving DecidableEq

/-- The verdict on an entry, from the state it is applied to. A write that the store refuses is
rerouted like one whose key has moved. -/
def verdict (m : Machine) (e : Entry) : Verdict :=
  if isTxnCommand e.data then
    match decodeTxnCommand e.data with
    | none => .answer .empty .empty {}
    | some c =>
      if m.desc.contains c.key then .step c (applyTxn m.flush.store [] c).2
      else .reroute opTxn c.key .empty
  else if isSplitCommand e.data ∨ e.data = [] then .answer .empty .empty {}
  else
    let c := decodeCmd e.data
    if c.op = opGC then .answer .empty .empty c.ts
    else if m.desc.contains c.key ∧
        ¬ (c.op = opPut ∧ (m.store.putInto m.staged c.key c.ts c.value.1).toOption = none) then
      .answer c.op c.key c.ts
    else .reroute c.op c.key c.value

/-- Answer or reroute what waits for an entry that has been applied. -/
def settle (e : Entry) : Verdict → RangeReplica × List Notice × List Routed
  | .answer op key ts => ((n.answerAt e op key ts).1, (n.answerAt e op key ts).2, [])
  | .step c res =>
    let told := n.answerTxn e c res
    ((told.1.answerAt e opTxn c.key {}).1, told.2 ++ (told.1.answerAt e opTxn c.key {}).2, [])
  | .reroute op key value => ((n.rerouteAt e op key value).1, [], (n.rerouteAt e op key value).2)

/-- Apply one committed entry; `none` is the panic of a split. -/
def applyCommitted (conf : Configuration) (ranges : List RangeID) (e : Entry) :
    Option (RangeReplica × List RangeID × List Notice × List Routed) := do
  let (m, ranges) ← n.machine.applyEntry conf ranges e
  let (n', notices, retries) := { n with machine := m }.settle e (verdict n.machine e)
  return (n', ranges, notices, retries)

end RangeReplica

/-- Route a request on a machine to the replica that owns its key. One routed under a stale
descriptor is refused and scheduled again with the right one. -/
def onMachine (replicas : List RangeReplica) (x : Routed) (now : Timestamp) :
    Outcome (List RangeReplica × List Routed) :=
  match replicas.findIdx? (·.machine.desc.contains x.req.key) with
  | none => pure (replicas, [])
  | some i =>
    match replicas[i]? with
    | none => pure (replicas, [])
    | some r =>
      if x.epoch ≠ 0 ∧ (x.range ≠ r.machine.desc.id ∨ x.epoch < r.machine.desc.epoch) then
        pure (replicas,
          [{ x with range := r.machine.desc.id, epoch := r.machine.desc.epoch }])
      else do
        let r ← r.onClient x.req now
        return (replicas.set i r, [])

/-! ### The replicas of a service -/

namespace Service

/-- A replica of a service over its state machine, without the numbers that only the account has. -/
def replica (σ : Service) (readIndex : NodeID → Bool) (m : Machine) (n : NodeID) : RangeReplica where
  raft := (σ.cluster n).raft
  machine := m
  readIndex := readIndex n
  propSeq := (σ.desk n).propSeq
  readSeq := (σ.desk n).readSeq
  inflight := (σ.desk n).inflight.map fun op => op.req.waiting op.id
  pendingReads := (σ.desk n).pendingReads.map fun q => { q with call := 0 }

variable {S : Roster} {readIndex : NodeID → Bool} {σ σ' : Service} {n : NodeID} {req : Request}

theorem submit_replica (hid : (σ.cluster n).raft.id = n) {data : Bytes}
    (h : σ.submit S n .normal data (.propose · data) (some req) = some σ') (m : Machine) :
    (σ.replica readIndex m n).submit data req = .ok (σ'.replica readIndex m n) := by
  obtain ⟨⟨σ₁, rep⟩, hcall, h⟩ := Option.bind_eq_some_iff.mp h
  obtain ⟨s, -, hx, rfl⟩ := call_eq_some hcall
  obtain ⟨r, hr, rfl⟩ := Server.exec_raft hx
  obtain ⟨res, hres, hr⟩ := bind_eq_ok.mp hr
  have hpropose : (σ.replica readIndex m n).raft.propose
      { node := (σ.replica readIndex m n).raft.id
        seq := ((σ.replica readIndex m n).propSeq + 1).toNat } data = .ok res := by
    rw [← hres]
    simp only [replica, hid]
    rfl
  cases res with
  | error err =>
    cases hr
    cases h
    simp only [RangeReplica.submit, hpropose]
    simp [replica, setDesk, Server.record_raft, Desk.nextProp, bind, Except.bind, pure, Except.pure]
  | ok r₁ =>
    cases hr
    cases h
    simp only [RangeReplica.submit, hpropose]
    simp [replica, setDesk, Server.record_raft, Desk.nextProp, Desk.addOp, hid, bind, Except.bind,
      pure, Except.pure]

theorem askIndex_replica (hid : (σ.cluster n).raft.id = n) (h : σ.ask S n req = some σ')
    (m : Machine) :
    (σ.replica readIndex m n).askIndex req = .ok (σ'.replica readIndex m n) := by
  obtain ⟨⟨σ₁, rep⟩, hcall, h⟩ := Option.bind_eq_some_iff.mp h
  obtain ⟨s, -, hx, rfl⟩ := call_eq_some hcall
  obtain ⟨r, hr, rfl⟩ := Server.exec_raft hx
  obtain ⟨res, hres, hr⟩ := bind_eq_ok.mp hr
  have hask : (σ.replica readIndex m n).raft.readIndex (encodeReadCtx
      (σ.replica readIndex m n).raft.id ((σ.replica readIndex m n).readSeq + 1)) = .ok res := by
    rw [← hres]
    simp only [replica, hid]
    rfl
  cases res with
  | error err =>
    cases hr
    cases h
    simp only [RangeReplica.askIndex, hask]
    simp [replica, setDesk, Server.record_raft, Desk.nextRead, bind, Except.bind, pure, Except.pure]
  | ok r₁ =>
    cases hr
    cases h
    simp only [RangeReplica.askIndex, hask]
    simp [replica, setDesk, Server.record_raft, Desk.nextRead, Desk.addRead, hid, bind, Except.bind,
      pure, Except.pure]

/-- The replicas of a service take requests as the replica of a range does. -/
theorem onClient_replica (hid : (σ.cluster n).raft.id = n) {now : Timestamp}
    (h : σ.onClient S readIndex n req now = some σ') (m : Machine) :
    (σ.replica readIndex m n).onClient req now = .ok (σ'.replica readIndex m n) := by
  have hsame : req.intake ((σ.replica readIndex m n).raft.role = .leader)
      (σ.replica readIndex m n).readIndex now =
        req.intake ((σ.cluster n).raft.role = .leader) (readIndex n) now := rfl
  unfold onClient at h
  unfold RangeReplica.onClient
  rw [hsame]
  cases hin : req.intake ((σ.cluster n).raft.role = .leader) (readIndex n) now with
  | drop =>
    rw [hin] at h
    cases h
    rfl
  | propose data =>
    rw [hin] at h
    exact submit_replica hid h m
  | ask =>
    rw [hin] at h
    exact askIndex_replica hid h m

end Service

/-! ### What a request becomes -/

/-- A replica proposes the entry `e` for a request, and `w` waits for it. -/
structure Proposes (n : RangeReplica) (req : Request) (now : Timestamp) (n' : RangeReplica)
    (w : WaitingOp) (e : Entry) : Prop where
  call : n.onClient req now = .ok n'
  waits : n'.inflight = n.inflight ++ [w]
  entry : n'.raft.log = n.raft.log ++ [e]

theorem Request.intake_of_not_plainRead {req : Request} {leads readIndex : Bool} {now : Timestamp}
    (h : req.plainRead readIndex = false) :
    req.intake leads readIndex now = bif leads then .propose (req.data now) else .drop := by
  cases leads <;> simp [Request.intake, h]

theorem Request.data_of_intake {req : Request} {leads readIndex : Bool} {now : Timestamp}
    {data : Bytes} (h : req.intake leads readIndex now = .propose data) :
    req.plainRead readIndex = false ∧ data = req.data now := by
  unfold Request.intake at h
  split_ifs at h with hdrop hplain
  exact ⟨by simpa using hplain, (Intake.propose.inj h).symm⟩

namespace RangeReplica

variable {n n' : RangeReplica} {req : Request} {now : Timestamp} {w : WaitingOp} {e : Entry}
  {m : Machine} {c : Cmd} {data : Bytes}

theorem submit_ok (h : n.submit data req = .ok n') : n'.machine = n.machine ∧
    (n'.inflight = n.inflight ∨ ∃ id e, id.zero = false ∧ e.id = id ∧ e.data = data ∧
      n'.inflight = n.inflight ++ [req.waiting id] ∧ n'.raft.log = n.raft.log ++ [e]) := by
  obtain ⟨res, hres, h⟩ := bind_eq_ok.mp h
  rcases Raft.propose_cases hres with ⟨err, rfl⟩ | ⟨hz, hr, r, happ, rfl⟩
  · cases h
    exact ⟨rfl, .inl rfl⟩
  · cases h
    exact ⟨rfl, .inr ⟨_, _, hz, rfl, rfl, rfl, Raft.appendAndBroadcast_log hr happ⟩⟩

theorem askIndex_ok (h : n.askIndex req = .ok n') :
    n'.machine = n.machine ∧ n'.inflight = n.inflight := by
  obtain ⟨res, -, h⟩ := bind_eq_ok.mp h
  cases res <;> (obtain rfl := Raft.pure_eq_ok.mp h; exact ⟨rfl, rfl⟩)

theorem onClient_machine (h : n.onClient req now = .ok n') : n'.machine = n.machine := by
  unfold onClient at h
  split at h
  · rw [← Raft.pure_eq_ok.mp h]
  · exact (submit_ok h).1
  · exact (askIndex_ok h).1

/-- A command with a short operation other than a collection is answered where its key is owned and
the store takes it. -/
theorem verdict_cmd (he : e.data = encodeCmd c) (hop : c.op.1.length < 2 ^ 24) (hgc : c.op ≠ opGC) :
    verdict m e = if m.desc.contains c.key ∧
        ¬ (c.op = opPut ∧ (m.store.putInto m.staged c.key c.ts c.value.1).toOption = none) then
      .answer c.op c.key c.ts else .reroute c.op c.key c.value := by
  obtain ⟨hsplit, htxn⟩ := kinds_of_cmd hop
  have hne : encodeCmd c ≠ [] := by simp [encodeCmd, putBytes, putBE]
  simp [verdict, he, hsplit, htxn, hne, hgc]

/-- A command with a short operation never panics, and a key outside the extent changes nothing. -/
theorem applyEntry_cmd (he : e.data = encodeCmd c) (hop : c.op.1.length < 2 ^ 24)
    (hgc : c.op ≠ opGC) (conf : Configuration) (ranges : List RangeID) :
    ∃ m', m.applyEntry conf ranges e = some (m', ranges) ∧
      (m.desc.contains c.key = false → m' = m) := by
  obtain ⟨hsplit, htxn⟩ := kinds_of_cmd hop
  have hne : encodeCmd c ≠ [] := by simp [encodeCmd, putBytes, putBE]
  simp only [Machine.applyEntry, he, hsplit, htxn, hne, decodeCmd_encodeCmd, hgc, if_false,
    Bool.false_eq_true]
  split_ifs with hin hput hget
  · exact ⟨_, rfl, fun h => absurd hin (by simp [h])⟩
  · exact ⟨_, rfl, fun h => absurd hin (by simp [h])⟩
  · exact ⟨_, rfl, fun _ => rfl⟩
  · exact ⟨_, rfl, fun _ => rfl⟩

end RangeReplica

variable {req : Request} {now : Timestamp} {w : WaitingOp} {e : Entry} {c : Cmd}

/-- What is proposed for a request, and what is remembered of it. -/
theorem Proposes.made {n n' : RangeReplica} (h : Proposes n req now n' w e) :
    req.plainRead n.readIndex = false ∧ e.id = w.id ∧ e.id.zero = false ∧ e.data = req.data now ∧
      w = req.waiting w.id := by
  have hwaits : n'.inflight ≠ n.inflight := by simp [h.waits]
  have hcall := h.call
  unfold RangeReplica.onClient at hcall
  split at hcall
  · exact absurd (congrArg RangeReplica.inflight (Raft.pure_eq_ok.mp hcall)).symm hwaits
  · next data hintake =>
    obtain ⟨hplain, hdata⟩ := Request.data_of_intake hintake
    rcases (RangeReplica.submit_ok hcall).2 with hsame | ⟨id, e', hz, hid, hdata', hops, hlog⟩
    · exact absurd hsame hwaits
    · obtain rfl : w = _ := singleton_inj.mp (append_cancel_left (h.waits.symm.trans hops))
      obtain rfl : e = e' := singleton_inj.mp (append_cancel_left (h.entry.symm.trans hlog))
      exact ⟨hplain, hid, hid ▸ hz, hdata'.trans hdata, rfl⟩
  · exact absurd (RangeReplica.askIndex_ok hcall).2 hwaits

namespace RangeReplica

variable {n : RangeReplica} {req : Request} {now : Timestamp} {w : WaitingOp} {e : Entry} {c : Cmd}

theorem onClient_anyReplica (hplain : req.plainRead n.readIndex = false) :
    n.onClient { req with anyReplica := false } now = n.onClient req now := by
  have hplain' : { req with anyReplica := false }.plainRead n.readIndex = false := hplain
  unfold onClient
  rw [Request.intake_of_not_plainRead hplain, Request.intake_of_not_plainRead hplain']
  cases decide (n.raft.role = .leader) <;> rfl

section

variable (he : e.data = encodeCmd c) (hop : c.op.1.length < 2 ^ 24) (hgc : c.op ≠ opGC)
  (hz : e.id.zero = false)
include he hop hgc hz

theorem applyCommitted_moved (hmoved : n.machine.desc.contains c.key = false)
    (conf : Configuration) (ranges : List RangeID) :
    ∃ n', n'.machine = n.machine ∧ n.applyCommitted conf ranges e =
      some (n', ranges, [], (n.inflight.filter (·.id = e.id)).map fun w =>
        { req := { op := c.op, key := c.key, value := c.value, histIdx := w.histIdx
                   readTS := w.readTS } }) := by
  obtain ⟨m', happly, hsame⟩ := applyEntry_cmd (m := n.machine) he hop hgc conf ranges
  obtain rfl := hsame hmoved
  have hverdict : verdict n.machine e = .reroute c.op c.key c.value := by
    rw [verdict_cmd he hop hgc, if_neg (by simp [hmoved])]
  refine ⟨{ n with inflight := n.inflight.filter (·.id ≠ e.id) }, rfl, ?_⟩
  simp [applyCommitted, happly, hverdict, settle, rerouteAt, hz]

/-- An entry whose key is owned ends the operations that wait for it, or, if the store refuses it,
sends them back once more. -/
theorem applyCommitted_owned (hin : n.machine.desc.contains c.key) (conf : Configuration)
    (ranges : List RangeID) :
    ∃ n' notices retries, n.applyCommitted conf ranges e = some (n', ranges, notices, retries) ∧
      (∀ x ∈ notices, ∃ i value, x = .ended i value) ∧ (c.op ≠ opPut → retries = []) ∧
      ∀ w ∈ n.inflight, w.id = e.id →
        (0 ≤ w.histIdx → .ended w.histIdx (n'.outcome c.op c.key c.ts) ∈ notices) ∨
        { req := { op := c.op, key := c.key, value := c.value, histIdx := w.histIdx
                   readTS := w.readTS } } ∈ retries := by
  obtain ⟨m', happly, -⟩ := applyEntry_cmd (m := n.machine) he hop hgc conf ranges
  have hverdict := verdict_cmd (m := n.machine) he hop hgc
  have hmem : ∀ {w}, w ∈ n.inflight → w.id = e.id → w ∈ n.inflight.filter (·.id = e.id) :=
    fun hw hid => mem_filter.mpr ⟨hw, by simpa using hid⟩
  split_ifs at hverdict with htaken
  · have hcall : n.applyCommitted conf ranges e =
        some ({ n with machine := m', inflight := n.inflight.filter (·.id ≠ e.id) }, ranges,
          (n.inflight.filter (·.id = e.id)).filterMap
            ({ n with machine := m' }.ending c.op c.key c.ts), []) := by
      simp [applyCommitted, happly, hverdict, settle, answerAt, hz]
    refine ⟨_, _, _, hcall, fun x hx => ?_, fun _ => rfl, fun w hw hid => .inl fun hpos => ?_⟩
    · obtain ⟨w, -, hw⟩ := mem_filterMap.mp hx
      unfold ending at hw
      split_ifs at hw
      exact ⟨_, _, (Option.some.inj hw).symm⟩
    · exact mem_filterMap.mpr ⟨w, hmem hw hid, if_pos hpos⟩
  · have hcall : n.applyCommitted conf ranges e =
        some ({ n with machine := m', inflight := n.inflight.filter (·.id ≠ e.id) }, ranges, [],
          (n.inflight.filter (·.id = e.id)).map fun w =>
            { req := { op := c.op, key := c.key, value := c.value, histIdx := w.histIdx
                       readTS := w.readTS } }) := by
      simp [applyCommitted, happly, hverdict, settle, rerouteAt, hz]
    refine ⟨_, _, _, hcall, by simp, fun hput => ?_, fun w hw hid => .inr ?_⟩
    · exact absurd ⟨hin, fun h => hput h.1⟩ htaken
    · exact mem_map.mpr ⟨w, hmem hw hid, rfl⟩

end

/-- A transaction step whose key has moved away schedules operations with the key alone. -/
theorem applyCommitted_step_moved {c : TxnCommand} (he : e.data = encodeTxnCommand c)
    (hz : e.id.zero = false) (hmoved : n.machine.desc.contains c.key = false)
    (conf : Configuration) (ranges : List RangeID) :
    ∃ n', n'.machine = n.machine ∧ n.applyCommitted conf ranges e =
      some (n', ranges, [], (n.inflight.filter (·.id = e.id)).map fun w =>
        { req := { op := opTxn, key := c.key, histIdx := w.histIdx, readTS := w.readTS } }) := by
  have htxn : isTxnCommand (encodeTxnCommand c) = true := rfl
  have happly : n.machine.applyEntry conf ranges e = some (n.machine, ranges) := by
    simp [Machine.applyEntry, he, htxn, hmoved]
  have hverdict : verdict n.machine e = .reroute opTxn c.key .empty := by
    simp [verdict, he, htxn, hmoved]
  refine ⟨{ n with inflight := n.inflight.filter (·.id ≠ e.id) }, rfl, ?_⟩
  simp [applyCommitted, happly, hverdict, settle, rerouteAt, hz]

end RangeReplica

/-- A request that names no range goes to the replica that owns its key. -/
theorem onMachine_owner {machine : List RangeReplica} {i : ℕ} {B : RangeReplica}
    (hidx : machine.findIdx? (·.machine.desc.contains req.key) = some i) (hB : machine[i]? = some B)
    (now : Timestamp) : onMachine machine { req := req } now = (do
      let B' ← B.onClient req now
      return (machine.set i B', [])) := by
  simp [onMachine, hidx, hB]

theorem commandOf_put (hop : c.op = opPut) :
    commandOf (encodeCmd c) = .put c.key c.ts c.value.1 := by
  obtain ⟨hsplit, htxn⟩ := kinds_of_cmd (c := c) (by rw [hop]; decide)
  have hne : encodeCmd c ≠ [] := by simp [encodeCmd, putBytes, putBE]
  have hgc : opPut ≠ opGC := by decide
  simp [commandOf, hsplit, htxn, hne, hop, hgc]

theorem commandOf_other (hop : c.op.1.length < 2 ^ 24) (hgc : c.op ≠ opGC) (hput : c.op ≠ opPut) :
    commandOf (encodeCmd c) = .none := by
  obtain ⟨hsplit, htxn⟩ := kinds_of_cmd hop
  have hne : encodeCmd c ≠ [] := by simp [encodeCmd, putBytes, putBE]
  simp [commandOf, hsplit, htxn, hne, hgc, hput]

/-- A command with the timestamp that another replica gives it: a put is stamped anew. -/
def Command.restamp (ts : Timestamp) : Command → Command
  | .put key _ x => .put key ts x
  | c => c

/-- The key a request is about. -/
def Request.target (req : Request) : Key := (req.txn.map (·.key)).getD req.key

/-- A notice goes to whoever waits for a request: to the client at its place in the history, and of a
transaction step to the coordinator. -/
def Notice.Tells (req : Request) : Notice → Prop
  | .ended histIdx _ => req.txn = none ∧ histIdx = req.histIdx
  | .stepped c _ => req.txn = some c
  | .readStep c _ _ => req.txn = some c

/-- Whoever waits for a request has been told. Nobody waits for one without a place in the history
that is no transaction step. -/
def Request.Completed (req : Request) (notices : List Notice) : Prop :=
  (req.txn = none ∧ req.histIdx < 0) ∨ ∃ x ∈ notices, x.Tells req

/-- A request whose entry is applied after its key has moved, while somebody waits for it, is scheduled
again. The machine hands what is scheduled to the replica that owns the key, and of a put or a read that
replica makes what it would have made of the original. Once the entry it proposes is applied where the
key is owned: the entry has the effect of the original, but for a new timestamp of a put, and whoever
waits is told, or a refused put goes round once more, exactly when the request is no transaction step.
A read at a timestamp keeps it. -/
theorem rerouted_same_command {A A' A₂ : RangeReplica}
    (hkind : req.txn = none → req.op = opPut ∨ req.op = opGet) (hmade : Proposes A req now A' w e)
    (hwait : w ∈ A₂.inflight) (hmoved : A₂.machine.desc.contains req.target = false)
    (conf : Configuration) (ranges : List RangeID) :
    ∃ again A₃ retries, A₂.applyCommitted conf ranges e = some (A₃, ranges, [], retries) ∧
      again ∈ retries ∧ A₃.machine = A₂.machine ∧
      ∀ (machine : List RangeReplica) (i : ℕ) (B : RangeReplica) (now' : Timestamp),
        machine.findIdx? (·.machine.desc.contains req.target) = some i → machine[i]? = some B →
        B.readIndex = A.readIndex →
          onMachine machine again now' = (do
            let B' ← B.onClient again.req now'
            return (machine.set i B', [])) ∧
          (req.txn = none → B.onClient again.req now' = B.onClient req now') ∧
          ∀ B' w' e', Proposes B again.req now' B' w' e' →
            (req.txn = none → req.op = opGet → req.readTS.isSet → e'.data = e.data) ∧
            ∀ B₂ : RangeReplica, w' ∈ B₂.inflight → B₂.machine.desc.contains req.target →
              ∃ B₃ notices retries', B₂.applyCommitted conf ranges e' =
                  some (B₃, ranges, notices, retries') ∧
                ((∀ r : Range, r.apply (commandOf e'.data) =
                    r.apply ((commandOf e.data).restamp now')) ∧
                  (req.Completed notices ∨ again ∈ retries') ↔ req.txn = none) := by
  obtain ⟨hplain, hid, hz, hdata, hw⟩ := hmade.made
  have hmem : w ∈ A₂.inflight.filter (·.id = e.id) := mem_filter.mpr ⟨hwait, by simp [hid]⟩
  cases htxn : req.txn with
  | none =>
    have hop := hkind htxn
    have hshort : req.op.1.length < 2 ^ 24 := by rcases hop with h | h <;> (rw [h]; decide)
    have hgc : req.op ≠ opGC := by rcases hop with h | h <;> (rw [h]; decide)
    have htarget : req.target = req.key := by simp [Request.target, htxn]
    have hcmd : e.data = encodeCmd (req.cmd now) := by rw [hdata, Request.data, htxn]
    rw [htarget] at hmoved ⊢
    obtain ⟨A₃, hkeeps, happly⟩ :=
      RangeReplica.applyCommitted_moved hcmd hshort hgc hz hmoved conf ranges
    refine ⟨{ req := { req with anyReplica := false } }, A₃, _, happly,
      mem_map.mpr ⟨w, hmem, ?_⟩, hkeeps,
      fun machine i B now' hidx hB hcfg => ⟨?_, fun _ => ?_, ?_⟩⟩
    · rw [hw]
      simp [Request.waiting, Request.cmd, htxn]
    · refine onMachine_owner ?_ hB now'
      exact hidx
    · exact RangeReplica.onClient_anyReplica (hcfg ▸ hplain)
    · intro B' w' e' hB'
      obtain ⟨-, hid', hz', hdata', hw'⟩ := hB'.made
      have hcmd' : e'.data = encodeCmd (req.cmd now') := by
        simp only [hdata', Request.data, htxn]
        rfl
      refine ⟨fun _ hget hset => ?_, fun B₂ hwait₂ hin₂ => ?_⟩
      · rw [hcmd, hcmd']
        simp [Request.cmd, hget, hset]
      · obtain ⟨B₃, notices, retries, hcall, -, -, htold⟩ :=
          RangeReplica.applyCommitted_owned hcmd' hshort hgc hz' hin₂ conf ranges
        refine ⟨B₃, notices, retries, hcall, iff_of_true ⟨fun r => ?_, ?_⟩ rfl⟩
        · rw [hcmd, hcmd']
          rcases hop with hput | hget
          · rw [commandOf_put hput, commandOf_put hput]
            simp [Request.cmd, hput, Command.restamp, show opPut ≠ opGet by decide]
          · have hput : req.op ≠ opPut := by rw [hget]; decide
            rw [commandOf_other hshort hgc hput, commandOf_other hshort hgc hput]
            rfl
        · rcases htold w' hwait₂ hid'.symm with htold | hagain
          · left
            by_cases hpos : 0 ≤ req.histIdx
            · have hhist : w'.histIdx = req.histIdx := by rw [hw']; rfl
              exact .inr ⟨_, htold (hhist ▸ hpos), htxn, hhist⟩
            · exact .inl ⟨htxn, not_le.mp hpos⟩
          · right
            rw [hw'] at hagain
            simpa [Request.waiting, Request.cmd, htxn] using hagain
  | some c =>
    have htarget : req.target = c.key := by simp [Request.target, htxn]
    have hstep : e.data = encodeTxnCommand c := by rw [hdata, Request.data, htxn]
    rw [htarget] at hmoved ⊢
    obtain ⟨A₃, hkeeps, happly⟩ :=
      RangeReplica.applyCommitted_step_moved hstep hz hmoved conf ranges
    refine ⟨{ req := { op := opTxn, key := c.key, histIdx := w.histIdx, readTS := w.readTS } }, A₃, _,
      happly, mem_map.mpr ⟨w, hmem, rfl⟩, hkeeps, fun machine i B now' hidx hB hcfg =>
        ⟨onMachine_owner hidx hB now', by simp, fun B' w' e' hB' => ⟨by simp, ?_⟩⟩⟩
    intro B₂ hwait₂ hin₂
    have hknown : opTxn.1.length < 2 ^ 24 ∧ opTxn ≠ opGC ∧ opTxn ≠ opPut := by decide
    obtain ⟨-, -, hz', hdata', -⟩ := hB'.made
    obtain ⟨B₃, notices, retries, hcall, hended, hretries, -⟩ := RangeReplica.applyCommitted_owned
      (n := B₂) hdata' hknown.1 hknown.2.1 hz' hin₂ conf ranges
    refine ⟨B₃, notices, retries, hcall, iff_of_false ?_ (by simp)⟩
    -- the notices go to clients, and the operation that no replica knows is not sent back
    rintro ⟨-, (⟨hnone, -⟩ | ⟨x, hx, htells⟩) | hagain⟩
    · simp [htxn] at hnone
    · obtain ⟨i, value, rfl⟩ := hended x hx
      simp [Notice.Tells, htxn] at htells
    · rw [hretries hknown.2.2] at hagain
      simp at hagain

/-! ### Two replicas of one machine -/

/-- A node that leads a range alone. -/
def loneLeader : Raft :=
  let r := Raft.fresh { id := 1, peers := [1], electionTimeout := 10, heartbeatTimeout := 1 }
  match r.exec .campaign with
  | .ok (r, _) => r
  | .error _ => r

/-- The first range with the keys `a` and `c`. -/
def beforeCut : RangeReplica := { raft := loneLeader, machine := twoKeys.machine }

/-- The cut of the range at `b`. -/
def cutAtB : SplitSpec := SplitSpec.cut firstRangeDescriptor (Fleet.keyNamed 98) 2

/-- The left half of the range. -/
def leftOfCut : Machine :=
  ((twoKeys.machine.applySplit {} [firstRange] cutAtB).map (·.1.1)).getD twoKeys.machine

/-- The right half of the range. -/
def rightOfCut : Machine :=
  ((twoKeys.machine.applySplit {} [firstRange] cutAtB).bind (·.2)).getD twoKeys.machine

/-- The replica of the right half. -/
def afterCut : RangeReplica := { raft := loneLeader, machine := rightOfCut }

/-- The first entry a lone leader appends after that of its term. -/
def secondEntry (data : Bytes) : Entry :=
  { type := .normal, term := 1, index := 2, id := { node := 1, seq := 1 }, data := data }

theorem exists_proposes {n : RangeReplica} (h : (match n.onClient req now with
      | .ok n' => decide (n'.inflight = n.inflight ++ [w] ∧ n'.raft.log = n.raft.log ++ [e])
      | .error _ => false) = true) : ∃ n', Proposes n req now n' w e := by
  cases hcall : n.onClient req now with
  | error p => simp [hcall] at h
  | ok n' =>
    simp only [hcall, decide_eq_true_eq] at h
    exact ⟨n', hcall, h.1, h.2⟩

/-- A put of the key `c`. -/
def putOfC : Request :=
  { op := opPut, key := Fleet.keyNamed 99, value := ⟨[7], by decide⟩, histIdx := 3 }

/-- The operation that waits for it. -/
def waitingPut : WaitingOp :=
  { id := { node := 1, seq := 1 }, histIdx := 3, value := putOfC.value, op := opPut
    key := putOfC.key }

/-- A put of `c` made before the cut and applied after it is made again on the right half, and its
client is told. -/
theorem rerouted_same_command_put : ∃ A' e again B' e' B₃ notices retries,
    Proposes beforeCut putOfC { wall := 5 } A' waitingPut e ∧
      (∃ A₃ retries, { A' with machine := leftOfCut }.applyCommitted {} [firstRange, 2] e =
        some (A₃, [firstRange, 2], [], retries) ∧ again ∈ retries) ∧
      Proposes afterCut again.req { wall := 6 } B' waitingPut e' ∧
      B'.applyCommitted {} [firstRange, 2] e' = some (B₃, [firstRange, 2], notices, retries) ∧
      (∀ r : Range, r.apply (commandOf e'.data) =
        r.apply ((commandOf e.data).restamp { wall := 6 })) ∧
      (putOfC.Completed notices ∨ again ∈ retries) := by
  have hmade : ∃ A', Proposes beforeCut putOfC { wall := 5 } A' waitingPut
      (secondEntry (encodeCmd (putOfC.cmd { wall := 5 }))) := exists_proposes (by decide +kernel)
  have hremade : ∃ B', Proposes afterCut putOfC { wall := 6 } B' waitingPut
      (secondEntry (encodeCmd (putOfC.cmd { wall := 6 }))) := exists_proposes (by decide +kernel)
  obtain ⟨A', hA⟩ := hmade
  obtain ⟨B', hB⟩ := hremade
  have hwaitA : waitingPut ∈ { A' with machine := leftOfCut }.inflight := by simp [hA.waits]
  have hkeeps : B'.machine = afterCut.machine := RangeReplica.onClient_machine hB.call
  have hleft : leftOfCut.desc.contains putOfC.target = false := by decide +kernel
  have hright : afterCut.machine.desc.contains putOfC.target = true := by decide +kernel
  obtain ⟨again, A₃, retries, happly, hagain, -, hrest⟩ :=
    rerouted_same_command (fun _ => .inl rfl) hA hwaitA hleft {} [firstRange, 2]
  obtain ⟨-, hsame, hproposed⟩ := hrest [{ A' with machine := leftOfCut }, afterCut] 1 afterCut
    { wall := 6 } (by simp [findIdx?_cons, hleft, hright]) rfl rfl
  have hB' := Proposes.mk ((hsame rfl).trans hB.call) hB.waits hB.entry
  obtain ⟨B₃, notices, retries', hcall, hiff⟩ :=
    (hproposed B' waitingPut _ hB').2 B' (by simp [hB.waits]) (hkeeps ▸ hright)
  obtain ⟨hcommand, htold⟩ := hiff.mpr rfl
  exact ⟨A', _, again, B', _, B₃, notices, retries', hA, ⟨A₃, retries, happly, hagain⟩, hB', hcall,
    hcommand, htold⟩

/-- A step of a transaction with the key `c`: its lock and its value. -/
def prewriteOfC : TxnCommand :=
  { op := .prewrite, key := Fleet.keyNamed 99, value := ⟨[7], by decide⟩
    primary := Fleet.keyNamed 99, startTS := { wall := 5 }, deadline := { wall := 9 } }

def stepOfC : Request :=
  { op := opTxn, key := Fleet.keyNamed 99, histIdx := 3, txn := some prewriteOfC }

def waitingStep : WaitingOp :=
  { id := { node := 1, seq := 1 }, histIdx := 3, value := .empty, op := opTxn
    key := stepOfC.key }

/-- What is made of the step once its key has moved. -/
def rerouted : Request := { op := opTxn, key := stepOfC.key, histIdx := 3 }

/-- The step is proposed before the cut and applied after it. What is scheduled instead is an
operation that no replica knows: on the right half, where the step would have locked the key, it
changes nothing. The client is told that all went well, and the coordinator is told nothing. -/
theorem rerouted_step_lost : ∃ A' e again B' e' B₃,
    Proposes beforeCut stepOfC { wall := 5 } A' waitingStep e ∧
      (∃ A₃, { A' with machine := leftOfCut }.applyCommitted {} [firstRange, 2] e =
        some (A₃, [firstRange, 2], [], [again])) ∧
      Proposes afterCut again.req { wall := 6 } B' waitingStep e' ∧
      ((afterCut.machine.range.apply (commandOf e.data)).store.lock stepOfC.key).isSome ∧
      ((afterCut.machine.range.apply (commandOf e'.data)).store.lock stepOfC.key) = none ∧
      B'.applyCommitted {} [firstRange, 2] e' =
        some (B₃, [firstRange, 2], [.ended 3 (some [])], []) := by
  have hmade : ∃ A', Proposes beforeCut stepOfC { wall := 5 } A' waitingStep
      (secondEntry (encodeTxnCommand prewriteOfC)) := exists_proposes (by decide +kernel)
  have hremade : ∃ B', Proposes afterCut rerouted { wall := 6 } B' waitingStep
      (secondEntry (encodeCmd (rerouted.cmd { wall := 6 }))) := exists_proposes (by decide +kernel)
  obtain ⟨A', hA⟩ := hmade
  obtain ⟨B', hB⟩ := hremade
  have hkeeps : B'.machine = afterCut.machine := RangeReplica.onClient_machine hB.call
  have hleft : leftOfCut.desc.contains stepOfC.key = false := by decide +kernel
  have hright : afterCut.machine.desc.contains stepOfC.key = true := by decide +kernel
  obtain ⟨A₃, -, happly⟩ := RangeReplica.applyCommitted_step_moved
    (n := { A' with machine := leftOfCut }) (c := prewriteOfC)
    (e := secondEntry (encodeTxnCommand prewriteOfC)) rfl rfl hleft {} [firstRange, 2]
  obtain ⟨m, hm, -⟩ := RangeReplica.applyEntry_cmd (m := B'.machine)
    (c := rerouted.cmd { wall := 6 }) (e := secondEntry (encodeCmd (rerouted.cmd { wall := 6 }))) rfl
    (by decide) (by decide) {} [firstRange, 2]
  have hverdict := RangeReplica.verdict_cmd (m := B'.machine) (c := rerouted.cmd { wall := 6 })
    (e := secondEntry (encodeCmd (rerouted.cmd { wall := 6 }))) rfl (by decide) (by decide)
  rw [if_pos ⟨hkeeps ▸ hright, fun h => absurd h.1 (by decide)⟩] at hverdict
  have hwaits : { A' with machine := leftOfCut }.inflight.filter
      (·.id = (secondEntry (encodeTxnCommand prewriteOfC)).id) = [waitingStep] := by
    dsimp only
    rw [hA.waits]
    rfl
  rw [hwaits] at happly
  have hended : ∃ B₃, B'.applyCommitted {} [firstRange, 2]
      (secondEntry (encodeCmd (rerouted.cmd { wall := 6 }))) =
        some (B₃, [firstRange, 2], [.ended 3 (some [])], []) := by
    simp only [RangeReplica.applyCommitted, hm, hverdict, RangeReplica.settle,
      RangeReplica.answerAt, Option.bind_eq_bind, Option.bind_some, hB.waits]
    exact ⟨_, rfl⟩
  obtain ⟨B₃, hended⟩ := hended
  exact ⟨A', _, { req := rerouted }, B', _, B₃, hA, ⟨A₃, happly⟩, hB, by decide +kernel, by decide +kernel,
    hended⟩

end Rift.Driver
