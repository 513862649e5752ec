import Rift.Driver.ReadIndex
import Rift.Raft.Provenance
import Rift.Raft.Votes

/-!
# Requests and their answers

A replica numbers what it proposes and the reads it asks an index for. An applied entry completes the
operations in flight that carry its identifier, and a confirmed index goes to the pending read that
carries its context. Both identifiers are a node and a number, and the numbers are kept in memory: a
restart in place goes on counting, a new process over the same engine starts again.

A `Service` is the cluster of a range's replicas with what each of them keeps for its clients. It also
records which entry each proposal appended, the context of each `ReadIndex` call, what leaders have
confirmed, and what was answered. The code keeps no such records.

## Main results

* `answered_own` — a client is answered with its own result
-/

namespace Rift.Driver

open Kv List

/-! ### What a replica keeps for its clients -/

/-- A client's request. -/
structure Request where
  op : Str
  key : Key
  value : Str := .empty
  histIdx : ℤ := -1
  anyReplica : Bool := false
  readTS : Timestamp := {}
  txn : Option TxnCommand := none
  deriving DecidableEq

/-- An operation that waits for its entry, as the driver remembers it. -/
structure WaitingOp where
  id : ProposalID
  histIdx : ℤ
  value : Str
  op : Str
  key : Key
  readTS : Timestamp := {}
  deriving DecidableEq

/-- What a replica does with a request: nothing, propose an entry, or ask for an index to read at. -/
inductive Intake
  | drop
  | propose (data : Bytes)
  | ask

namespace Request

variable (req : Request)

/-- A plain read, which names no timestamp and belongs to no transaction, where such reads are kept
out of the log. -/
def plainRead (readIndex : Bool) : Bool :=
  readIndex && req.op = opGet && !req.readTS.isSet && req.txn.isNone

/-- The command of a request that is not a transaction step: a read at a remembered timestamp keeps
it, and everything else is stamped now. -/
def cmd (now : Timestamp) : Cmd where
  op := req.op
  key := req.key
  value := req.value
  ts := if req.readTS.isSet ∧ req.op = opGet then req.readTS else now

/-- What is proposed for a request. -/
def data (now : Timestamp) : Bytes :=
  match req.txn with
  | some c => encodeTxnCommand c
  | none => encodeCmd (req.cmd now)

/-- Take a request. Only a leader does, except that any replica may take a plain read that allows
it. -/
def intake (leads readIndex : Bool) (now : Timestamp) : Intake :=
  if !leads && !(req.anyReplica && req.plainRead readIndex) then .drop
  else if req.plainRead readIndex then .ask
  else .propose (req.data now)

/-- What the driver remembers of a request while its entry is on the way; of a transaction step, not
the timestamp. -/
def waiting (id : ProposalID) : WaitingOp where
  id := id
  histIdx := req.histIdx
  value := req.value
  op := req.op
  key := req.key
  readTS := if req.txn.isNone then req.readTS else {}

end Request

/-- An operation that waits for its entry to be applied. -/
structure ClientOp where
  id : ProposalID
  req : Request
  /-- Which of all accepted proposals was made for this operation. The code keeps no such number. -/
  call : ℕ
  deriving DecidableEq

/-- The counters and the queues of a replica. -/
structure Desk where
  propSeq : UInt64 := 0
  readSeq : UInt64 := 0
  applied : ℕ := 0
  inflight : List ClientOp := []
  pendingReads : List PendingRead := []

namespace Desk

/-- Number one more proposal. -/
def nextProp (d : Desk) : Desk := { d with propSeq := d.propSeq + 1 }

/-- Number one more read. -/
def nextRead (d : Desk) : Desk := { d with readSeq := d.readSeq + 1 }

def addOp (d : Desk) (op : Option ClientOp) : Desk := { d with inflight := d.inflight ++ op.toList }

/-- A crash clears what is in flight; the restart raises the applied index to the snapshot's. -/
def restarted (d : Desk) (index : ℕ) : Desk :=
  { d with inflight := [], applied := if d.applied < index then index else d.applied }

def addRead (d : Desk) (q : PendingRead) : Desk := { d with pendingReads := d.pendingReads ++ [q] }

end Desk

/-- The identifier that a read-index request is matched by. -/
def encodeReadCtx (node : NodeID) (seq : UInt64) : Bytes := putU64 node ++ putU64 seq

variable {seq : UInt64}

theorem encodeReadCtx_inj {n n' : NodeID} {seq' : UInt64}
    (h : encodeReadCtx n seq = encodeReadCtx n' seq') : n = n' ∧ seq = seq' := by
  have htake := congrArg takeU64 h
  simp only [encodeReadCtx, takeU64_putU64, Option.some.injEq, Prod.mk.injEq] at htake
  have hseq : takeU64 (putU64 seq ++ []) = takeU64 (putU64 seq' ++ []) := by rw [htake.2]
  rw [takeU64_putU64, takeU64_putU64] at hseq
  exact ⟨htake.1, congrArg Prod.fst (Option.some.inj hseq)⟩

/-- The operations an applied entry completes: `answerAt`, `answerTxn` and `rerouteAt` all match on
the entry's identifier, and none of them on an unset one. -/
def completes (e : Entry) (ops : List ClientOp) : List ClientOp :=
  if e.id.zero then [] else ops.filter (·.id = e.id)

/-- The operations an applied entry leaves in flight. -/
def unanswered (e : Entry) (ops : List ClientOp) : List ClientOp :=
  if e.id.zero then ops else ops.filter (·.id ≠ e.id)

/-- What the entries of a Ready complete, in their order. -/
def completions : List Entry → List ClientOp → List (ClientOp × Entry)
  | [], _ => []
  | e :: es, ops => (completes e ops).map (·, e) ++ completions es (unanswered e ops)

/-- The pending reads that are given an index. -/
def receipts : List ReadState → List PendingRead → List (PendingRead × ℕ)
  | [], _ => []
  | st :: sts, qs =>
    ((qs.find? (·.ctx = st.ctx)).map (·, st.index)).toList ++ receipts sts (confirm st qs)

theorem unanswered_subset (e : Entry) (ops : List ClientOp) : unanswered e ops ⊆ ops := by
  unfold unanswered
  split_ifs
  · exact List.Subset.refl _
  · exact filter_subset_self _

theorem mem_completions {es : List Entry} {ops : List ClientOp} {p : ClientOp × Entry}
    (h : p ∈ completions es ops) :
    p.1 ∈ ops ∧ p.2 ∈ es ∧ p.1.id = p.2.id ∧ p.2.id.zero = false := by
  induction es generalizing ops with
  | nil => exact absurd h not_mem_nil
  | cons e es ih =>
    rcases mem_append.mp h with h | h
    · obtain ⟨op, hop, rfl⟩ := mem_map.mp h
      unfold completes at hop
      split_ifs at hop with hz
      · exact absurd hop not_mem_nil
      · obtain ⟨hop, hid⟩ := mem_filter.mp hop
        exact ⟨hop, by simp, by simpa using hid, by simpa using hz⟩
    · obtain ⟨hop, he, hid⟩ := ih h
      exact ⟨unanswered_subset e ops hop, by simp [he], hid⟩

variable {qs : List PendingRead} {q : PendingRead} {sts : List ReadState} {st : ReadState}

theorem mem_confirm (h : q ∈ confirm st qs) : ∃ q' ∈ qs, q'.ctx = q.ctx ∧ q'.call = q.call := by
  induction qs with
  | nil => exact absurd h not_mem_nil
  | cons q₀ qs ih =>
    unfold confirm at h
    split_ifs at h
    · rcases mem_cons.mp h with rfl | h
      · exact ⟨q₀, by simp, rfl, rfl⟩
      · exact ⟨q, by simp [h], rfl, rfl⟩
    · rcases mem_cons.mp h with rfl | h
      · exact ⟨q, by simp, rfl, rfl⟩
      · obtain ⟨q', hq', hsame⟩ := ih h
        exact ⟨q', by simp [hq'], hsame⟩

theorem mem_takeReadStates (h : q ∈ takeReadStates sts qs) :
    ∃ q' ∈ qs, q'.ctx = q.ctx ∧ q'.call = q.call := by
  induction sts generalizing qs with
  | nil => exact ⟨q, h, rfl, rfl⟩
  | cons st sts ih =>
    obtain ⟨q₁, hq₁, hctx, hcall⟩ := ih h
    obtain ⟨q', hq', hctx', hcall'⟩ := mem_confirm hq₁
    exact ⟨q', hq', hctx'.trans hctx, hcall'.trans hcall⟩

theorem mem_receipts {p : PendingRead × ℕ} (h : p ∈ receipts sts qs) :
    (∃ q ∈ qs, q.ctx = p.1.ctx ∧ q.call = p.1.call) ∧
      ∃ st ∈ sts, st.ctx = p.1.ctx ∧ st.index = p.2 := by
  induction sts generalizing qs with
  | nil => exact absurd h not_mem_nil
  | cons st sts ih =>
    rcases mem_append.mp h with h | h
    · obtain ⟨q, hq, rfl⟩ := Option.map_eq_some_iff.mp (Option.mem_toList.mp h)
      refine ⟨⟨q, mem_of_find?_eq_some hq, rfl, rfl⟩, st, by simp, ?_, rfl⟩
      have hctx : q.ctx = st.ctx := by simpa using find?_some hq
      exact hctx.symm
    · obtain ⟨⟨q, hq, hctx, hcall⟩, st', hst', hsame⟩ := ih h
      obtain ⟨q', hq', hctx', hcall'⟩ := mem_confirm hq
      exact ⟨⟨q', hq', hctx'.trans hctx, hcall'.trans hcall⟩, st', by simp [hst'], hsame⟩

/-! ### The replicas of a range -/

/-- What a Ready does to a desk: its entries leave nothing in flight that they complete, and reads
whose index is applied are served. -/
def Desk.drain (d : Desk) (rd : Ready) : Desk :=
  let installed := match rd.snapshot with
    | some snap => if d.applied < snap.index then snap.index else d.applied
    | none => d.applied
  let applied := (rd.committed.getLast?.map (·.index)).getD installed
  { d with
    applied := applied
    inflight := rd.committed.foldl (fun ops e => unanswered e ops) d.inflight
    pendingReads := (takeReadStates rd.readStates d.pendingReads).filter fun q => !q.ready applied }

/-- The replicas of a range and their clients, with the record of what was asked and answered. -/
structure Service where
  cluster : Rift.Cluster
  desk : NodeID → Desk := fun _ => {}
  /-- What each accepted proposal appended. -/
  proposed : List Entry := []
  /-- The context of each call of `ReadIndex`. -/
  asked : List Bytes := []
  /-- The call a leader has confirmed and the index it has confirmed for it. -/
  confirmed : List (ℕ × ℕ) := []
  /-- The operations completed and the entries that completed them. -/
  answered : List (ClientOp × Entry) := []
  /-- The pending reads that were given an index. -/
  received : List (PendingRead × ℕ) := []

namespace Service

/-- What happens to the replicas of a range. A crash leaves a disk and a snapshot; after it a replica
is restarted in place or rebuilt by a new process. -/
inductive Event
  | client (n : NodeID) (req : Request) (now : Timestamp)
  | maintain (n : NodeID) (data : Bytes)
  | reconfigure (n : NodeID) (cc : ConfChangeV2)
  | raft (n : NodeID) (c : Call)
  | ready (n : NodeID)
  | sendSnap (n dest : NodeID) (data : Bytes)
  | restart (n : NodeID) (d : Disk) (snap : SnapshotMeta)
  | reopen (n : NodeID) (d : Disk) (snap : SnapshotMeta)

variable (S : Roster) (readIndex : NodeID → Bool) (σ : Service)

/-- A call on a replica's raft node. -/
def call (n : NodeID) (c : Call) : Option (Service × Reply) :=
  if (S.cfg n).refusal = none ∧ σ.cluster.delivers c then
    match (σ.cluster n).exec c with
    | .ok (s, rep) =>
      some ({ σ with
        cluster := Function.update σ.cluster n s
        confirmed := σ.confirmed ++ (Raft.confirmations c (σ.cluster n).raft s.raft).map fun st =>
          (σ.asked.idxOf st.ctx, st.index) }, rep)
    | .error _ => none
  else none

def setDesk (n : NodeID) (d : Desk) : Service := { σ with desk := Function.update σ.desk n d }

@[simp] theorem setDesk_desk_self (n : NodeID) (d : Desk) : (σ.setDesk n d).desk n = d :=
  Function.update_self ..

/-- Propose under the next identifier. The number is used up even if the proposal is refused. -/
def submit (n : NodeID) (type : EntryType) (data : Bytes) (propose : ProposalID → Call)
    (req : Option Request) : Option Service := do
  let d := (σ.desk n).nextProp
  let id : ProposalID := { node := n, seq := d.propSeq.toNat }
  let (σ', rep) ← σ.call S n (propose id)
  match rep with
  | .done =>
    let op := req.map fun req => { id := id, req := req, call := σ.proposed.length : ClientOp }
    return { σ'.setDesk n (d.addOp op) with
      proposed := σ.proposed ++ [(σ.cluster n).raft.proposal type id data] }
  | _ => return σ'.setDesk n d

/-- Ask for an index under the next context. -/
def ask (n : NodeID) (req : Request) : Option Service := do
  let d := (σ.desk n).nextRead
  let ctx := encodeReadCtx n d.readSeq
  let (σ', rep) ← { σ with asked := σ.asked ++ [ctx] }.call S n (.readIndex ctx)
  match rep with
  | .done =>
    return σ'.setDesk n (d.addRead
      { ctx := ctx, histIdx := req.histIdx, key := req.key, anyReplica := req.anyReplica
        viaFollower := (σ'.cluster n).raft.role ≠ .leader, call := σ.asked.length })
  | _ => return σ'.setDesk n d

/-- Take a request. -/
def onClient (n : NodeID) (req : Request) (now : Timestamp) : Option Service :=
  match req.intake ((σ.cluster n).raft.role = .leader) (readIndex n) now with
  | .drop => some σ
  | .propose data => σ.submit S n .normal data (.propose · data) (some req)
  | .ask => σ.ask S n req

/-- Handle one Ready: answer what its entries complete and give the reads their indexes. -/
def drain (n : NodeID) : Option Service := do
  let (σ', rep) ← σ.call S n .ready
  match rep with
  | .drained rd =>
    let d := σ.desk n
    return { σ'.setDesk n (d.drain rd) with
      answered := σ.answered ++ completions rd.committed d.inflight
      received := σ.received ++ receipts rd.readStates d.pendingReads }
  | _ => return σ'

/-- Rebuild a replica's raft node from a disk and a snapshot. -/
def recover (n : NodeID) (d : Disk) (snap : SnapshotMeta) (desk : Desk) : Option Service :=
  if (S.cfg n).refusal = none then
    match Raft.restore (S.cfg n) d.hs snap (d.log.filter (snap.index < ·.index)) with
    | .ok r => some { σ.setDesk n desk with
        cluster := Function.update σ.cluster n ((σ.cluster n).restarted r d snap) }
    | .error _ => none
  else none

/-- The calls that the driver makes outside of `onClient` and `drain`. -/
def ownCall : Call → Bool
  | .propose _ _ | .proposeConfChange _ _ | .readIndex _ | .ready => false
  | _ => true

/-- One event; `none` when it cannot happen. A restart in place keeps the desk, a new process starts
with an empty one. -/
def next : Event → Option Service
  | .client n req now => σ.onClient S readIndex n req now
  | .maintain n data => σ.submit S n .normal data (.propose · data) none
  | .reconfigure n cc =>
    σ.submit S n .confChange (encodeConfChange cc) (.proposeConfChange · cc) none
  | .raft n c => if ownCall c then (σ.call S n c).map (·.1) else none
  | .ready n => σ.drain S n
  | .sendSnap n dest data =>
    if (S.cfg n).refusal = none ∧ (σ.cluster n).raft.role = .leader then
      let s := (σ.cluster n).say ((σ.cluster n).raft.snapMessage dest data)
      some { σ with cluster := Function.update σ.cluster n s }
    else none
  | .restart n d snap => σ.recover S n d snap ((σ.desk n).restarted snap.index)
  | .reopen n d snap => σ.recover S n d snap { applied := snap.index }

/-- One event, which leaves everything as it is when it cannot happen. -/
def step (e : Event) : Service := (σ.next S readIndex e).getD σ

/-- A crash leaves what had been written. -/
def allows : Event → Prop
  | .restart n d _ | .reopen n d _ => (σ.cluster n).mayRecover d
  | _ => True

/-- No replica is rebuilt with its counters reset once it has used them, and none wraps around. -/
def keepsCounters : Event → Prop
  | .client n _ _ | .maintain n _ | .reconfigure n _ =>
    (σ.desk n).propSeq.toNat + 1 < 2 ^ 64 ∧ (σ.desk n).readSeq.toNat + 1 < 2 ^ 64
  | .reopen n _ _ => (σ.desk n).propSeq = 0 ∧ (σ.desk n).readSeq = 0
  | _ => True

/-! ### The account -/

/-- Where the entries, contexts and confirmations of a cluster come from. -/
structure Traced (g : Rift.Cluster) (proposed : List Entry) (asked : List Bytes)
    (confirmed : List (ℕ × ℕ)) : Prop where
  stems : ∀ n, (g n).Stems (fun e => e.id = {} ∨ e ∈ proposed) (· ∈ asked)
  ready : ∀ n, ∀ st ∈ (g n).raft.readyReads, (asked.idxOf st.ctx, st.index) ∈ confirmed
  responses : ∀ n m, m ∈ (g n).raft.queued ∨ m ∈ (g n).sent → m.type = .readIndexResp →
    (asked.idxOf m.readCtx, m.readIndex) ∈ confirmed

/-- Identifiers determine proposals and reads. -/
structure Accounted (σ : Service) : Prop where
  traced : Traced σ.cluster σ.proposed σ.asked σ.confirmed
  ids : (σ.proposed.map (·.id)).Nodup
  numbered : ∀ e ∈ σ.proposed, e.id.seq ≤ (σ.desk e.id.node).propSeq.toNat
  contexts : σ.asked.Nodup
  counted : ∀ ctx ∈ σ.asked, ∃ n seq, ctx = encodeReadCtx n seq ∧
    seq.toNat ≤ (σ.desk n).readSeq.toNat
  inflight : ∀ n, ∀ op ∈ (σ.desk n).inflight, ∃ e, σ.proposed[op.call]? = some e ∧ e.id = op.id
  pending : ∀ n, ∀ q ∈ (σ.desk n).pendingReads, σ.asked[q.call]? = some q.ctx
  answered : ∀ p ∈ σ.answered, σ.proposed[p.1.call]? = some p.2
  received : ∀ p ∈ σ.received, (p.1.call, p.2) ∈ σ.confirmed

variable {S : Roster} {readIndex : NodeID → Bool} {σ σ' : Service} {n : NodeID}
variable {g : Rift.Cluster} {proposed : List Entry} {asked : List Bytes} {confirmed : List (ℕ × ℕ)}
  {rep : Reply} {c : Call} {s : Server} {e : Event}

section

variable (h : Traced g proposed asked confirmed)
include h

theorem Traced.ask (ctx : Bytes) : Traced g proposed (asked ++ [ctx]) confirmed where
  stems n := (h.stems n).mono (fun _ => id) fun _ => mem_append_left _
  ready n st hst := by
    rw [idxOf_append_of_mem ((h.stems n).raft.ready st hst)]
    exact h.ready n st hst
  responses n m hm ht := by
    have hmem : m.Stems (fun e => e.id = {} ∨ e ∈ proposed) (· ∈ asked) :=
      hm.elim ((h.stems n).raft.queued m) ((h.stems n).sent m)
    rw [idxOf_append_of_mem (hmem.ctx (.inr ht))]
    exact h.responses n m hm ht

theorem Traced.mono {proposed' : List Entry} {confirmed' : List (ℕ × ℕ)} (hp : proposed ⊆ proposed')
    (hc : confirmed ⊆ confirmed') : Traced g proposed' asked confirmed' where
  stems n := (h.stems n).mono (fun _ => Or.imp_right fun he => hp he) fun _ => id
  ready n st hst := hc (h.ready n st hst)
  responses n m hm ht := hc (h.responses n m hm ht)

theorem Traced.update (hs : s.Stems (fun e => e.id = {} ∨ e ∈ proposed) (· ∈ asked))
    (hready : ∀ st ∈ s.raft.readyReads, (asked.idxOf st.ctx, st.index) ∈ confirmed)
    (hresp : ∀ m, m ∈ s.raft.queued ∨ m ∈ s.sent → m.type = .readIndexResp →
      (asked.idxOf m.readCtx, m.readIndex) ∈ confirmed) :
    Traced (Function.update g n s) proposed asked confirmed where
  stems := (Function.forall_update_iff g fun _ s =>
    s.Stems (fun e => e.id = {} ∨ e ∈ proposed) (· ∈ asked)).mpr ⟨hs, fun k _ => h.stems k⟩
  ready := (Function.forall_update_iff g fun _ s => ∀ st ∈ s.raft.readyReads,
    (asked.idxOf st.ctx, st.index) ∈ confirmed).mpr ⟨hready, fun k _ => h.ready k⟩
  responses := (Function.forall_update_iff g fun _ s => ∀ m, m ∈ s.raft.queued ∨ m ∈ s.sent →
    m.type = .readIndexResp → (asked.idxOf m.readCtx, m.readIndex) ∈ confirmed).mpr
      ⟨hresp, fun k _ => h.responses k⟩

/-- What a call leaves in the place of a server, given that it keeps the account of entries. -/
theorem Traced.exec (hd : g.delivers c) (hx : (g n).exec c = .ok (s, rep))
    (hs : s.Stems (fun e => e.id = {} ∨ e ∈ proposed) (· ∈ asked)) :
    Traced (Function.update g n s) proposed asked
      (confirmed ++ (Raft.confirmations c (g n).raft s.raft).map fun st =>
        (asked.idxOf st.ctx, st.index)) := by
  have hold := subset_append_left confirmed
    ((Raft.confirmations c (g n).raft s.raft).map fun st => (asked.idxOf st.ctx, st.index))
  have hnew : ∀ st ∈ Raft.confirmations c (g n).raft s.raft, (asked.idxOf st.ctx, st.index) ∈
      confirmed ++ (Raft.confirmations c (g n).raft s.raft).map fun st =>
        (asked.idxOf st.ctx, st.index) :=
    fun st hst => mem_append_right _ (mem_map.mpr ⟨st, hst, rfl⟩)
  obtain ⟨r, hr, rfl⟩ := Server.exec_raft hx
  rw [Server.record_raft] at hnew hold ⊢
  refine (h.mono (List.Subset.refl _) hold).update hs (fun st hst => ?_) fun m hm ht => ?_
  · rw [Server.record_raft] at hst
    rcases Raft.mem_readyReads_exec hr hst with hst | hst | ⟨m, rfl, ht, rfl⟩
    · exact hold (h.ready n st hst)
    · exact hnew st hst
    · -- The answer was handed out by whoever confirmed the read.
      have hsent : m ∈ (g m.fromID).sent := by simpa [Rift.Cluster.delivers] using hd
      exact hold (h.responses _ m (.inr hsent) ht)
  · rw [Server.record_raft] at hm
    rcases hm with hm | hm
    · rcases Raft.mem_queued_confirmations hm ht with hm | hm
      · exact hold (h.responses n m (.inl hm) ht)
      · exact hnew _ hm
    · rcases Server.mem_sent_exec hx hm with hm | hm
      · exact hold (h.responses n m (.inr hm) ht)
      · exact hold (h.responses n m (.inl (Raft.mem_queued.mpr (.inl hm))) ht)

end

theorem call_eq_some (h : σ.call S n c = some (σ', rep)) :
    ∃ s, σ.cluster.delivers c ∧ (σ.cluster n).exec c = .ok (s, rep) ∧ σ' = { σ with
      cluster := Function.update σ.cluster n s
      confirmed := σ.confirmed ++ (Raft.confirmations c (σ.cluster n).raft s.raft).map fun st =>
        (σ.asked.idxOf st.ctx, st.index) } := by
  unfold call at h
  split_ifs at h with hd
  split at h
  · rename_i s rep' hx
    cases h
    exact ⟨s, hd.2, hx, rfl⟩
  · simp at h

theorem Traced.given (h : Traced g proposed asked confirmed) (hd : g.delivers c)
    (hp : c.proposes = false) (hctx : ∀ ctx, c = .readIndex ctx → ctx ∈ asked) :
    Raft.Stems.Given (fun e => e.id = {} ∨ e ∈ proposed) (· ∈ asked) c where
  proposes := hp
  step := by
    rintro m rfl
    have hsent : m ∈ (g m.fromID).sent := by simpa [Rift.Cluster.delivers] using hd
    exact (h.stems _).sent m hsent
  readIndex := hctx

/-- A server that keeps the account of entries takes the place of the one it was called on. -/
theorem Accounted.exec (h : Accounted σ) (hd : σ.cluster.delivers c)
    (hx : (σ.cluster n).exec c = .ok (s, rep))
    (hs : s.Stems (fun e => e.id = {} ∨ e ∈ σ.proposed) (· ∈ σ.asked)) :
    Accounted { σ with
      cluster := Function.update σ.cluster n s
      confirmed := σ.confirmed ++ (Raft.confirmations c (σ.cluster n).raft s.raft).map fun st =>
        (σ.asked.idxOf st.ctx, st.index) } :=
  ⟨h.traced.exec hd hx hs, h.ids, h.numbered, h.contexts, h.counted, h.inflight, h.pending,
    h.answered, fun p hp => mem_append_left _ (h.received p hp)⟩

theorem Accounted.call (h : Accounted σ) (hp : c.proposes = false)
    (hctx : ∀ ctx, c = .readIndex ctx → ctx ∈ σ.asked) (hcall : σ.call S n c = some (σ', rep)) :
    Accounted σ' := by
  obtain ⟨s, hd, hx, rfl⟩ := call_eq_some hcall
  exact h.exec hd hx ((h.traced.stems n).exec (fun _ => .inl rfl) (h.traced.given hd hp hctx) hx)

theorem Accounted.setDesk (h : Accounted σ) {d : Desk}
    (hprop : (σ.desk n).propSeq.toNat ≤ d.propSeq.toNat)
    (hread : (σ.desk n).readSeq.toNat ≤ d.readSeq.toNat)
    (hinflight : ∀ op ∈ d.inflight, ∃ e, σ.proposed[op.call]? = some e ∧ e.id = op.id)
    (hpending : ∀ q ∈ d.pendingReads, σ.asked[q.call]? = some q.ctx) :
    Accounted (σ.setDesk n d) := by
  have hle : ∀ k, (σ.desk k).propSeq.toNat ≤ ((σ.setDesk n d).desk k).propSeq.toNat ∧
      (σ.desk k).readSeq.toNat ≤ ((σ.setDesk n d).desk k).readSeq.toNat :=
    (Function.forall_update_iff σ.desk fun k d' => (σ.desk k).propSeq.toNat ≤ d'.propSeq.toNat ∧
      (σ.desk k).readSeq.toNat ≤ d'.readSeq.toNat).mpr ⟨⟨hprop, hread⟩, fun k _ => ⟨le_rfl, le_rfl⟩⟩
  refine ⟨h.traced, h.ids, fun e he => (h.numbered e he).trans (hle _).1, h.contexts, ?_, ?_, ?_,
    h.answered, h.received⟩
  · intro ctx hctx
    obtain ⟨k, seq, heq, hseq⟩ := h.counted ctx hctx
    exact ⟨k, seq, heq, hseq.trans (hle k).2⟩
  · exact (Function.forall_update_iff σ.desk fun _ d' => ∀ op ∈ d'.inflight,
      ∃ e, σ.proposed[op.call]? = some e ∧ e.id = op.id).mpr ⟨hinflight, fun k _ => h.inflight k⟩
  · exact (Function.forall_update_iff σ.desk fun _ d' => ∀ q ∈ d'.pendingReads,
      σ.asked[q.call]? = some q.ctx).mpr ⟨hpending, fun k _ => h.pending k⟩

theorem getElem?_append_of_some {α : Type*} {l l' : List α} {i : ℕ} {a : α} (h : l[i]? = some a) :
    (l ++ l')[i]? = some a := by
  rw [List.getElem?_append_left (List.getElem?_eq_some_iff.mp h).1]
  exact h

theorem toNat_succ (h : seq.toNat + 1 < 2 ^ 64) : (seq + 1).toNat = seq.toNat + 1 := by
  rw [UInt64.toNat_add]
  exact Nat.mod_eq_of_lt h

section

variable (h : Accounted σ)
include h

theorem Accounted.propose {e : Entry} (hid : e.id ∉ σ.proposed.map (·.id))
    (hnum : e.id.seq ≤ (σ.desk e.id.node).propSeq.toNat) :
    Accounted { σ with proposed := σ.proposed ++ [e] } where
  __ := h
  traced := h.traced.mono (subset_append_left _ _) (List.Subset.refl _)
  ids := by
    rw [map_append]
    exact (perm_append_singleton _ _).nodup_iff.mpr (nodup_cons.mpr ⟨hid, h.ids⟩)
  numbered e' he' := by
    rcases mem_append.mp he' with he' | he'
    · exact h.numbered e' he'
    · obtain rfl := mem_singleton.mp he'
      exact hnum
  inflight k op hop := by
    obtain ⟨e', he', hid'⟩ := h.inflight k op hop
    exact ⟨e', getElem?_append_of_some he', hid'⟩
  answered p hp := getElem?_append_of_some (h.answered p hp)

theorem Accounted.nextProp_fresh (hseq : (σ.desk n).propSeq.toNat + 1 < 2 ^ 64) (type : EntryType)
    (data : Bytes) :
    ((σ.cluster n).raft.proposal type
      { node := n, seq := (σ.desk n).nextProp.propSeq.toNat } data).id ∉ σ.proposed.map (·.id) := by
  intro hmem
  obtain ⟨e, he, hid⟩ := mem_map.mp hmem
  have hle := h.numbered e he
  rw [hid] at hle
  simp only [Raft.proposal, Desk.nextProp, toNat_succ hseq] at hle
  omega

theorem Accounted.submit {type : EntryType} {data : Bytes} {propose : ProposalID → Call}
    {req : Option Request} (hseq : (σ.desk n).propSeq.toNat + 1 < 2 ^ 64)
    (hprop : ∀ {r r' : Raft} {id : ProposalID} {rep : Reply}, r.exec (propose id) = .ok (r', rep) →
      Raft.Proposed r type id data r' rep)
    (hsubmit : σ.submit S n type data propose req = some σ') : Accounted σ' := by
  obtain ⟨⟨σ₁, rep⟩, hcall, hsubmit⟩ := Option.bind_eq_some_iff.mp hsubmit
  obtain ⟨s, hd, hx, rfl⟩ := call_eq_some hcall
  have hsucc : (σ.desk n).nextProp.propSeq.toNat = (σ.desk n).propSeq.toNat + 1 := toNat_succ hseq
  have h₁ : Accounted (σ.setDesk n (σ.desk n).nextProp) :=
    h.setDesk (by omega) le_rfl (h.inflight n) (h.pending n)
  -- A refused proposal leaves nothing behind but its number.
  have hrefused (hrep : rep ≠ .done) := h₁.exec (n := n) hd hx
    ((h.traced.stems n).proposed (fun _ => .inl rfl) hx hprop fun hdone => absurd hdone hrep)
  cases rep with
  | done =>
    cases hsubmit
    have h₂ := h₁.propose (h.nextProp_fresh hseq type data) (by
      change _ ≤ ((σ.setDesk n _).desk n).propSeq.toNat
      rw [Service.setDesk_desk_self]
      exact le_rfl)
    have h₃ := h₂.setDesk (n := n) (d := (σ.desk n).nextProp.addOp (req.map fun req =>
      { id := { node := n, seq := (σ.desk n).nextProp.propSeq.toNat }, req := req
        call := σ.proposed.length })) ?_ ?_ ?_ ?_
    · have h₄ := h₃.exec (n := n) hd hx
        ((h₃.traced.stems n).proposed (fun _ => .inl rfl) hx hprop
          fun _ => Or.inr (by simp [Service.setDesk]))
      simpa [Service.setDesk] using h₄
    · simp [Service.setDesk, Desk.addOp]
    · simp [Service.setDesk, Desk.addOp]
    · intro op hop
      rcases mem_append.mp hop with hop | hop
      · obtain ⟨e, he, hid⟩ := h.inflight n op hop
        exact ⟨e, getElem?_append_of_some he, hid⟩
      · obtain ⟨q, -, rfl⟩ := Option.map_eq_some_iff.mp (Option.mem_toList.mp hop)
        exact ⟨_, getElem?_concat_length, rfl⟩
    · exact h.pending n
  | _ => exact Option.some.inj hsubmit ▸ hrefused (by simp)

theorem Accounted.askUnder (hnew : encodeReadCtx n seq ∉ σ.asked)
    (hseq : seq.toNat ≤ (σ.desk n).readSeq.toNat) :
    Accounted { σ with asked := σ.asked ++ [encodeReadCtx n seq] } where
  __ := h
  traced := h.traced.ask _
  contexts :=
    (perm_append_singleton _ _).nodup_iff.mpr (nodup_cons.mpr ⟨hnew, h.contexts⟩)
  counted ctx hctx := by
    rcases mem_append.mp hctx with hctx | hctx
    · exact h.counted ctx hctx
    · exact ⟨n, seq, mem_singleton.mp hctx, hseq⟩
  pending k q hq := getElem?_append_of_some (h.pending k q hq)

theorem Accounted.nextRead_fresh (hseq : (σ.desk n).readSeq.toNat + 1 < 2 ^ 64) :
    encodeReadCtx n (σ.desk n).nextRead.readSeq ∉ σ.asked := by
  intro hmem
  obtain ⟨k, seq, heq, hle⟩ := h.counted _ hmem
  obtain ⟨rfl, rfl⟩ := encodeReadCtx_inj heq
  simp only [Desk.nextRead, toNat_succ hseq] at hle
  omega

theorem Accounted.ask {req : Request} (hseq : (σ.desk n).readSeq.toNat + 1 < 2 ^ 64)
    (hask : σ.ask S n req = some σ') : Accounted σ' := by
  obtain ⟨⟨σ₁, rep⟩, hcall, hask⟩ := Option.bind_eq_some_iff.mp hask
  obtain ⟨s, hd, hx, rfl⟩ := call_eq_some hcall
  have hsucc : (σ.desk n).nextRead.readSeq.toNat = (σ.desk n).readSeq.toNat + 1 := toNat_succ hseq
  have h₁ : Accounted (σ.setDesk n (σ.desk n).nextRead) :=
    h.setDesk le_rfl (by omega) (h.inflight n) (h.pending n)
  have h₂ := h₁.askUnder (n := n) (h.nextRead_fresh hseq) (by rw [setDesk_desk_self])
  have hexec {τ : Service} (hτ : Accounted τ) (hcluster : τ.cluster = σ.cluster)
      (hasked : τ.asked = σ.asked ++ [encodeReadCtx n (σ.desk n).nextRead.readSeq]) := by
    refine hτ.exec (n := n) (c := .readIndex (encodeReadCtx n (σ.desk n).nextRead.readSeq))
      (hcluster ▸ hd) (hcluster ▸ hx) ((hτ.traced.stems n).exec (fun _ => .inl rfl)
        (hτ.traced.given (hcluster ▸ hd) rfl ?_) (hcluster ▸ hx))
    rintro ctx ⟨⟩
    simp [hasked]
  have hrefused := hexec h₂ rfl rfl
  cases rep with
  | done =>
    cases hask
    have h₃ := h₂.setDesk (n := n) (d := (σ.desk n).nextRead.addRead
      { ctx := encodeReadCtx n (σ.desk n).nextRead.readSeq, histIdx := req.histIdx, key := req.key
        anyReplica := req.anyReplica, viaFollower := s.raft.role ≠ .leader
        call := σ.asked.length }) ?_ ?_ ?_ ?_
    · simpa [Service.setDesk] using hexec h₃ rfl rfl
    · simp [Service.setDesk, Desk.addRead]
    · simp [Service.setDesk, Desk.addRead]
    · exact h.inflight n
    · intro q hq
      rcases mem_append.mp hq with hq | hq
      · exact getElem?_append_of_some (h.pending n q hq)
      · obtain rfl := mem_singleton.mp hq
        exact getElem?_concat_length
  | _ => exact Option.some.inj hask ▸ hrefused

/-- An entry with the identifier of an operation in flight is the one that was proposed for it. -/
theorem Accounted.own_entry {op : ClientOp} {e : Entry} (hop : op ∈ (σ.desk n).inflight)
    (he : e ∈ (σ.cluster n).raft.log) (hid : op.id = e.id) (hz : e.id.zero = false) :
    σ.proposed[op.call]? = some e := by
  obtain ⟨e', he', hid'⟩ := h.inflight n op hop
  have hmem : e ∈ σ.proposed := by
    refine ((h.traced.stems n).raft.log e he).resolve_left fun hnone => ?_
    rw [hnone] at hz
    cases hz
  have heq : e' = e := inj_on_of_nodup_map h.ids (mem_of_getElem? he') hmem
    (hid'.trans hid)
  exact heq ▸ he'

/-- An index confirmed for the context of a pending read was confirmed for the call made for it. -/
theorem Accounted.own_index (hq : q ∈ (σ.desk n).pendingReads)
    (hst : st ∈ (σ.cluster n).raft.readyReads) (hctx : st.ctx = q.ctx) :
    (q.call, st.index) ∈ σ.confirmed := by
  have hconf := h.traced.ready n st hst
  obtain ⟨hlt, hget⟩ := List.getElem?_eq_some_iff.mp (h.pending n q hq)
  rw [hctx, ← hget, h.contexts.idxOf_getElem] at hconf
  exact hconf

theorem Accounted.answer {as : List (ClientOp × Entry)} {rs : List (PendingRead × ℕ)}
    (has : ∀ p ∈ as, σ.proposed[p.1.call]? = some p.2)
    (hrs : ∀ p ∈ rs, (p.1.call, p.2) ∈ σ.confirmed) :
    Accounted { σ with answered := σ.answered ++ as, received := σ.received ++ rs } where
  __ := h
  answered p hp := (mem_append.mp hp).elim (h.answered p) (has p)
  received p hp := (mem_append.mp hp).elim (h.received p) (hrs p)

end

theorem foldl_unanswered_subset (es : List Entry) (ops : List ClientOp) :
    es.foldl (fun ops e => unanswered e ops) ops ⊆ ops := by
  induction es generalizing ops with
  | nil => exact List.Subset.refl _
  | cons e es ih => exact fun op hop => unanswered_subset e ops (ih _ hop)

theorem Accounted.drain (h : Accounted σ) (hdrain : σ.drain S n = some σ') : Accounted σ' := by
  obtain ⟨⟨σ₁, rep⟩, hcall, hdrain⟩ := Option.bind_eq_some_iff.mp hdrain
  have h₁ := h.call rfl (by rintro ctx ⟨⟩) hcall
  obtain ⟨s, hd, hx, rfl⟩ := call_eq_some hcall
  cases rep with
  | drained rd =>
    obtain ⟨hcommitted, hreads⟩ := Server.exec_ready hx
    cases hdrain
    refine Accounted.answer (h₁.setDesk (n := n) (d := (σ.desk n).drain rd) le_rfl le_rfl (fun op hop => ?_) fun q hq => ?_)
      (fun p hp => ?_) fun p hp => ?_
    · exact h.inflight n op (foldl_unanswered_subset _ _ hop)
    · obtain ⟨q', hq', hctx, hcall⟩ := mem_takeReadStates (mem_filter.mp hq).1
      rw [← hctx, ← hcall]
      exact h.pending n q' hq'
    · obtain ⟨hop, he, hid, hz⟩ := mem_completions hp
      exact h.own_entry hop (hcommitted he) hid hz
    · obtain ⟨⟨q, hq, hctx, hcall⟩, st, hst, hctx', hindex⟩ := mem_receipts hp
      rw [hreads] at hst
      rw [← hcall, ← hindex]
      exact mem_append_left _ (h.own_index hq hst (hctx'.trans hctx.symm))
  | _ => exact Option.some.inj hdrain ▸ h₁

theorem Accounted.recover (h : Accounted σ) {d : Disk} {snap : SnapshotMeta} {desk : Desk}
    (hd : (σ.cluster n).mayRecover d) (hprop : (σ.desk n).propSeq.toNat ≤ desk.propSeq.toNat)
    (hread : (σ.desk n).readSeq.toNat ≤ desk.readSeq.toNat) (hinflight : desk.inflight = [])
    (hpending : desk.pendingReads ⊆ (σ.desk n).pendingReads)
    (hrecover : σ.recover S n d snap desk = some σ') : Accounted σ' := by
  unfold Service.recover at hrecover
  split_ifs at hrecover
  split at hrecover
  · rename_i r hr
    cases hrecover
    have h₁ : Accounted (σ.setDesk n desk) := by
      refine h.setDesk hprop hread (fun op hop => ?_) fun q hq => h.pending n q (hpending hq)
      rw [hinflight] at hop
      exact absurd hop not_mem_nil
    have hs := (h.traced.stems n).restarted hd.2 hr
    obtain ⟨rfl, -, -⟩ := restore_eq hr
    -- The new node has said nothing yet; what the old one said stays on the network.
    refine { h₁ with traced := h₁.traced.update hs (fun st hst => ?_) fun m hm ht => ?_ }
    · exact absurd hst not_mem_nil
    · exact hm.elim (fun hm => absurd hm not_mem_nil) fun hm =>
        h.traced.responses n m (.inr hm) ht
  · simp at hrecover

theorem Accounted.next (h : Accounted σ) (hok : σ.allows e) (hkeep : σ.keepsCounters e)
    (hnext : σ.next S readIndex e = some σ') : Accounted σ' := by
  cases e with
  | client k req now =>
    simp only [Service.next, onClient] at hnext
    split at hnext
    · exact Option.some.inj hnext ▸ h
    · exact h.submit hkeep.1 Raft.exec_propose hnext
    · exact h.ask hkeep.2 hnext
  | maintain k data =>
    simp only [Service.next] at hnext
    exact h.submit hkeep.1 Raft.exec_propose hnext
  | reconfigure k cc =>
    simp only [Service.next] at hnext
    exact h.submit hkeep.1 Raft.exec_proposeConfChange hnext
  | raft k c =>
    simp only [Service.next] at hnext
    split_ifs at hnext with hc
    obtain ⟨⟨σ₁, rep⟩, hcall, rfl⟩ := Option.map_eq_some_iff.mp hnext
    refine h.call ?_ ?_ hcall
    · cases c <;> first | rfl | exact absurd hc (by simp [ownCall])
    · rintro ctx rfl
      exact absurd hc (by simp [ownCall])
  | ready k => exact h.drain hnext
  | sendSnap k dest data =>
    simp only [Service.next] at hnext
    split_ifs at hnext
    cases hnext
    refine { h with traced := h.traced.update ((h.traced.stems k).say dest data) (h.traced.ready k) ?_ }
    rintro m (hm | hm) ht
    · exact h.traced.responses k m (.inl hm) ht
    · rcases mem_append.mp hm with hm | hm
      · exact h.traced.responses k m (.inr hm) ht
      · obtain rfl := mem_singleton.mp hm
        exact absurd ht (by simp [Raft.snapMessage])
  | restart k d snap =>
    have hprop : (σ.desk k).propSeq.toNat ≤ ((σ.desk k).restarted snap.index).propSeq.toNat := le_rfl
    exact h.recover hok hprop le_rfl rfl (List.Subset.refl _) hnext
  | reopen k d snap =>
    refine h.recover hok ?_ ?_ rfl (nil_subset _) hnext
    · rw [hkeep.1]
    · rw [hkeep.2]

theorem Accounted.step (h : Accounted σ) (hok : σ.allows e) (hkeep : σ.keepsCounters e) :
    Accounted (σ.step S readIndex e) := by
  unfold Service.step
  cases hnext : σ.next S readIndex e with
  | none => exact h
  | some σ' => exact h.next hok hkeep hnext

theorem Accounted.start (hg : ∀ n, (g n).Untouched) : Accounted { cluster := g } where
  traced :=
    { stems n := (hg n).stems
      ready n := by simp [(hg n).ready]
      responses n := by simp [(hg n).queued, (hg n).sent] }
  ids := nodup_nil
  numbered := by simp
  contexts := nodup_nil
  counted := by simp
  inflight := by simp
  pending := by simp
  answered := by simp
  received := by simp

/-- **A client is answered only for its own request.** In every run in which no replica is rebuilt
with its counters reset, the entry that completes an operation is the one that the operation's own
proposal appended, and the index given to a pending read is one that a leader confirmed for the read's
own call of `ReadIndex`. -/
theorem answered_own (S : Roster) (readIndex : NodeID → Bool) (hg : ∀ n, (g n).Untouched)
    {es : List Event} (hallows : Follows (step S readIndex) allows { cluster := g } es)
    (hkeeps : Follows (step S readIndex) keepsCounters { cluster := g } es) :
    let σ := es.foldl (step S readIndex) { cluster := g }
    (∀ p ∈ σ.answered, σ.proposed[p.1.call]? = some p.2) ∧
      ∀ p ∈ σ.received, (p.1.call, p.2) ∈ σ.confirmed := by
  have h : Accounted (es.foldl (step S readIndex) { cluster := g }) :=
    (hallows.and hkeeps).invariant (fun _ _ h hok => h.step hok.1 hok.2) (Accounted.start hg)
  exact ⟨h.answered, h.received⟩

instance (σ : Service) (e : Event) : Decidable (σ.allows e) := by
  unfold allows
  split <;> infer_instance

instance (σ : Service) (e : Event) : Decidable (σ.keepsCounters e) := by
  unfold keepsCounters
  split <;> infer_instance

/-- A single voter. -/
def oneVoter : Roster where
  cfg n := { id := n, peers := [1], electionTimeout := 10, heartbeatTimeout := 1 }
  id_eq _ := rfl

def putOf (value : UInt8) : Request where
  op := opPut
  key := someKey
  value := ⟨[value], length_singleton_lt value⟩

/-- Elect the voter, propose a put and let it be applied, and ask for a plain read. -/
def putAndRead : List Event :=
  [.raft 1 .campaign, .ready 1, .raft 1 (.ackPersisted 1), .client 1 (putOf 1) {}, .ready 1,
    .raft 1 (.ackPersisted 2), .ready 1, .client 1 { op := opGet, key := someKey } {}, .ready 1]

/-- The single voter after some events. -/
def afterEvents (es : List Event) : Service :=
  es.foldl (step oneVoter fun _ => true) { cluster := oneVoter.start }

/-- The hypotheses hold of a run that answers a put and gives a read its index. -/
theorem answered_own_put :
    (afterEvents putAndRead).answered.map (fun p => (p.1.call, p.2.index)) = [(0, 2)] ∧
    (afterEvents putAndRead).received.map (fun p => (p.1.call, p.2)) = [(0, 2)] ∧
    (∀ p ∈ (afterEvents putAndRead).answered,
      (afterEvents putAndRead).proposed[p.1.call]? = some p.2) ∧
    ∀ p ∈ (afterEvents putAndRead).received, (p.1.call, p.2) ∈ (afterEvents putAndRead).confirmed :=
  have hallows : Follows (step oneVoter fun _ => true) allows { cluster := oneVoter.start }
    putAndRead := by decide +kernel
  have hkeeps : Follows (step oneVoter fun _ => true) keepsCounters { cluster := oneVoter.start }
    putAndRead := by decide +kernel
  have h := answered_own oneVoter (fun _ => true) (Server.untouched_start oneVoter) hallows hkeeps
  ⟨by decide +kernel, by decide +kernel, h.1, h.2⟩

/-- A put is proposed and its entry is durable, but the process dies before it is applied. -/
def putUnapplied : List Event :=
  [.raft 1 .campaign, .ready 1, .raft 1 (.ackPersisted 1), .client 1 (putOf 1) {}, .ready 1,
    .raft 1 (.ackPersisted 2)]

/-- The process is started again over what the first one had made durable, and another put is
proposed before the first is applied. -/
def putAgain : List Event :=
  putUnapplied ++ [.reopen 1 ((afterEvents putUnapplied).cluster 1).disk.stable {},
    .raft 1 .campaign, .ready 1, .raft 1 (.ackPersisted 1), .client 1 (putOf 2) {}, .ready 1]

/-- **A new process numbers its proposals from the start again.** The second put carries the
identifier of the first, and the client of the second is answered when the entry of the first is
applied. -/
theorem reopened_answers_other_request :
    Follows (step oneVoter fun _ => true) allows { cluster := oneVoter.start } putAgain ∧
      ∃ p ∈ (afterEvents putAgain).answered, p.1.req = putOf 2 ∧
        (afterEvents putAgain).proposed[p.1.call]? ≠ some p.2 ∧
        (afterEvents putAgain).proposed[0]? = some p.2 := by
  decide +kernel

end Service

end Rift.Driver
