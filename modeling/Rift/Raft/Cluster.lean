import Rift.Raft.Membership
import Rift.Raft.Queues

/-!
# A cluster of nodes

A cluster is a family of servers. Its network keeps every message that was ever handed out, so that a
message may be delivered late, more than once, or never. A node may crash and come back through
`Restore`; what it said before stays on the network.

A claim about a cluster is about the runs whose events satisfy some condition: which calls are made,
what a crash may leave behind, and whether leaders send snapshots. Such a condition is a `Regime`.

## Main definitions

* `Roster`, `Setup` — how the nodes are configured: each in its own way, or all alike
* `Cluster`, `Event`, `Cluster.next` — what a cluster does in one event
* `Cluster.Step`, `Cluster.Reaches` — the runs of a regime
-/

namespace Rift

/-- How each node is configured. They need not agree on the members: a node that joins later lists
itself, and the founders do not list it. -/
structure Roster where
  cfg : NodeID → Config
  id_eq : ∀ n, (cfg n).id = n

/-- The nodes of a cluster are configured alike: they agree on the members, and differ in identity
and timing. -/
structure Setup extends Roster where
  conf : Configuration
  conf_eq : ∀ n, (cfg n).conf = conf
  voters_ne : conf.voters ≠ []

instance : Coe Setup Roster := ⟨Setup.toRoster⟩

/-- The servers by identity. -/
abbrev Cluster := NodeID → Server

/-- What happens in a cluster. -/
inductive Event
  /-- A call on a node; a message is delivered by the call that steps it. -/
  | call (n : NodeID) (c : Call)
  /-- A node restarts from a disk and a snapshot. -/
  | crash (n : NodeID) (d : Disk) (snap : SnapshotMeta)
  /-- The driver of a leader sends the snapshot the leader's log starts from. -/
  | sendSnap (n dest : NodeID) (data : Bytes)

namespace Server

/-- A node restarted from what its disk gave back. -/
def restarted (s : Server) (r : Raft) (d : Disk) (snap : SnapshotMeta) : Server :=
  { raft := r
    disk := { stable := d }
    snapped := fun i => i ≤ snap.index
    sent := s.sent
    snaps := s.snaps }

/-- A message of the driver is out. -/
def say (s : Server) (m : Message) : Server := { s with sent := s.sent ++ [m] }

end Server

/-- The snapshot message of a node's driver. -/
def Raft.snapMessage (r : Raft) (dest : NodeID) (data : Bytes) : Message :=
  { type := .snap, fromID := r.id, toID := dest, term := r.term, snapIndex := r.snapIndex
    snapTerm := r.snapTerm, snapData := data, snapConf := encodeConfiguration r.baseConf }

namespace Cluster

/-- Only messages that were handed out are delivered. -/
def delivers (g : Cluster) : Call → Bool
  | .step m => (g m.fromID).sent.contains m
  | _ => true

/-- The cluster after one event; `none` when the event cannot happen. -/
def next (S : Roster) (g : Cluster) : Event → Option Cluster
  | .call n c =>
    if (S.cfg n).refusal = none ∧ g.delivers c then
      match (g n).exec c with
      | .ok (s, _) => some (Function.update g n s)
      | .error _ => none
    else none
  | .crash n d snap =>
    if (S.cfg n).refusal = none ∧ snap ∈ (g n).snaps then
      match Raft.restore (S.cfg n) d.hs snap (d.log.filter (snap.index < ·.index)) with
      | .ok r => some (Function.update g n ((g n).restarted r d snap))
      | .error _ => none
    else none
  | .sendSnap n dest data =>
    if (S.cfg n).refusal = none ∧ (g n).raft.role = .leader then
      some (Function.update g n ((g n).say ((g n).raft.snapMessage dest data)))
    else none

end Cluster

/-- Every node as `New` returns it. -/
def Roster.start (S : Roster) : Cluster := fun n => { raft := Raft.fresh (S.cfg n) }

/-- A condition on the events of a run. -/
abbrev Regime := Cluster → Event → Prop

namespace Cluster

variable {S : Roster} {R : Regime} {g g' : Cluster} {ev : Event}

/-- One event that the regime allows. -/
def Step (S : Roster) (R : Regime) (g g' : Cluster) : Prop :=
  ∃ ev, R g ev ∧ g.next S ev = some g'

/-- A run of a regime. -/
abbrev Reaches (S : Roster) (R : Regime) : Cluster → Cluster → Prop :=
  Relation.ReflTransGen (Step S R)

/-- What an event does, by kind. -/
inductive Happens (S : Roster) (g : Cluster) : Event → Cluster → Prop
  | call {n c s rep} (hn : (S.cfg n).refusal = none) (hd : g.delivers c)
      (hx : (g n).exec c = .ok (s, rep)) : Happens S g (.call n c) (Function.update g n s)
  | crash {n d snap r} (hn : (S.cfg n).refusal = none) (hs : snap ∈ (g n).snaps)
      (hr : Raft.restore (S.cfg n) d.hs snap (d.log.filter (snap.index < ·.index)) = .ok r) :
    Happens S g (.crash n d snap) (Function.update g n ((g n).restarted r d snap))
  | sendSnap {n dest data} (hn : (S.cfg n).refusal = none) (hl : (g n).raft.role = .leader) :
    Happens S g (.sendSnap n dest data)
      (Function.update g n ((g n).say ((g n).raft.snapMessage dest data)))

theorem happens_of_next (h : g.next S ev = some g') : Happens S g ev g' := by
  cases ev with
  | call n c =>
    simp only [next] at h
    split_ifs at h with hn
    split at h
    · rename_i s rep hx
      cases h
      exact .call hn.1 hn.2 hx
    · cases h
  | crash n d snap =>
    simp only [next] at h
    split_ifs at h with hn
    split at h
    · rename_i r hr
      cases h
      exact .crash hn.1 hn.2 hr
    · cases h
  | sendSnap n dest data =>
    simp only [next] at h
    split_ifs at h with hn
    cases h
    exact .sendSnap hn.1 hn.2

/-- What holds at the start and is kept by every event of a regime holds in every cluster a run
reaches. -/
theorem Reaches.induction {P : Cluster → Prop} {g₀ : Cluster} (h₀ : P g₀)
    (hstep : ∀ g ev g', P g → R g ev → Happens S g ev g' → P g') (h : Reaches S R g₀ g) : P g := by
  induction h with
  | refl => exact h₀
  | tail _ hs ih =>
    obtain ⟨ev, hR, hn⟩ := hs
    exact hstep _ ev _ ih hR (happens_of_next hn)

/-- A sequence of events; `none` when one of them cannot happen or the regime does not allow it. -/
def run (S : Roster) (R : Regime) [∀ g ev, Decidable (R g ev)] (g : Cluster) :
    List Event → Option Cluster
  | [] => some g
  | ev :: evs => if R g ev then (g.next S ev).bind fun g' => run S R g' evs else none

variable [∀ g ev, Decidable (R g ev)]

theorem run_reaches {evs : List Event} (h : g.run S R evs = some g') : Reaches S R g g' := by
  induction evs generalizing g with
  | nil =>
    cases h
    exact .refl
  | cons ev evs ih =>
    unfold run at h
    split_ifs at h with hp
    obtain ⟨g₁, h₁, h⟩ := Option.bind_eq_some_iff.mp h
    exact .head ⟨ev, hp, h₁⟩ (ih h)

theorem exists_reaches (S : Roster) (R : Regime) [∀ g ev, Decidable (R g ev)] (evs : List Event)
    (q : Cluster → Bool) (h : (S.start.run S R evs).any q = true) :
    ∃ g, Reaches S R S.start g ∧ q g = true := by
  obtain ⟨g, hg, hq⟩ := Option.any_eq_true _ _ |>.mp h
  exact ⟨g, run_reaches hg, hq⟩

end Cluster

end Rift
