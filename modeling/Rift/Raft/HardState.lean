import Rift.Raft.Log

/-!
# The term and the vote are durable before they are revealed

A node withholds every message that reveals its term until the hard state it speaks for is on
disk. Three marks are involved: the open mark, the mark the last hard state was handed over
under, and the mark a message waits for; a mark may also be closed because it covers nothing.

The invariant relates them to the hard states on disk and in flight: a withheld message is
attested by every hard state its mark leads to, and a released one by every hard state a crash
may leave behind.
-/

namespace Rift

open List

/-! ### Promises about the hard state -/

/-- The message types that attest to no persistent state. -/
def MessageType.ungated : MessageType → Bool
  | .preVote | .preVoteResp | .timeoutNow => true
  | _ => false

/-- The vote a message promises: a grant promises it to the candidate, a request to its sender. -/
def Message.promised (m : Message) : Option NodeID :=
  match m.type with
  | .voteResp => if m.granted then some m.toID else none
  | .vote => some m.fromID
  | _ => none

variable {m : Message} {hs : HardState} {d : Journal Disk} {c : Call}

namespace HardState

/-- A hard state may be replaced by one of a later term, or by one of the same term that fills an
empty vote. -/
def Le (a b : HardState) : Prop :=
  a.term < b.term ∨ (a.term = b.term ∧ (a.vote = 0 ∨ a.vote = b.vote))

/-- The hard state stands behind a message: the term it reveals is reached, and the vote it
promises is cast or out of date. -/
def Attests (hs : HardState) (m : Message) : Prop :=
  m.type.ungated ∨ (m.term ≤ hs.term ∧
    ∀ v, m.promised = some v → v ≠ 0 → m.term < hs.term ∨ hs.vote = v)

theorem Le.refl (a : HardState) : a.Le a := .inr ⟨rfl, .inr rfl⟩

theorem Attests.mono {a b : HardState} (h : a.Attests m) (hle : a.Le b) : b.Attests m := by
  rcases h with h | ⟨hterm, hvote⟩
  · exact .inl h
  refine .inr ?_
  rcases hle with hlt | ⟨heq, hv⟩
  · exact ⟨hterm.trans hlt.le, fun _ _ _ => .inl (hterm.trans_lt hlt)⟩
  · refine ⟨heq ▸ hterm, fun v hp hne => ?_⟩
    rcases hvote v hp hne with h | h
    · exact .inl (heq ▸ h)
    · rcases hv with hv | hv
      · exact absurd (h.symm.trans hv) hne
      · exact .inr (hv.symm.trans h)

/-- A message of this very term that promises no other vote than this one. -/
def Speaks (hs : HardState) (m : Message) : Prop :=
  m.term = hs.term ∧ ∀ v, m.promised = some v → hs.vote = v

theorem Speaks.attests (h : hs.Speaks m) : hs.Attests m :=
  .inr ⟨h.1.le, fun v hv _ => .inr (h.2 v hv)⟩

theorem speaks_of_term (ht : m.term = hs.term) (hp : m.promised = none) : hs.Speaks m :=
  ⟨ht, fun v h => by rw [hp] at h; exact absurd h (by simp)⟩

theorem speaks_of_vote {v : NodeID} (ht : m.term = hs.term) (hp : m.promised = some v)
    (hv : hs.vote = v) : hs.Speaks m := by
  refine ⟨ht, fun w hw => ?_⟩
  rw [hp] at hw
  exact hv.trans (Option.some.inj hw)

end HardState

/-! ### The gate -/

/-- The part of a node that decides when a message may leave: the hard state, the marks and the
two queues. -/
structure Gate where
  hs : HardState
  hardStateDirty : Bool
  dirtyMark : ℕ
  markHandedOff : Bool
  nextMark : ℕ
  persisted : ℕ
  hsMark : ℕ
  gated : List GatedMessage
  msgs : List Message

namespace Gate

variable (g : Gate)

/-- Open a mark, unless one is open that was not handed over. -/
def dirty : Gate :=
  if g.dirtyMark = 0 ∨ g.markHandedOff then
    { g with nextMark := g.nextMark + 1, dirtyMark := g.nextMark + 1, markHandedOff := false }
  else g

/-- The mark that must be durable before the term may be revealed. -/
def termMark : ℕ :=
  if g.hardStateDirty ∧ g.hsMark < g.dirtyMark then g.dirtyMark else g.hsMark

def send (mark snapMark : ℕ) (m : Message) : Gate :=
  if mark = 0 ∧ snapMark = 0 ∧ g.termMark = 0 then { g with msgs := g.msgs ++ [m] }
  else { g with gated := g.gated ++
    [{ msg := m, mark := mark, snapMark := snapMark, termMark := g.termMark }] }

/-- Change the hard state. -/
def set (hs : HardState) : Gate :=
  if g.hs ≠ hs then { g with hs := hs, hardStateDirty := true }.dirty else g

/-- Move the messages that satisfy `p` out. -/
def release (p : GatedMessage → Bool) : Gate :=
  { g with
    msgs := g.msgs ++ (g.gated.filter p).map (·.msg)
    gated := g.gated.filter fun x => !p x }

/-- Hand the open mark over; a changed hard state travels under it. -/
def handOver : Gate :=
  { g with
    hsMark := if g.hardStateDirty then g.dirtyMark else g.hsMark
    markHandedOff := true
    msgs := []
    hardStateDirty := false }

/-- Close the open mark, which covers nothing. -/
def closeOpen : Gate :=
  { g with
    dirtyMark := 0
    markHandedOff := false
    gated := g.gated.map (Raft.strike g.dirtyMark) }

/-- Every mark up to `m` has landed. -/
def land (m : ℕ) : Gate :=
  { g with
    persisted := m
    hsMark := if g.hsMark ≤ m then 0 else g.hsMark
    dirtyMark := if g.dirtyMark ≤ m then 0 else g.dirtyMark
    markHandedOff := if g.dirtyMark ≠ 0 ∧ g.dirtyMark ≤ m then false else g.markHandedOff }

/-- The marks, the hard states on disk and in flight, and the messages that wait for them. -/
structure Inv (g : Gate) (d : Journal Disk) : Prop where
  ordered : d.Ordered
  persisted_le : g.persisted ≤ g.nextMark
  inFlight_gt : ∀ x ∈ d.inFlight, g.persisted < x.1
  inFlight_le : ∀ x ∈ d.inFlight, x.1 ≤ g.nextMark
  open_le : g.dirtyMark ≤ g.nextMark
  open_gt : g.dirtyMark ≠ 0 → g.persisted < g.dirtyMark
  inFlight_le_open : g.dirtyMark ≠ 0 → ∀ x ∈ d.inFlight, x.1 ≤ g.dirtyMark
  inFlight_lt_open : g.dirtyMark ≠ 0 → g.markHandedOff = false →
    ∀ x ∈ d.inFlight, x.1 < g.dirtyMark
  hsMark_le : g.hsMark ≤ g.nextMark
  hsMark_gt : g.hsMark ≠ 0 → g.persisted < g.hsMark
  hsMark_lt_open : g.dirtyMark ≠ 0 → g.markHandedOff = false → g.hsMark < g.dirtyMark
  /-- A changed hard state waits under an open mark that was not handed over. -/
  dirty_open : g.hardStateDirty = true → g.dirtyMark ≠ 0 ∧ g.markHandedOff = false
  /-- An unchanged hard state is the newest one handed over. -/
  current : g.hardStateDirty = false → d.newest.hs = g.hs
  /-- From the mark of the last handed hard state on, nothing else is written. -/
  settled : g.hardStateDirty = false → ∀ x ∈ d.inFlight, g.hsMark ≤ x.1 → x.2.hs = g.hs
  settled_stable : g.hardStateDirty = false → g.hsMark = 0 → d.stable.hs = g.hs
  gated_le : ∀ w ∈ g.gated, w.termMark ≤ g.nextMark
  /-- A message waits for the open mark only while the hard state is dirty. -/
  gated_open : ∀ w ∈ g.gated, g.dirtyMark ≠ 0 → g.markHandedOff = false →
    w.termMark = g.dirtyMark → g.hardStateDirty = true
  gated_current : ∀ w ∈ g.gated, g.hs.Attests w.msg
  gated_inFlight : ∀ w ∈ g.gated, ∀ x ∈ d.inFlight, w.termMark ≤ x.1 → x.2.hs.Attests w.msg
  gated_stable : ∀ w ∈ g.gated, w.termMark ≤ g.persisted → d.stable.hs.Attests w.msg
  msgs_current : ∀ m ∈ g.msgs, g.hs.Attests m
  msgs_inFlight : ∀ m ∈ g.msgs, ∀ x ∈ d.inFlight, x.2.hs.Attests m
  msgs_stable : ∀ m ∈ g.msgs, d.stable.hs.Attests m

variable {g} {d : Journal Disk}

namespace Inv

section

variable (hi : g.Inv d)
include hi

theorem dirty : g.dirty.Inv d := by
  unfold Gate.dirty
  split_ifs with h
  · have hlt : ∀ x ∈ d.inFlight, x.1 < g.nextMark + 1 := fun x hx => by
      have := hi.inFlight_le x hx
      omega
    have hp := hi.persisted_le
    have hm := hi.hsMark_le
    refine { hi with
      persisted_le := ?_, inFlight_le := ?_, open_le := ?_, open_gt := ?_, inFlight_le_open := ?_,
      inFlight_lt_open := ?_, hsMark_le := ?_, hsMark_lt_open := ?_, dirty_open := ?_,
      gated_le := ?_, gated_open := ?_ }
    · show g.persisted ≤ g.nextMark + 1
      omega
    · exact fun x hx => (hlt x hx).le
    · exact le_rfl
    · intro _
      show g.persisted < g.nextMark + 1
      omega
    · exact fun _ x hx => (hlt x hx).le
    · exact fun _ _ => hlt
    · show g.hsMark ≤ g.nextMark + 1
      omega
    · intro _ _
      show g.hsMark < g.nextMark + 1
      omega
    · exact fun _ => ⟨Nat.succ_ne_zero _, rfl⟩
    · exact fun w hw => (hi.gated_le w hw).trans (Nat.le_succ _)
    · intro w hw _ _ hw'
      have := hi.gated_le w hw
      simp only at hw'
      omega
  · exact hi

theorem drop {gs : List GatedMessage} (h : gs.Sublist g.gated) : Inv { g with gated := gs } d :=
  { hi with
    gated_le := fun w hw => hi.gated_le w (h.subset hw)
    gated_open := fun w hw => hi.gated_open w (h.subset hw)
    gated_current := fun w hw => hi.gated_current w (h.subset hw)
    gated_inFlight := fun w hw => hi.gated_inFlight w (h.subset hw)
    gated_stable := fun w hw => hi.gated_stable w (h.subset hw) }

theorem emit (hc : g.hs.Attests m) (hf : ∀ x ∈ d.inFlight, x.2.hs.Attests m)
    (hs : d.stable.hs.Attests m) : Inv { g with msgs := g.msgs ++ [m] } d := by
  refine { hi with msgs_current := ?_, msgs_inFlight := ?_, msgs_stable := ?_ }
  all_goals
    intro m' hm'
    rcases mem_append.mp hm' with hm' | hm'
  · exact hi.msgs_current m' hm'
  · exact mem_singleton.mp hm' ▸ hc
  · exact hi.msgs_inFlight m' hm'
  · exact mem_singleton.mp hm' ▸ hf
  · exact hi.msgs_stable m' hm'
  · exact mem_singleton.mp hm' ▸ hs

theorem send (mark snapMark : ℕ) (ha : g.hs.Attests m) : (g.send mark snapMark m).Inv d := by
  -- What the term's mark leads to attests the message: a dirty hard state has not been handed
  -- over, and a clean one is the newest on its way.
  have htm : (g.hardStateDirty = true ∧ g.termMark = g.dirtyMark) ∨
      (g.hardStateDirty = false ∧ g.termMark = g.hsMark) := by
    unfold termMark
    cases hd : g.hardStateDirty
    · simp
    · obtain ⟨ho, hh⟩ := hi.dirty_open hd
      simp [hi.hsMark_lt_open ho hh]
  have hf : ∀ x ∈ d.inFlight, g.termMark ≤ x.1 → x.2.hs.Attests m := by
    intro x hx hle
    rcases htm with ⟨hd, ht⟩ | ⟨hd, ht⟩
    · obtain ⟨ho, hh⟩ := hi.dirty_open hd
      have := hi.inFlight_lt_open ho hh x hx
      omega
    · rw [hi.settled hd x hx (ht ▸ hle)]
      exact ha
  have hs : g.termMark ≤ g.persisted → d.stable.hs.Attests m := by
    intro hle
    rcases htm with ⟨hd, ht⟩ | ⟨hd, ht⟩
    · obtain ⟨ho, -⟩ := hi.dirty_open hd
      have := hi.open_gt ho
      omega
    · have hz : g.hsMark = 0 := by
        by_contra hne
        have := hi.hsMark_gt hne
        omega
      rw [hi.settled_stable hd hz]
      exact ha
  unfold Gate.send
  split_ifs with h
  · exact hi.emit ha (fun x hx => hf x hx (h.2.2 ▸ Nat.zero_le _)) (hs (h.2.2 ▸ Nat.zero_le _))
  · refine { hi with
      gated_le := ?_, gated_open := ?_, gated_current := ?_, gated_inFlight := ?_,
      gated_stable := ?_ }
    all_goals
      intro w hw
      rcases mem_append.mp hw with hw | hw
    · exact hi.gated_le w hw
    · rw [mem_singleton.mp hw]
      rcases htm with ⟨-, ht⟩ | ⟨-, ht⟩
      · exact ht ▸ hi.open_le
      · exact ht ▸ hi.hsMark_le
    · exact hi.gated_open w hw
    · rw [mem_singleton.mp hw]
      intro ho hh heq
      rcases htm with ⟨hd, -⟩ | ⟨-, ht⟩
      · exact hd
      · have := hi.hsMark_lt_open ho hh
        rw [ht] at heq
        exact absurd heq this.ne
    · exact hi.gated_current w hw
    · rw [mem_singleton.mp hw]
      exact ha
    · exact hi.gated_inFlight w hw
    · rw [mem_singleton.mp hw]
      exact hf
    · exact hi.gated_stable w hw
    · rw [mem_singleton.mp hw]
      exact hs

theorem set (hle : g.hs.Le hs) : (g.set hs).Inv d := by
  unfold Gate.set
  split_ifs with h
  · -- With the mark opened first, only the promises of the queues have to be carried over.
    have hd := hi.dirty
    have hopen : g.dirty.dirtyMark ≠ 0 ∧ g.dirty.markHandedOff = false := by
      unfold Gate.dirty
      split_ifs with h
      · exact ⟨Nat.succ_ne_zero _, rfl⟩
      · exact ⟨fun h' => h (.inl h'), by simpa using fun h' => h (.inr h')⟩
    have hset : Inv { g.dirty with hs := hs, hardStateDirty := true } d := by
      have hgs : g.dirty.gated = g.gated ∧ g.dirty.msgs = g.msgs := by
        unfold Gate.dirty
        split_ifs <;> exact ⟨rfl, rfl⟩
      refine { hd with
        dirty_open := fun _ => hopen, current := fun h => absurd h (by simp)
        settled := fun h => absurd h (by simp), settled_stable := fun h => absurd h (by simp)
        gated_open := fun _ _ _ _ _ => rfl, gated_current := ?_, msgs_current := ?_ }
      · exact fun w hw => (hi.gated_current w (hgs.1 ▸ hw)).mono hle
      · exact fun m hm => (hi.msgs_current m (hgs.2 ▸ hm)).mono hle
    have heq : Gate.dirty { g with hs := hs, hardStateDirty := true } =
        { g.dirty with hs := hs, hardStateDirty := true } := by
      unfold Gate.dirty
      split_ifs <;> rfl
    exact heq ▸ hset
  · exact hi

theorem release {p : GatedMessage → Bool} (hp : ∀ w, p w → w.termMark ≤ g.persisted) :
    (g.release p).Inv d := by
  have hdrop : Inv { g with gated := g.gated.filter fun x => !p x } d :=
    hi.drop filter_sublist
  have hmem : ∀ m ∈ g.msgs ++ (g.gated.filter p).map (·.msg),
      m ∈ g.msgs ∨ ∃ w ∈ g.gated, w.termMark ≤ g.persisted ∧ w.msg = m := by
    intro m hm
    rcases mem_append.mp hm with hm | hm
    · exact .inl hm
    · obtain ⟨w, hw, rfl⟩ := mem_map.mp hm
      obtain ⟨hw, hpw⟩ := mem_filter.mp hw
      exact .inr ⟨w, hw, hp w hpw, rfl⟩
  refine { hdrop with msgs_current := ?_, msgs_inFlight := ?_, msgs_stable := ?_ }
  all_goals
    intro m hm
    rcases hmem m hm with hm | ⟨w, hw, hle, rfl⟩
  · exact hi.msgs_current m hm
  · exact hi.gated_current w hw
  · exact hi.msgs_inFlight m hm
  · exact fun x hx => hi.gated_inFlight w hw x hx (hle.trans (hi.inFlight_gt x hx).le)
  · exact hi.msgs_stable m hm
  · exact hi.gated_stable w hw hle

theorem handOver_push (ho : g.dirtyMark ≠ 0) {a : Disk} (ha : a.hs = g.hs) :
    g.handOver.Inv (d.push g.dirtyMark a) := by
  have hle := hi.inFlight_le_open ho
  refine
    { ordered := hi.ordered.push hle
      persisted_le := hi.persisted_le
      inFlight_gt := ?_, inFlight_le := ?_
      open_le := hi.open_le
      open_gt := hi.open_gt
      inFlight_le_open := ?_
      inFlight_lt_open := fun _ h => absurd h (by simp [handOver])
      hsMark_le := ?_, hsMark_gt := ?_
      hsMark_lt_open := fun _ h => absurd h (by simp [handOver])
      dirty_open := fun h => absurd h (by simp [handOver])
      current := fun _ => by rw [Journal.newest_push]; exact ha
      settled := ?_, settled_stable := ?_
      gated_le := hi.gated_le
      gated_open := fun _ _ _ h => absurd h (by simp [handOver])
      gated_current := hi.gated_current
      gated_inFlight := ?_
      gated_stable := hi.gated_stable
      msgs_current := fun _ h => absurd h (by simp [handOver])
      msgs_inFlight := fun _ h => absurd h (by simp [handOver])
      msgs_stable := fun _ h => absurd h (by simp [handOver]) }
  · intro x hx
    rcases Journal.mem_push.mp hx with hx | rfl
    · exact hi.inFlight_gt x hx
    · exact hi.open_gt ho
  · intro x hx
    rcases Journal.mem_push.mp hx with hx | rfl
    · exact hi.inFlight_le x hx
    · exact hi.open_le
  · intro _ x hx
    rcases Journal.mem_push.mp hx with hx | rfl
    · exact hle x hx
    · exact le_rfl
  · show (if g.hardStateDirty then g.dirtyMark else g.hsMark) ≤ g.nextMark
    split_ifs
    · exact hi.open_le
    · exact hi.hsMark_le
  · show (if g.hardStateDirty then g.dirtyMark else g.hsMark) ≠ 0 →
      g.persisted < if g.hardStateDirty then g.dirtyMark else g.hsMark
    split_ifs
    · exact fun _ => hi.open_gt ho
    · exact hi.hsMark_gt
  · intro _ x hx
    rcases Journal.mem_push.mp hx with hx | rfl
    · show (if g.hardStateDirty then g.dirtyMark else g.hsMark) ≤ x.1 → x.2.hs = g.hs
      split_ifs with hd
      · have := hi.inFlight_lt_open ho (hi.dirty_open hd).2 x hx
        exact fun h => absurd h (by omega)
      · exact hi.settled (by simpa using hd) x hx
    · exact fun _ => ha
  · intro _
    show (if g.hardStateDirty then g.dirtyMark else g.hsMark) = 0 → d.stable.hs = g.hs
    split_ifs with hd
    · exact fun h => absurd h ho
    · exact hi.settled_stable (by simpa using hd)
  · intro w hw x hx
    rcases Journal.mem_push.mp hx with hx | rfl
    · exact hi.gated_inFlight w hw x hx
    · intro _
      show a.hs.Attests w.msg
      rw [ha]
      exact hi.gated_current w hw

/-- A drain that hands nothing over under an open mark only empties the queue. -/
theorem flush : Inv { g with msgs := [] } d :=
  { hi with
    msgs_current := fun _ h => absurd h (by simp)
    msgs_inFlight := fun _ h => absurd h (by simp)
    msgs_stable := fun _ h => absurd h (by simp) }

theorem handOver_keep (ho : g.dirtyMark = 0) : g.handOver.Inv d := by
  have hd : g.hardStateDirty = false := by
    cases h : g.hardStateDirty
    · rfl
    · exact absurd ho (hi.dirty_open h).1
  have hg : g.handOver = { g with msgs := [], markHandedOff := true } := by
    simp [handOver, hd]
  rw [hg]
  exact { hi.flush with
    inFlight_lt_open := fun h => absurd ho h
    hsMark_lt_open := fun h => absurd ho h
    dirty_open := fun h => absurd (hd.symm.trans h) (by simp)
    gated_open := fun _ _ h => absurd ho h }

theorem closeOpen (ho : g.dirtyMark ≠ 0) (hh : g.markHandedOff = false)
    (hd : g.hardStateDirty = false) : g.closeOpen.Inv d := by
  have hmem : ∀ w ∈ g.gated.map (Raft.strike g.dirtyMark), ∃ w' ∈ g.gated,
      w'.msg = w.msg ∧ w'.termMark = w.termMark := by
    intro w hw
    obtain ⟨w', hw', rfl⟩ := mem_map.mp hw
    refine ⟨w', hw', rfl, ?_⟩
    have hne : w'.termMark ≠ g.dirtyMark := fun h =>
      absurd (hd.symm.trans (hi.gated_open w' hw' ho hh h)) (by simp)
    simp [Raft.strike, hne]
  refine { hi with
    open_le := Nat.zero_le _
    open_gt := fun h => absurd rfl h
    inFlight_le_open := fun h => absurd rfl h
    inFlight_lt_open := fun h => absurd rfl h
    hsMark_lt_open := fun h => absurd rfl h
    dirty_open := fun h => absurd (hd.symm.trans h) (by simp)
    gated_le := ?_
    gated_open := fun _ _ h => absurd rfl h
    gated_current := ?_, gated_inFlight := ?_, gated_stable := ?_ }
  all_goals
    intro w hw
    obtain ⟨w', hw', hm, ht⟩ := hmem w hw
  · exact ht ▸ hi.gated_le w' hw'
  · exact hm ▸ hi.gated_current w' hw'
  · rw [← hm, ← ht]
    exact hi.gated_inFlight w' hw'
  · rw [← hm, ← ht]
    exact hi.gated_stable w' hw'

end

end Inv

/-- A mark that is open after others have landed was open before, and newer than they are. -/
theorem land_open {m : ℕ} (ho : (g.land m).dirtyMark ≠ 0) :
    (g.land m).dirtyMark = g.dirtyMark ∧ (g.land m).markHandedOff = g.markHandedOff ∧
      m < g.dirtyMark := by
  have hlt : ¬ g.dirtyMark ≤ m := fun h => ho (if_pos h)
  exact ⟨if_neg hlt, if_neg fun h => hlt h.2, not_le.mp hlt⟩

/-- A landed mark leaves the hard state its own write announced, and whatever waited for a mark
up to it is attested by that. -/
theorem Inv.land (hi : g.Inv d) {m : ℕ} (hm : m ∈ d.inFlight.map Prod.fst) :
    (g.land m).Inv (d.land m) := by
  obtain ⟨y, hy, hym, hstable⟩ := Journal.land_stable hi.ordered hm
  have hsub : ∀ x ∈ (d.land m).inFlight, x ∈ d.inFlight ∧ m < x.1 := fun x hx =>
    Journal.mem_land.mp hx
  have hs : (g.land m).hsMark = if g.hsMark ≤ m then 0 else g.hsMark := rfl
  refine
    { ordered := hi.ordered.land m
      persisted_le := hym ▸ hi.inFlight_le y hy
      inFlight_gt := fun x hx => (hsub x hx).2
      inFlight_le := fun x hx => hi.inFlight_le x (hsub x hx).1
      open_le := ?_, open_gt := ?_, inFlight_le_open := ?_, inFlight_lt_open := ?_
      hsMark_le := ?_, hsMark_gt := ?_, hsMark_lt_open := ?_, dirty_open := ?_
      current := fun hd => by rw [Journal.newest_land hi.ordered]; exact hi.current hd
      settled := ?_, settled_stable := ?_
      gated_le := hi.gated_le
      gated_open := ?_
      gated_current := hi.gated_current
      gated_inFlight := fun w hw x hx => hi.gated_inFlight w hw x (hsub x hx).1
      gated_stable := ?_
      msgs_current := hi.msgs_current
      msgs_inFlight := fun w hw x hx => hi.msgs_inFlight w hw x (hsub x hx).1
      msgs_stable := ?_ }
  · show (if g.dirtyMark ≤ m then 0 else g.dirtyMark) ≤ g.nextMark
    split_ifs
    · exact Nat.zero_le _
    · exact hi.open_le
  · intro ho
    obtain ⟨h, -, hlt⟩ := land_open ho
    exact h ▸ hlt
  · intro ho x hx
    obtain ⟨h, -, -⟩ := land_open ho
    rw [h] at ho ⊢
    exact hi.inFlight_le_open ho x (hsub x hx).1
  · intro ho hh x hx
    obtain ⟨h, h', -⟩ := land_open ho
    rw [h] at ho ⊢
    exact hi.inFlight_lt_open ho (h' ▸ hh) x (hsub x hx).1
  · rw [hs]
    split_ifs
    · exact Nat.zero_le _
    · exact hi.hsMark_le
  · rw [hs]
    split_ifs with h
    · exact fun h => absurd rfl h
    · exact fun _ => not_le.mp h
  · intro ho hh
    obtain ⟨h, h', -⟩ := land_open ho
    rw [h] at ho ⊢
    have := hi.hsMark_lt_open ho (h' ▸ hh)
    rw [hs]
    split_ifs <;> omega
  · -- The open mark of a dirty hard state is newer than every mark in flight.
    intro hd
    obtain ⟨ho, hh⟩ := hi.dirty_open hd
    have hlt : ¬ g.dirtyMark ≤ m := not_le.mpr (hym ▸ hi.inFlight_lt_open ho hh y hy)
    have h₁ : (g.land m).dirtyMark = g.dirtyMark := if_neg hlt
    have h₂ : (g.land m).markHandedOff = g.markHandedOff := if_neg fun h => hlt h.2
    exact ⟨h₁ ▸ ho, h₂ ▸ hh⟩
  · intro hd x hx hle
    refine hi.settled hd x (hsub x hx).1 ?_
    have := (hsub x hx).2
    rw [hs] at hle
    split_ifs at hle <;> omega
  · intro hd hz
    rw [hstable]
    refine hi.settled hd y hy ?_
    rw [hs] at hz
    split_ifs at hz <;> omega
  · intro w hw ho hh heq
    obtain ⟨h, h', -⟩ := land_open ho
    rw [h] at ho heq
    exact hi.gated_open w hw ho (h' ▸ hh) heq
  · intro w hw hle
    rw [hstable]
    exact hi.gated_inFlight w hw y hy (hym ▸ hle)
  · intro w hw
    rw [hstable]
    exact hi.msgs_inFlight w hw y hy

end Gate

/-! ### The gate of a node -/

namespace Raft

variable {r r' : Raft}

/-- The hard state a node would hand over now. -/
def hardState (r : Raft) : HardState := { term := r.term, vote := r.vote }

def gate (r : Raft) : Gate where
  hs := r.hardState
  hardStateDirty := r.hardStateDirty
  dirtyMark := r.dirtyMark
  markHandedOff := r.markHandedOff
  nextMark := r.nextMark
  persisted := r.persisted
  hsMark := r.hsMark
  gated := r.gated
  msgs := r.msgs

theorem gate_dirty (r : Raft) : r.dirty.gate = r.gate.dirty := by
  unfold dirty Gate.dirty
  show (if r.dirtyMark = 0 ∨ r.markHandedOff = true then _ else r).gate =
    if r.dirtyMark = 0 ∨ r.markHandedOff = true then _ else _
  split_ifs <;> rfl

theorem gate_sendGatedOn (r : Raft) (mark snapMark : ℕ) (m : Message) :
    (r.sendGatedOn mark snapMark m).gate = r.gate.send mark snapMark m := by
  have ht : r.termMark = r.gate.termMark := rfl
  unfold sendGatedOn Gate.send
  rw [ht]
  split_ifs <;> rfl

theorem gate_setTermAndVote (r : Raft) (t : ℕ) (v : NodeID) :
    (r.setTermAndVote t v).gate = r.gate.set ⟨t, v⟩ := by
  unfold setTermAndVote Gate.set
  have hne : (r.term ≠ t ∨ r.vote ≠ v) ↔ r.gate.hs ≠ ⟨t, v⟩ := by
    show _ ↔ (⟨r.term, r.vote⟩ : HardState) ≠ ⟨t, v⟩
    simp only [ne_eq, HardState.mk.injEq, not_and_or]
  by_cases h : r.term ≠ t ∨ r.vote ≠ v
  · rw [if_pos h, if_pos (hne.mp h), gate_dirty]
    rfl
  · rw [if_neg h, if_neg (mt hne.mpr h)]

theorem gate_setVote (r : Raft) (v : NodeID) :
    (r.setVote v).gate = r.gate.set ⟨r.term, v⟩ := by
  rw [setVote_eq, gate_setTermAndVote]

theorem gate_release (r : Raft) : r.release.gate = r.gate.release r.released := rfl

theorem gate_extend (r : Raft) (e : Entry) : (r.extend e).gate = r.gate.dirty := by
  unfold extend
  split_ifs <;> rw [gate_dirty] <;> rfl

theorem gate_installSnapshot (r : Raft) (m : Message) (conf : Configuration) :
    (r.installSnapshot m conf).gate = r.gate.dirty := by
  show (recomputeConf { r with log := [], baseConf := conf } |>.replaceLog m).dirty.gate = _
  rw [gate_dirty]
  rfl

theorem gate_dropMark (r : Raft) : (r.dropMark r.dirtyMark).gate = r.gate.closeOpen := by
  simp [dropMark, gate, Gate.closeOpen, hardState]

theorem gate_takeOutputs (hd : r.hardStateDirty = false) : r.takeOutputs.gate = r.gate := by
  show Gate.mk _ _ _ _ _ _ (if r.hardStateDirty then _ else _) _ _ = _
  rw [hd]
  rfl

end Raft

theorem Gate.set_hs (g : Gate) (hs : HardState) : (g.set hs).hs = hs := by
  unfold Gate.set Gate.dirty
  split_ifs with h
  · rfl
  · rfl
  · exact not_not.mp h

/-- What an effect can do to the gate. -/
inductive GateStep : Gate → Gate → Prop
  | dirty (g) : GateStep g g.dirty
  | drop (g : Gate) {gs} (h : gs.Sublist g.gated) : GateStep g { g with gated := gs }
  | send (g : Gate) (mark snapMark : ℕ) {m} (h : g.hs.Speaks m) :
    GateStep g (g.send mark snapMark m)
  | emit (g : Gate) {m : Message} (h : m.type.ungated) :
    GateStep g { g with msgs := g.msgs ++ [m] }
  | set (g : Gate) {hs} (h : g.hs.Le hs) : GateStep g (g.set hs)

theorem Gate.Inv.step {g g' : Gate} (hi : g.Inv d) (h : GateStep g g') : g'.Inv d := by
  cases h with
  | dirty => exact hi.dirty
  | drop h => exact hi.drop h
  | send mark snapMark h => exact hi.send mark snapMark h.attests
  | emit h => exact hi.emit (.inl h) (fun _ _ => .inl h) (.inl h)
  | set h => exact hi.set h

/-- A sequence of steps of the gate. -/
abbrev GateSteps : Gate → Gate → Prop := Relation.ReflTransGen GateStep

theorem Gate.Inv.steps {g g' : Gate} (hi : g.Inv d) (h : GateSteps g g') : g'.Inv d := by
  induction h with
  | refl => exact hi
  | tail _ h ih => exact ih.step h

namespace Raft

variable {r r' : Raft} {c : Call}

theorem sendGatedOn_gateStep (r : Raft) (mark snapMark : ℕ) (ht : m.term = r.term)
    (hp : m.promised = none) : GateStep r.gate (r.sendGatedOn mark snapMark m).gate := by
  rw [gate_sendGatedOn]
  exact .send _ _ _ (HardState.speaks_of_term ht hp)

theorem extend_gateStep (r : Raft) (e : Entry) : GateStep r.gate (r.extend e).gate := by
  rw [gate_extend]
  exact .dirty r.gate

theorem storeEntry_gateSteps {e : Entry} (h : r.storeEntry e = .ok r') :
    GateSteps r.gate r'.gate := by
  rcases storeEntry_cases h with ⟨-, -, rfl⟩ | ⟨-, -, -, -, rfl⟩ | ⟨-, rfl⟩
  · exact .refl
  · have hcut : GateStep r.gate (r.cutFrom e.index).gate := .drop r.gate filter_sublist
    exact .tail (.single hcut) (extend_gateStep _ e)
  · exact .single (extend_gateStep r e)

theorem storeEntries_gateSteps {es : List Entry} (h : es.foldlM storeEntry r = .ok r') :
    GateSteps r.gate r'.gate :=
  foldlM_inv (P := fun r' => GateSteps r.gate r'.gate)
    (fun _ _ _ _ h₁ h₂ => h₁.trans (storeEntry_gateSteps h₂)) .refl h

theorem acknowledge_gateStep {i : ℕ} (h : r.acknowledge m i = .ok r') :
    GateStep r.gate r'.gate := by
  obtain ⟨lm, sm, -, rfl⟩ := acknowledge_eq h
  exact sendGatedOn_gateStep r lm sm rfl rfl

theorem commitUpTo_gate (r : Raft) (i j : ℕ) : (r.commitUpTo i j).gate = r.gate :=
  commitUpTo_proj r i j gate fun _ _ => rfl

theorem installSnapshot_gateStep (r : Raft) (m : Message) (conf : Configuration) :
    GateStep r.gate (r.installSnapshot m conf).gate := by
  rw [gate_installSnapshot]
  exact .dirty r.gate

theorem reveals_gateStep (h : Reveals c r m) : GateStep r.gate (r.sendGated m).gate := by
  cases h with
  | vote dest _ hv =>
    unfold sendGated
    rw [gate_sendGatedOn]
    exact .send _ _ _ (HardState.speaks_of_vote rfl rfl hv)
  | refuse m => exact sendGatedOn_gateStep r 0 0 rfl rfl
  | app dest next _ _ => exact sendGatedOn_gateStep r 0 0 rfl rfl
  | reject m hint => exact sendGatedOn_gateStep r 0 0 rfl rfl
  | readIndex ctx _ => exact sendGatedOn_gateStep r 0 0 rfl rfl
  | readIndexResp q _ _ _ => exact sendGatedOn_gateStep r 0 0 rfl rfl

end Raft

open Raft

theorem Micro.gateSteps {o r r' : Raft} (h : Micro c o r r') : GateSteps r.gate r'.gate := by
  cases h with
  | soft h => rw [h.proj Raft.gate fun _ => rfl]
  | bump m _ hlt _ =>
    show GateSteps r.gate (r.setTermAndVote m.term 0).gate
    rw [gate_setTermAndVote]
    exact .single (.set r.gate (.inl hlt))
  | campaign _ _ _ =>
    show GateSteps r.gate (r.takeCandidacy.setTermAndVote (r.term + 1) r.id).gate
    rw [gate_setTermAndVote]
    exact .single (.set r.gate (.inl (Nat.lt_succ_self _)))
  | grant m _ _ ht hv _ =>
    have hset : GateStep r.gate (r.setVote m.fromID).gate := by
      rw [gate_setVote]
      exact .set r.gate (.inr ⟨rfl, hv⟩)
    refine .head hset ?_
    show GateSteps (r.setVote m.fromID).resetElection.gate _
    unfold sendGated
    rw [gate_sendGatedOn]
    have hs : (r.setVote m.fromID).gate.hs = ⟨r.term, m.fromID⟩ := by
      rw [gate_setVote, Gate.set_hs]
    exact .single (.send _ _ _ (HardState.speaks_of_vote (congrArg HardState.term hs).symm rfl
      (congrArg HardState.vote hs)))
  | reveal msg hm => exact .single (reveals_gateStep hm)
  | ungated msg hm => exact .single (.emit r.gate (by cases hm <;> rfl))
  | append e _ _ _ _ _ => exact .single (extend_gateStep r e)
  | accept r₁ _ m _ _ _ _ _ _ hs ha =>
    refine (storeEntries_gateSteps hs).tail ?_
    have := acknowledge_gateStep ha
    rwa [commitUpTo_gate] at this
  | covered _ m _ _ _ _ _ _ _ ha => exact .single (acknowledge_gateStep ha)
  | dropAcks => exact .single (.drop r.gate filter_sublist)
  | install r₁ m conf _ _ _ _ _ _ _ _ _ hr' =>
    subst hr'
    exact .tail (.single (installSnapshot_gateStep r m conf))
      (sendGatedOn_gateStep _ _ _ rfl rfl)
  | ackApplied i _ =>
    unfold Raft.ackApplied
    split_ifs <;> exact .refl
  | _ => exact .refl

/-! ### Whole runs -/

theorem Micros.gateSteps {o r r' : Raft} (h : Micros c o r r') : GateSteps r.gate r'.gate := by
  induction h with
  | refl => exact .refl
  | tail _ h ih => exact ih.trans h.gateSteps

theorem Gate.Inv.start (d : Disk) :
    Inv ⟨d.hs, false, 0, false, 0, 0, 0, [], []⟩ { stable := d } := by
  constructor <;> simp [Journal.Ordered, Journal.newest]

namespace Server

variable {s s' s₀ : Server} {c : Call} {rep : Reply} {rd : Ready} {m : ℕ}

/-- The invariant of a server: its gate agrees with the disk. -/
def GateInv (s : Server) : Prop := s.raft.gate.Inv s.disk

theorem Starts.gateInv (h : Starts s) : s.GateInv := by
  cases h with
  | new h => exact new_eq h ▸ Gate.Inv.start {}
  | @restore cfg hs snap entries r h =>
    exact (restore_eq h).1 ▸ Gate.Inv.start { hs := hs, log := entries }

theorem termMark_le_of_released {r : Raft} {w : GatedMessage} (h : r.released w) :
    w.termMark ≤ r.persisted := by
  simp only [released, Bool.and_eq_true, decide_eq_true_eq] at h
  exact h.1.2

theorem write_hs (d : Disk) (r : Raft) (entries committed : List Entry)
    (h : r.hardStateDirty = false → d.hs = r.hardState) :
    (d.write (r.output entries committed)).hs = r.hardState := by
  show (r.changedHardState).getD d.hs = r.hardState
  unfold changedHardState
  cases hd : r.hardStateDirty
  · exact h hd
  · rfl

theorem gate_handOver (r : Raft) (entries : List Entry) :
    (r.takeOutputs.handOver entries).flushed.gate = r.gate.handOver := rfl

/-- A drain that finds nothing to hand over closes the open mark, for which no message that
reveals the term waits. -/
theorem GateInv.idle (hi : s.GateInv) (hd : s.raft.hardStateDirty = false) :
    s.raft.takeOutputs.closeIdle.flushed.gate.Inv s.disk := by
  have ht := gate_takeOutputs hd
  have hclose : s.raft.takeOutputs.closeIdle.gate.Inv s.disk := by
    unfold closeIdle
    split_ifs with ho
    · obtain ⟨ho, hh⟩ := ho
      rw [Bool.not_eq_true'] at hh
      have hclosed := Gate.Inv.closeOpen (ht ▸ hi : s.raft.takeOutputs.gate.Inv s.disk) ho hh hd
      exact Gate.Inv.release (gate_dropMark _ ▸ hclosed) fun w hw => termMark_le_of_released hw
    · exact ht ▸ hi
  have hdirty : s.raft.takeOutputs.closeIdle.hardStateDirty = false := by
    unfold closeIdle closeEmptyMark
    split_ifs <;> exact hd
  have hflush : s.raft.takeOutputs.closeIdle.flushed.gate =
      { s.raft.takeOutputs.closeIdle.gate with msgs := [] } := by
    show Gate.mk _ false _ _ _ _ _ _ _ = Gate.mk _ _ _ _ _ _ _ _ _
    rw [← hdirty]
    rfl
  rw [hflush]
  exact hclose.flush

theorem gate_landed (r : Raft) (m : ℕ) :
    ((r.landed m).closeThrough m).gate = r.gate.land m := by
  have hhs : (if r.hsMark ≠ 0 ∧ r.hsMark ≤ m then 0 else r.hsMark) =
      if r.hsMark ≤ m then 0 else r.hsMark := by
    split_ifs <;> omega
  have hopen : (if r.dirtyMark ≠ 0 ∧ r.dirtyMark ≤ m then 0 else r.dirtyMark) =
      if r.dirtyMark ≤ m then 0 else r.dirtyMark := by
    split_ifs <;> omega
  have hp : (if m < m then m else m) = m := ite_self m
  show Gate.mk r.hardState r.hardStateDirty
    (if r.dirtyMark ≠ 0 ∧ r.dirtyMark ≤ m then 0 else r.dirtyMark) _ r.nextMark
    (if m < m then m else m) (if r.hsMark ≠ 0 ∧ r.hsMark ≤ m then 0 else r.hsMark) r.gated r.msgs = _
  rw [hhs, hopen, hp]
  rfl

theorem mem_inFlight_of_admitsMark (ha : s.admitsMark (.ackPersisted m))
    (hm : s.raft.persisted < m) : m ∈ s.disk.inFlight.map Prod.fst := by
  simpa [admitsMark, not_le.mpr hm] using ha

theorem GateInv.landed (hi : s.GateInv) (hm : m ∈ s.disk.inFlight.map Prod.fst) :
    ((s.raft.landed m).closeThrough m).gate.Inv (s.disk.land m) := by
  rw [gate_landed]
  exact Gate.Inv.land hi hm

theorem GateInv.landMarks (hi : s.GateInv) (hm : m ∈ s.disk.inFlight.map Prod.fst) :
    (s.raft.landMarks m).gate.Inv (s.disk.land m) :=
  (hi.landed hm).release fun _ hw => termMark_le_of_released hw

theorem GateInv.exec (hi : s.GateInv) (ha : s.admitsMark c) (h : s.exec c = .ok (s', rep)) :
    s'.GateInv := by
  obtain ⟨r, hx, rfl⟩ := exec_raft h
  unfold GateInv
  rw [record_raft]
  cases exec_executed hx with
  | plain hp hm =>
    rw [record_plain s hp]
    exact hi.steps hm.gateSteps
  | handOver _ _ _ =>
    rw [gate_handOver]
    show Gate.Inv _ (if s.raft.dirtyMark = 0 then _ else _)
    split_ifs with ho
    · exact Gate.Inv.handOver_keep hi ho
    · exact Gate.Inv.handOver_push hi ho (write_hs _ _ _ _ hi.current)
  | idle _ _ hd => exact hi.idle hd
  | staleAck hm =>
    rw [record_staleAck s hm]
    exact hi
  | ack hm hs =>
    rw [record_ack s hm]
    exact (hi.landMarks (mem_inFlight_of_admitsMark ha hm)).steps hs.gateSteps
  | staleSnap _ => exact hi
  | @ackSnap m _ =>
    have hland : (s.raft.snapLanded m).gate.Inv s.disk := hi
    exact hland.release fun w hw => termMark_le_of_released hw
  | uncompacted => exact hi
  | recompacted _ => exact hi
  | compacted _ _ _ _ _ => exact hi

theorem GateInv.run (h₀ : s₀.Starts)
    (hrun : Relation.ReflTransGen (Step fun s c => s.admitsMark c) s₀ s) : s.GateInv := by
  induction hrun with
  | refl => exact h₀.gateInv
  | tail _ hstep ih =>
    obtain ⟨c, rep, ha, hx⟩ := hstep
    exact ih.exec ha hx

theorem drained_messages (h : s.exec .ready = .ok (s', .drained rd)) :
    rd.messages = s.raft.msgs := by
  obtain ⟨r, hx, -⟩ := exec_raft h
  cases exec_executed hx with
  | plain hp _ => cases hp
  | handOver _ _ _ => rfl
  | idle _ _ _ => rfl

/-- Persist before reply: as long as no counter reaches the end of its 64 bits, a drained message
reveals no term beyond the durable hard state, and a vote granted to a candidate is the durable vote
of its term, or the durable term has moved on. -/
theorem drained_message_durable (h₀ : s₀.Starts)
    (hrun : Relation.ReflTransGen (Step fun s c => s.admitsMark c && s.inRange c) s₀ s)
    (h : s.exec .ready = .ok (s', .drained rd)) (m : Message) (hm : m ∈ rd.messages)
    (ht : m.type.ungated = false) :
    m.term ≤ s.disk.stable.hs.term ∧
      (m.type = .voteResp → m.granted = true → m.toID ≠ 0 →
        m.term < s.disk.stable.hs.term ∨
          (m.term = s.disk.stable.hs.term ∧ s.disk.stable.hs.vote = m.toID)) := by
  have hinv := GateInv.run h₀ (steps_mono (fun _ _ hp => (Bool.and_eq_true_iff.mp hp).1) hrun)
  rw [drained_messages h] at hm
  rcases hinv.msgs_stable m hm with hu | ⟨hterm, hvote⟩
  · exact absurd (ht.symm.trans hu) (by simp)
  · refine ⟨hterm, fun htype hg hne => ?_⟩
    have hp : m.promised = some m.toID := by simp [Message.promised, htype, hg]
    rcases hvote m.toID hp hne with hlt | hv
    · exact .inl hlt
    · rcases hterm.lt_or_eq with hlt | heq
      · exact .inl hlt
      · exact .inr ⟨heq, hv⟩

/-- The first of three voters. -/
def firstOfThree : Config :=
  { id := 1, peers := [1, 2, 3], electionTimeout := 10, heartbeatTimeout := 1 }

/-- A follower of a cluster of three, to be asked for its vote. -/
def askedFollower : Server := { raft := Raft.fresh firstOfThree }

theorem askedFollower_starts : askedFollower.Starts := @Starts.new firstOfThree _ rfl

/-- A vote request of a candidate with an empty log. -/
def voteRequest (candidate : NodeID) (term : ℕ) : Call :=
  .step { type := .vote, fromID := candidate, toID := 1, term := term }

/-- An append of nothing, from the leader of term 1. -/
def heartbeatOfOne : Call :=
  .step { type := .app, fromID := 2, toID := 1, term := 1 }

theorem drained_vote_durable : ∃ (s s' : Server) (rd : Ready) (m : Message),
    Relation.ReflTransGen (Step fun s c => s.admitsMark c && s.inRange c) askedFollower s ∧
      s.exec .ready = .ok (s', .drained rd) ∧ m ∈ rd.messages ∧ m.granted = true ∧
      (m.term < s.disk.stable.hs.term ∨
        (m.term = s.disk.stable.hs.term ∧ s.disk.stable.hs.vote = m.toID)) := by
  obtain ⟨s, hrun, hq⟩ := exists_run (p := fun s c => s.admitsMark c && s.inRange c)
    (s := askedFollower) [voteRequest 2 5, .ready, .ackPersisted 1]
    (fun s => s.drain?.any fun x => x.2.messages.any fun m =>
      m.type = .voteResp && m.granted && m.toID ≠ 0) (by decide +kernel)
  obtain ⟨⟨s', rd⟩, hd, hq⟩ := Option.any_eq_true _ _ |>.mp hq
  obtain ⟨m, hm, hq⟩ := any_eq_true.mp hq
  simp only [Bool.and_eq_true, decide_eq_true_eq] at hq
  have hx := exec_ready_of_drain? hd
  have ht : m.type.ungated = false := by rw [hq.1.1]; rfl
  exact ⟨s, s', rd, m, hrun, hx, hm, hq.1.2,
    (drained_message_durable askedFollower_starts hrun hx m hm ht).2 hq.1.1 hq.1.2 hq.2⟩

/-- A vote may be granted to node zero, which is no candidate, and then to another candidate of
the same term: what the first grant promised is never durable. -/
theorem granted_to_nobody_not_durable : ∃ (s s' : Server) (rd : Ready) (m : Message),
    askedFollower.Starts ∧
      Relation.ReflTransGen (Step fun s c => s.admitsMark c && s.inRange c) askedFollower s ∧
      s.exec .ready = .ok (s', .drained rd) ∧ m ∈ rd.messages ∧
      m.type = .voteResp ∧ m.granted = true ∧
      ¬ (m.term < s.disk.stable.hs.term ∨
        (m.term = s.disk.stable.hs.term ∧ s.disk.stable.hs.vote = m.toID)) := by
  obtain ⟨s, hrun, hq⟩ := exists_run (p := fun s c => s.admitsMark c && s.inRange c)
    (s := askedFollower) [voteRequest 0 5, voteRequest 2 5, .ready, .ackPersisted 1]
    (fun s => s.drain?.any fun x => x.2.messages.any fun m =>
      m.type = .voteResp && m.granted && !(m.term < s.disk.stable.hs.term ||
        (m.term = s.disk.stable.hs.term && s.disk.stable.hs.vote = m.toID))) (by decide +kernel)
  obtain ⟨⟨s', rd⟩, hd, hq⟩ := Option.any_eq_true _ _ |>.mp hq
  obtain ⟨m, hm, hq⟩ := any_eq_true.mp hq
  simp only [Bool.and_eq_true, decide_eq_true_eq, Bool.not_eq_true', Bool.or_eq_false_iff,
    decide_eq_false_iff_not] at hq
  refine ⟨s, s', rd, m, askedFollower_starts, hrun, exec_ready_of_drain? hd, hm, hq.1.1, hq.1.2, ?_⟩
  simpa using hq.2

end Server

end Rift
