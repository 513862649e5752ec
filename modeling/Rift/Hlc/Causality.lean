import Rift.Hlc.Envelope

/-!
# Causes before effects

Nodes stamp what they send and fold the stamp of what they receive into their clocks. A message is
handled even when its stamp is refused, so stamps follow causality only if none is. None is refused as
long as a physical clock that takes a message is at most the bound behind the highest reading: no
clock is ahead of every reading.
-/

namespace Rift

open Clock Hlc

variable {wall : Int64} {t : Timestamp}

/-- A timestamp inside the envelope of a reading is accepted. -/
theorem Clock.update_eq_ok {c : Clock} (hw : 0 ≤ wall.toInt) (ht : 0 ≤ t.wall.toInt)
    (hle : t.wall.toInt ≤ wall.toInt + c.maxOffset.toInt) :
    (c.update wall t).1 = .ok () ∧ (c.update wall t).2.updatesRefused = c.updatesRefused := by
  have hin : ¬ c.maxOffset < t.wall - wall := by
    have hw' := wall.toInt_lt
    have ht' := t.wall.toInt_lt
    rw [Int64.lt_iff_toInt_lt, Int64.toInt_sub, Int.bmod_eq_of_le (by omega) (by omega)]
    omega
  simp only [update, if_neg hin]
  split <;> exact ⟨rfl, rfl⟩

/-- A node is at or above all it has seen, has refused nothing, and is not ahead of every reading. -/
structure Session.Current (top : ℤ) (s : Session) : Prop where
  above : s.Above
  refused : s.clock.updatesRefused = 0
  low : 0 ≤ s.clock.last.wall.toInt
  high : s.clock.last.wall.toInt ≤ top

namespace Session.Current

variable {top : ℤ} {s : Session}

theorem now (hs : s.Current top) (hroom : s.hasRoom (.now wall)) :
    (s.step (.now wall)).Current (max top wall.toInt) := by
  have hwall : (s.step (.now wall)).clock.last.wall.toInt =
      max s.clock.last.wall.toInt wall.toInt := by
    rw [← wall_after, ← now_eq, ← last_now]
    rfl
  have hkeep : (s.clock.now wall).2.updatesRefused = s.clock.updatesRefused := by
    unfold Clock.now
    split <;> rfl
  refine ⟨hs.above.step hroom, hkeep.trans hs.refused, ?_, ?_⟩
  · exact hwall ▸ hs.low.trans (le_max_left _ _)
  · exact hwall ▸ max_le_max_right _ hs.high

theorem receive {past : List Timestamp} (hs : s.Current top) (hroom : s.hasRoom (.update wall t))
    (hw : 0 ≤ wall.toInt) (hskew : top ≤ wall.toInt + s.clock.maxOffset.toInt)
    (ht : 0 ≤ t.wall.toInt ∧ t.wall.toInt ≤ top) (hpast : ∀ u ∈ past, u < t) :
    Current (max top wall.toInt)
      { clock := (s.clock.update wall t).2, seen := t :: (past ++ s.seen) } := by
  obtain ⟨hok, hkeep⟩ := update_eq_ok hw ht.1 (ht.2.trans hskew)
  have hlt := Takes.max_lt ⟨hok, hroom hok⟩
  have hwall := (congrArg (·.wall.toInt) (last_of_update_eq_ok (Prod.ext hok rfl))).trans
    (wall_after s.clock wall (max s.clock.last t))
  refine ⟨fun u hu => ?_, hkeep.trans hs.refused, ?_, ?_⟩
  · -- What came with the stamp lies below it, and the clock moves above the stamp.
    rcases List.mem_cons.mp hu with rfl | hu
    · exact (le_max_right _ _).trans hlt.le
    rcases List.mem_append.mp hu with hu | hu
    · exact ((hpast u hu).le.trans (le_max_right _ _)).trans hlt.le
    · exact ((hs.above u hu).trans (le_max_left _ _)).trans hlt.le
  · exact hwall ▸ hw.trans (le_max_right _ _)
  · refine hwall ▸ max_le_max_right _ ?_
    rcases max_choice s.clock.last t with heq | heq <;> rw [heq]
    exacts [hs.high, ht.2]

end Session.Current

/-- Nodes that exchange stamps. What a node has seen is what has happened before, `sent` holds every
stamp with what had happened before it, and `top` is the highest reading of a physical clock. -/
structure Exchange (ι : Type*) where
  node : ι → Session
  sent : List (Timestamp × List Timestamp) := []
  top : ℤ := 0

namespace Exchange

variable {ι : Type*} [DecidableEq ι]

inductive Event (ι : Type*)
  | send (i : ι) (wall : Int64)
  | receive (i : ι) (wall : Int64) (m : Timestamp × List Timestamp)

def step (w : Exchange ι) : Event ι → Exchange ι
  | .send i wall =>
    let s := w.node i
    { node := Function.update w.node i (s.step (.now wall))
      sent := ((s.clock.now wall).1, s.seen) :: w.sent
      top := max w.top wall.toInt }
  | .receive i wall (t, past) =>
    let s := w.node i
    { w with
      node := Function.update w.node i
        { clock := (s.clock.update wall t).2, seen := t :: (past ++ s.seen) }
      top := max w.top wall.toInt }

/-- What is received was sent, and the physical clock of the receiver is at most the bound behind. No
counter is exhausted. -/
def allows (w : Exchange ι) : Event ι → Prop
  | .send i wall => (w.node i).hasRoom (.now wall)
  | .receive i wall m => m ∈ w.sent ∧ (w.node i).hasRoom (.update wall m.1) ∧ 0 ≤ wall.toInt ∧
      w.top ≤ wall.toInt + (w.node i).clock.maxOffset.toInt

instance (w : Exchange ι) (ev : Event ι) : Decidable (w.allows ev) := by
  cases ev <;> (unfold allows; infer_instance)

/-- Every node is current, and every stamp is above what had happened before it. -/
structure Causal (w : Exchange ι) : Prop where
  node : ∀ i, (w.node i).Current w.top
  sent : ∀ m ∈ w.sent, (0 ≤ m.1.wall.toInt ∧ m.1.wall.toInt ≤ w.top) ∧ ∀ u ∈ m.2, u < m.1

theorem Causal.step {w : Exchange ι} {ev : Event ι} (h : w.Causal) (hok : w.allows ev) :
    (w.step ev).Causal := by
  have hupdate : ∀ {i s wall}, s.Current (max w.top wall) →
      ∀ k, (Function.update w.node i s k).Current (max w.top wall) := fun hs =>
    (Function.forall_update_iff w.node fun _ s => s.Current _).mpr
      ⟨hs, fun k _ => { h.node k with high := (h.node k).high.trans (le_max_left _ _) }⟩
  have hsent : ∀ {wall : ℤ}, ∀ m ∈ w.sent,
      (0 ≤ m.1.wall.toInt ∧ m.1.wall.toInt ≤ max w.top wall) ∧ ∀ u ∈ m.2, u < m.1 := fun m hm =>
    (h.sent m hm).imp_left (And.imp_right le_max_of_le_left)
  cases ev with
  | send i wall =>
    have hnow := (h.node i).now hok
    have hlast := last_now (w.node i).clock wall
    refine ⟨hupdate hnow, List.forall_mem_cons.mpr ⟨⟨?_, fun u hu => ?_⟩, hsent⟩⟩
    · exact ⟨hlast ▸ hnow.low, hlast ▸ hnow.high⟩
    · exact ((h.node i).above u hu).trans_lt (last_lt_now hok)
  | receive i wall m =>
    obtain ⟨hm, hroom, hw, hskew⟩ := hok
    obtain ⟨ht, hpast⟩ := h.sent m hm
    exact ⟨hupdate ((h.node i).receive hroom hw hskew ht hpast), hsent⟩

/-- **Causes before effects.** In every run of new clocks that stamp, send and receive in any order,
over physical clocks that stay within the bound of each other and counters that are not exhausted:
every stamp is above every stamp that happened before it, on its node or through messages, and no
clock has refused a stamp. -/
theorem sent_after_past {c : ι → Clock} {o : Int64} {n : ι → UInt32}
    (hnew : ∀ i, Clock.new o (n i) = .ok (c i)) {es : List (Event ι)}
    (h : Follows Exchange.step allows { node := fun i => { clock := c i } } es) :
    let w := es.foldl Exchange.step { node := fun i => { clock := c i } }
    (∀ m ∈ w.sent, ∀ u ∈ m.2, u < m.1) ∧ ∀ i, (w.node i).clock.updatesRefused = 0 := by
  intro w
  have hw : w.Causal := by
    refine h.invariant (fun _ _ hw hok => hw.step hok) ⟨fun i => ?_, by simp⟩
    have hi := hnew i
    unfold Clock.new at hi
    split at hi
    · change Session.Current 0 { clock := c i }
      rw [← Except.ok.inj hi]
      exact ⟨by simp [Session.Above], rfl, le_rfl, le_rfl⟩
    · cases hi
  exact ⟨fun m hm => (hw.sent m hm).2, fun i => (hw.node i).refused⟩

/-- The clocks of nodes 0 and 1. -/
def twoClocks (i : Bool) : Clock :=
  { id := i.toUInt32, id_le := by cases i <;> decide, maxOffset := 1000 }

/-- A node that is behind stamps its answer above what it was asked. -/
theorem sent_after_past_answer :
    let ask : Timestamp := { wall := 1600, logical := 1 }
    let answer : Timestamp := { wall := 1600, logical := 512 }
    let w := [.send true 1600, .receive false 1000 (ask, []), .send false 1000].foldl Exchange.step
      { node := fun i => { clock := twoClocks i } }
    (answer, [ask]) ∈ w.sent ∧ ask < answer := by
  intro ask answer w
  have hmem : (answer, [ask]) ∈ w.sent := by decide
  have h := @sent_after_past Bool _ twoClocks 1000 Bool.toUInt32 (fun i => by cases i <;> rfl)
    [.send true 1600, .receive false 1000 (ask, []), .send false 1000] (by decide)
  exact ⟨hmem, h.1 _ hmem ask (by simp)⟩

end Exchange

end Rift
