import Rift.Kv.Timestamp
import Rift.Lib.Runs

/-!
# The hybrid clock

`hlc.Clock`: the last timestamp it issued or absorbed, over a physical clock that may stand still or
go back. Every timestamp it mints carries the ordinal of its node in the low bits of the counter. The
counter is a 32-bit number and `nextTagged` adds to it without a carry into the wall: at the top of
the range the successor of a timestamp is below it.

A call takes the reading of the physical clock as an argument; the bound on the disagreement of the
physical clocks is fixed when the clock is built.
-/

namespace Rift

namespace Hlc

/-- How much of the counter the ordinal of a node occupies. -/
def idBits : UInt32 := 8

/-- The largest ordinal a clock can carry. -/
def maxNodeID : UInt32 := (1 <<< idBits) - 1

def logicalStep : UInt32 := 1 <<< idBits

def logicalMask : UInt32 := logicalStep - 1

/-- The next timestamp at `after`'s wall that carries `id` in its low bits. -/
def nextTagged (after : Timestamp) (id : UInt32) : Timestamp :=
  let base := after.logical &&& ~~~ logicalMask
  let cand := base ||| id
  if after.logical < cand then { wall := after.wall, logical := cand }
  else { wall := after.wall, logical := base + logicalStep + id }

/-- Whichever of two timestamps orders later. -/
def later (a b : Timestamp) : Timestamp := if a.less b then b else a

@[simp] theorem later_eq_max (a b : Timestamp) : later a b = max a b := by
  unfold later
  split
  · next h => exact (max_eq_right (Timestamp.less_iff.mp h).le).symm
  · next h => exact (max_eq_left (Timestamp.less_eq_false_iff.mp (Bool.eq_false_iff.mpr h))).symm

/-- Which node minted a timestamp. -/
def nodeOf (t : Timestamp) : UInt32 := t.logical &&& logicalMask

theorem clear_add_keep (a m : UInt32) : (a &&& ~~~ m) + (a &&& m) = a := by
  apply UInt32.toBitVec_inj.mp
  simp only [UInt32.toBitVec_add, UInt32.toBitVec_and, UInt32.toBitVec_not]
  rw [BitVec.add_eq_or_of_and_eq_zero]
  · ext i hi
    cases h : a.toBitVec[i] <;> simp [h]
  · ext i hi
    cases h : m.toBitVec[i] <;> simp [h]

theorem toNat_keep (a : UInt32) : (a &&& logicalMask).toNat = a.toNat % 256 := by
  rw [UInt32.toNat_and]
  exact Nat.and_two_pow_sub_one_eq_mod a.toNat 8

theorem toNat_base (a : UInt32) : (a &&& ~~~ logicalMask).toNat = a.toNat / 256 * 256 := by
  have hsum := congrArg UInt32.toNat (clear_add_keep a logicalMask)
  have hle : (a &&& ~~~ logicalMask).toNat ≤ a.toNat := by
    rw [UInt32.toNat_and]
    exact Nat.and_le_left
  have hlt := a.toNat_lt
  rw [UInt32.toNat_add, toNat_keep] at hsum
  omega

variable {id : UInt32}

theorem toNat_le_of_le (hid : id ≤ maxNodeID) : id.toNat ≤ 255 :=
  UInt32.le_iff_toNat_le.mp hid

theorem toNat_cand {a : UInt32} (hid : id ≤ maxNodeID) :
    ((a &&& ~~~ logicalMask) ||| id).toNat = a.toNat / 256 * 256 + id.toNat := by
  have hlt : id.toNat < 2 ^ 8 := Nat.lt_succ_of_le (toNat_le_of_le hid)
  rw [UInt32.toNat_or, toNat_base, Nat.mul_comm]
  exact (Nat.two_pow_add_eq_or_of_lt hlt _).symm

@[simp] theorem wall_nextTagged (after : Timestamp) (id : UInt32) :
    (nextTagged after id).wall = after.wall := by
  simp only [nextTagged]
  split <;> rfl

/-- The counter of the successor: the next number with these low bits, cut to its width. -/
theorem logical_nextTagged (after : Timestamp) (hid : id ≤ maxNodeID) :
    (nextTagged after id).logical.toNat =
      if after.logical.toNat % 256 < id.toNat then after.logical.toNat / 256 * 256 + id.toNat
      else (after.logical.toNat / 256 * 256 + 256 + id.toNat) % 2 ^ 32 := by
  have hcand := toNat_cand (a := after.logical) hid
  have hstep : logicalStep.toNat = 256 := rfl
  unfold nextTagged
  simp only [UInt32.lt_iff_toNat_lt, hcand]
  split <;> split
  · exact hcand
  · omega
  · omega
  · rw [UInt32.toNat_add, UInt32.toNat_add, toNat_base, hstep]
    omega

/-- The counter has room for one more timestamp of a node. -/
def HasRoom (after : Timestamp) (id : UInt32) : Prop :=
  after.logical.toNat < 2 ^ 32 - 256 + id.toNat

instance (after : Timestamp) (id : UInt32) : Decidable (HasRoom after id) :=
  inferInstanceAs (Decidable (after.logical.toNat < 2 ^ 32 - 256 + id.toNat))

/-- A successor is above its argument exactly when the counter has room for it. -/
theorem lt_nextTagged_iff {after : Timestamp} (hid : id ≤ maxNodeID) :
    after < nextTagged after id ↔ HasRoom after id := by
  have hid' := toNat_le_of_le hid
  have hlt := after.logical.toNat_lt
  rw [Timestamp.lt_iff, wall_nextTagged, logical_nextTagged after hid, HasRoom]
  split <;> omega

/-- Whatever a clock mints carries its ordinal, with room or without. -/
theorem nodeOf_nextTagged (after : Timestamp) (hid : id ≤ maxNodeID) :
    nodeOf (nextTagged after id) = id := by
  have hid' := toNat_le_of_le hid
  apply UInt32.toNat_inj.mp
  rw [nodeOf, toNat_keep, logical_nextTagged after hid]
  split <;> omega

/-- A reading of the physical clock is above every timestamp with a lower wall. -/
theorem lt_of_wall_lt {t u : Timestamp} (h : t.wall < u.wall) : t < u :=
  Timestamp.lt_iff.mpr (Or.inl (Int64.lt_iff_toInt_lt.mp h))

end Hlc

open Hlc

/-! ### The clock -/

/-- Why a clock refuses. -/
inductive ClockError
  /-- The ordinal does not fit in the low bits. -/
  | ordinal (node : UInt32)
  /-- A peer's timestamp is further ahead of the physical reading than the bound. -/
  | beyondEnvelope (peer phys : Timestamp) (bound : Int64)
  deriving DecidableEq, Repr

/-- A hybrid clock of one node, whose ordinal fits in the low bits of the counter. -/
structure Clock where
  id : UInt32
  id_le : id ≤ maxNodeID
  /-- The bound on how far the physical clocks disagree. -/
  maxOffset : Int64
  /-- The last timestamp issued or absorbed. -/
  last : Timestamp := {}
  updatesRefused : ℕ := 0
  physRegressions : ℕ := 0
  deriving DecidableEq

namespace Clock

def new (maxOffset : Int64) (node : UInt32) : Except ClockError Clock :=
  if h : node ≤ maxNodeID then .ok { id := node, id_le := h, maxOffset := maxOffset }
  else .error (.ordinal node)

/-- The next timestamp from this clock. -/
def now (c : Clock) (wall : Int64) : Timestamp × Clock :=
  if c.last.wall < wall then
    -- the physical clock has moved past everything issued: the counter restarts at the node's slot
    let t : Timestamp := { wall := wall, logical := c.id }
    (t, { c with last := t })
  else
    let t := nextTagged c.last c.id
    (t, { c with last := t, physRegressions := c.physRegressions + 1 })

/-- Fold a received timestamp in, and refuse one beyond the envelope. -/
def update (c : Clock) (wall : Int64) (m : Timestamp) : Except ClockError Unit × Clock :=
  -- the difference of the walls is a 64-bit one: it wraps
  if c.maxOffset < m.wall - wall then
    (.error (.beyondEnvelope m { wall := wall } c.maxOffset),
      { c with updatesRefused := c.updatesRefused + 1 })
  else
    let lb := later c.last m
    if lb.wall < wall then (.ok (), { c with last := { wall := wall, logical := c.id } })
    else (.ok (), { c with last := nextTagged lb c.id })

/-- Where a clock goes from a lower bound when its physical clock reads `wall`: to the reading if that
is ahead, and to the next timestamp of its node otherwise. -/
def after (c : Clock) (wall : Int64) (lb : Timestamp) : Timestamp :=
  if lb.wall < wall then { wall := wall, logical := c.id } else nextTagged lb c.id

variable (c : Clock) (wall : Int64) {m : Timestamp} {c' : Clock}

@[simp] theorem last_now : (c.now wall).2.last = (c.now wall).1 := by
  unfold now
  split <;> rfl

theorem now_eq : (c.now wall).1 = c.after wall c.last := by
  unfold now after
  split <;> rfl

/-- The successor of a lower bound at a reading does not wrap. -/
def RoomAfter (lb : Timestamp) : Prop := lb.wall < wall ∨ HasRoom lb c.id

instance (lb : Timestamp) : Decidable (c.RoomAfter wall lb) :=
  inferInstanceAs (Decidable (lb.wall < wall ∨ HasRoom lb c.id))

variable {c wall}

theorem lt_after_iff {lb : Timestamp} : lb < c.after wall lb ↔ c.RoomAfter wall lb := by
  unfold after RoomAfter
  split
  · next h => exact iff_of_true (lt_of_wall_lt h) (Or.inl h)
  · next h =>
    rw [lt_nextTagged_iff c.id_le]
    exact (or_iff_right h).symm

/-- An accepted update moves the clock from the later of the two timestamps. -/
theorem last_of_update_eq_ok (h : c.update wall m = (.ok (), c')) :
    c'.last = c.after wall (max c.last m) := by
  simp only [update, later_eq_max] at h
  unfold after
  split at h
  · cases h
  · split at h <;> cases h <;> simp [*]

/-- An update that is accepted does not exhaust the counter. -/
def KeepsUp (c : Clock) (wall : Int64) (m : Timestamp) : Prop :=
  (c.update wall m).1 = .ok () → c.RoomAfter wall (max c.last m)

instance (m : Timestamp) : Decidable (c.KeepsUp wall m) :=
  inferInstanceAs (Decidable (_ → _))

/-- An update is accepted and does not exhaust the counter. -/
def Takes (c : Clock) (wall : Int64) (m : Timestamp) : Prop :=
  (c.update wall m).1 = .ok () ∧ c.RoomAfter wall (max c.last m)

theorem last_of_update_eq_error {e : ClockError} (h : c.update wall m = (.error e, c')) :
    c'.last = c.last := by
  simp only [update] at h
  split at h
  · cases h
    rfl
  · split at h <;> cases h

theorem Takes.max_lt (h : c.Takes wall m) : max c.last m < (c.update wall m).2.last := by
  rw [last_of_update_eq_ok (Prod.ext h.1 rfl)]
  exact lt_after_iff.mpr h.2

theorem KeepsUp.last_le (h : c.KeepsUp wall m) : c.last ≤ (c.update wall m).2.last := by
  cases hres : (c.update wall m).1 with
  | ok u => exact (le_max_left _ _).trans (Takes.max_lt ⟨hres, h hres⟩).le
  | error e => exact (last_of_update_eq_error (Prod.ext hres rfl)).ge

theorem last_lt_now (h : c.RoomAfter wall c.last) : c.last < (c.now wall).1 := by
  rw [now_eq]
  exact lt_after_iff.mpr h

end Clock

/-! ### Sessions -/

/-- A call of a clock, with the reading of the physical clock at that time. -/
inductive Clock.Call
  | now (wall : Int64)
  | update (wall : Int64) (m : Timestamp)
  deriving DecidableEq, Repr

/-- A clock, and the timestamps it has returned from `now` and accepted by `update`. -/
structure Session where
  clock : Clock
  seen : List Timestamp := []
  deriving DecidableEq

namespace Session

open Clock

def step (s : Session) : Call → Session
  | .now wall =>
    let (t, c) := s.clock.now wall
    { clock := c, seen := t :: s.seen }
  | .update wall m =>
    match s.clock.update wall m with
    | (.ok (), c) => { clock := c, seen := m :: s.seen }
    | (.error _, c) => { s with clock := c }

/-- The timestamp a call takes the successor of leaves room for it. -/
def hasRoom (s : Session) : Call → Prop
  | .now wall => s.clock.RoomAfter wall s.clock.last
  | .update wall m => s.clock.KeepsUp wall m

instance (s : Session) (call : Call) : Decidable (s.hasRoom call) := by
  cases call <;> (unfold hasRoom; infer_instance)

/-- The clock is at or above everything it has returned and accepted. -/
def Above (s : Session) : Prop := ∀ t ∈ s.seen, t ≤ s.clock.last

theorem Above.step {s : Session} {call : Call} (hs : s.Above) (hroom : s.hasRoom call) :
    (s.step call).Above := by
  cases call with
  | now wall =>
    have hlt := last_lt_now hroom
    intro t ht
    rcases List.mem_cons.mp ht with rfl | hmem
    · exact (last_now s.clock wall).ge
    · exact ((hs t hmem).trans hlt.le).trans (last_now s.clock wall).ge
  | update wall m =>
    have hle := KeepsUp.last_le hroom
    simp only [Session.step]
    split
    · next c heq =>
      have hok : (s.clock.update wall m).1 = .ok () := congrArg Prod.fst heq
      have hlt := Takes.max_lt ⟨hok, hroom hok⟩
      rw [heq] at hlt
      intro t ht
      rcases List.mem_cons.mp ht with rfl | hmem
      · exact (le_max_right _ _).trans hlt.le
      · exact ((hs t hmem).trans (le_max_left _ _)).trans hlt.le
    · next c heq =>
      rw [heq] at hle
      exact fun t ht => (hs t ht).trans hle

theorem above_run {s : Session} {calls : List Call} (hs : s.Above)
    (h : Follows Session.step Session.hasRoom s calls) : (calls.foldl Session.step s).Above :=
  h.invariant (fun _ _ hs hroom => hs.step hroom) hs

/-- A value returned by `now` is above every value returned before and every timestamp accepted
before, in every run of calls in which no successor exhausts the counter. -/
theorem now_above_seen (c : Clock) (calls : List Call) (wall : Int64)
    (h : Follows Session.step Session.hasRoom { clock := c } (calls ++ [.now wall]))
    {t : Timestamp} (ht : t ∈ (calls.foldl Session.step { clock := c }).seen) :
    t < ((calls.foldl Session.step { clock := c }).clock.now wall).1 := by
  obtain ⟨hcalls, hnow, -⟩ := follows_append.mp h
  have habove := above_run (s := { clock := c }) (by simp [Above]) hcalls
  exact (habove t ht).trans_lt (last_lt_now hnow)

/-- The clock of node 1, with a bound of one second. -/
def one : Clock := { id := 1, id_le := by decide, maxOffset := 1000000000 }

/-- A clock that absorbs a timestamp half a second ahead, and stays above it while its physical clock
stands still and then goes back. -/
theorem now_above_seen_one :
    ∃ calls wall, Follows Session.step Session.hasRoom { clock := one } (calls ++ [.now wall]) ∧
      ∃ t, t ∈ (calls.foldl Session.step { clock := one }).seen ∧
        t < ((calls.foldl Session.step { clock := one }).clock.now wall).1 := by
  have hrun : Follows Session.step Session.hasRoom { clock := one }
      ([.now 1000, .update 1000 { wall := 500001000, logical := 7 }] ++ [.now 999]) := by decide
  exact ⟨_, 999, hrun, { wall := 500001000, logical := 7 }, by decide,
    now_above_seen one _ _ hrun (by decide)⟩

/-- A timestamp inside the envelope with the highest counter is accepted, and the next value the clock
returns is below it. -/
theorem now_below_accepted :
    let m : Timestamp := { wall := 1000, logical := 0xFFFFFFFF }
    (one.update 1000 m).1 = .ok () ∧ ((one.update 1000 m).2.now 1000).1 < m := by
  decide

end Session

end Rift
