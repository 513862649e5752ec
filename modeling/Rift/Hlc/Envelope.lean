import Rift.Hlc.Clock

/-!
# The envelope of a hybrid clock

Two facts hold along every run of calls, whatever timestamps the clock is fed. What it returns carries
its own ordinal, so that clocks of different nodes never return the same value. And its wall stays
within `maxOffset` of the highest reading it has taken: an accepted timestamp is measured against the
reading and not against the clock, so a bound that two clocks feed each other does not grow.

The timestamps a clock absorbs are arguments of its calls: a run of two clocks that exchange values,
in whatever order, is a run of each of them.
-/

namespace Rift

variable {c : Clock}

namespace Clock

open Hlc

/-- The reading of the physical clock a call takes. -/
def Call.wall : Call → Int64
  | .now w => w
  | .update w _ => w

theorem nodeOf_after (c : Clock) (wall : Int64) (lb : Timestamp) :
    nodeOf (c.after wall lb) = c.id := by
  unfold after
  split
  · apply UInt32.toNat_inj.mp
    rw [nodeOf, toNat_keep]
    exact Nat.mod_eq_of_lt (Nat.lt_succ_of_le (toNat_le_of_le c.id_le))
  · exact nodeOf_nextTagged lb c.id_le

/-- A clock goes to the wall of its lower bound or to the reading, whichever is higher. -/
theorem wall_after (c : Clock) (wall : Int64) (lb : Timestamp) :
    (c.after wall lb).wall.toInt = max lb.wall.toInt wall.toInt := by
  unfold after
  split
  · next h => exact (max_eq_right (Int64.lt_iff_toInt_lt.mp h).le).symm
  · next h =>
    rw [wall_nextTagged]
    exact (max_eq_left (not_lt.mp fun hlt => h (Int64.lt_iff_toInt_lt.mpr hlt))).symm

variable {m : Timestamp} {wall : Int64}

/-- A timestamp is accepted only inside the envelope of a reading that is not negative. The
difference of the walls wraps below, where the timestamp is far in the past. -/
theorem wall_le_of_accepted {c' : Clock} (hw : 0 ≤ wall.toInt) (ho : 0 ≤ c.maxOffset.toInt)
    (h : c.update wall m = (.ok (), c')) : m.wall.toInt ≤ wall.toInt + c.maxOffset.toInt := by
  have hin : ¬ c.maxOffset < m.wall - wall := by
    intro hlt
    simp only [update, if_pos hlt] at h
    cases h
  have hle := not_lt.mp fun hlt => hin (Int64.lt_iff_toInt_lt.mpr hlt)
  rw [Int64.toInt_sub] at hle
  have hm := m.wall.toInt_lt
  have hm' := m.wall.le_toInt
  have hw' := wall.toInt_lt
  rcases Int.lt_or_le (m.wall.toInt) 0 with hneg | hpos
  · omega
  · rw [Int.bmod_eq_of_le (by omega) (by omega)] at hle
    omega

/-- The wall after an update: the clock's own, the reading's or the timestamp's, the last one only
when the timestamp was accepted. -/
theorem last_wall_update {B : ℤ} (hw : 0 ≤ wall.toInt) (ho : 0 ≤ c.maxOffset.toInt)
    (hlast : c.last.wall.toInt ≤ B) (hB : wall.toInt + c.maxOffset.toInt ≤ B) :
    (c.update wall m).2.last.wall.toInt ≤ B := by
  cases hres : (c.update wall m).1 with
  | error e =>
    rw [last_of_update_eq_error (Prod.ext hres rfl)]
    exact hlast
  | ok u =>
    have hin := wall_le_of_accepted hw ho (Prod.ext hres rfl)
    rw [last_of_update_eq_ok (Prod.ext hres rfl), wall_after]
    -- the lower bound is one of the two timestamps, and both walls are inside
    rcases max_choice c.last m with heq | heq <;> rw [heq] <;> omega

@[simp] theorem id_now (c : Clock) (wall : Int64) : (c.now wall).2.id = c.id := by
  unfold now
  split <;> rfl

@[simp] theorem maxOffset_now (c : Clock) (wall : Int64) :
    (c.now wall).2.maxOffset = c.maxOffset := by
  unfold now
  split <;> rfl

@[simp] theorem id_update (c : Clock) (wall : Int64) (m : Timestamp) :
    (c.update wall m).2.id = c.id := by
  simp only [update]
  split
  · rfl
  · split <;> rfl

@[simp] theorem maxOffset_update (c : Clock) (wall : Int64) (m : Timestamp) :
    (c.update wall m).2.maxOffset = c.maxOffset := by
  simp only [update]
  split
  · rfl
  · split <;> rfl

end Clock

open Clock Hlc

/-- A clock, the timestamps `now` has returned, and the readings of the physical clock so far. -/
structure Issuer where
  clock : Clock
  issued : List Timestamp := []
  readings : List Int64 := []
  deriving DecidableEq

namespace Issuer

def step (s : Issuer) : Call → Issuer
  | .now wall =>
    let (t, c) := s.clock.now wall
    { clock := c, issued := t :: s.issued, readings := wall :: s.readings }
  | .update wall m =>
    { s with clock := (s.clock.update wall m).2, readings := wall :: s.readings }

theorem issued_step_now (s : Issuer) (wall : Int64) :
    (s.step (.now wall)).issued = (s.clock.now wall).1 :: s.issued := rfl

/-- The highest reading taken; zero before the first one, where the clock stands. -/
def highest (s : Issuer) : ℤ := (s.readings.map Int64.toInt).foldr max 0

/-- What a run keeps: the clock's constants, the tag on what was returned, and the envelope. -/
structure Within (o : Int64) (n : UInt32) (s : Issuer) : Prop where
  maxOffset : s.clock.maxOffset = o
  id : s.clock.id = n
  tagged : ∀ t ∈ s.issued, nodeOf t = n
  last : s.clock.last.isSet → nodeOf s.clock.last = n
  envelope : 0 ≤ o.toInt → s.clock.last.wall.toInt ≤ s.highest + o.toInt

variable {o : Int64} {n : UInt32} {s : Issuer}

theorem Within.of_new (h : Clock.new o n = .ok c) : Within o n { clock := c } := by
  unfold Clock.new at h
  split at h
  · cases h
    exact ⟨rfl, rfl, by simp, by simp [Timestamp.isSet], fun ho => by
      simpa [highest] using ho⟩
  · cases h

theorem Within.step {call : Call} (hs : Within o n s) (hw : 0 ≤ call.wall.toInt) :
    Within o n (s.step call) := by
  -- the highest reading only grows, and it is at least the one just taken
  have hhigh : (s.step call).highest = max call.wall.toInt s.highest := by
    cases call <;> rfl
  cases call with
  | now wall =>
    have hnow : nodeOf (s.clock.now wall).1 = n := by rw [now_eq, nodeOf_after, hs.id]
    refine ⟨by simp [Issuer.step, hs.maxOffset], by simp [Issuer.step, hs.id], ?_, ?_, ?_⟩
    · intro t ht
      rw [issued_step_now] at ht
      rcases List.mem_cons.mp ht with rfl | hmem
      · exact hnow
      · exact hs.tagged t hmem
    · exact fun _ => (congrArg nodeOf (last_now s.clock wall)).trans hnow
    · intro ho
      have henv := hs.envelope ho
      have hlast : (s.step (.now wall)).clock.last.wall.toInt =
          max s.clock.last.wall.toInt wall.toInt := by
        rw [← wall_after, ← now_eq, ← last_now]
        rfl
      rw [hlast, hhigh, Call.wall]
      omega
  | update wall m =>
    refine ⟨by simp [Issuer.step, hs.maxOffset], by simp [Issuer.step, hs.id], hs.tagged, ?_, ?_⟩
    · intro hset
      cases hres : (s.clock.update wall m).1 with
      | error e =>
        have hlast := last_of_update_eq_error (Prod.ext hres rfl)
        exact (congrArg nodeOf hlast).trans (hs.last (hlast ▸ hset))
      | ok u =>
        have hlast := last_of_update_eq_ok (Prod.ext hres rfl)
        exact (congrArg nodeOf hlast).trans ((nodeOf_after _ _ _).trans hs.id)
    · intro ho
      have henv := hs.envelope ho
      have hoff := hs.maxOffset
      rw [hhigh]
      apply last_wall_update hw (hoff ▸ ho)
      · exact henv.trans (Int.add_le_add_right (le_max_right _ _) _)
      · rw [hoff]
        exact Int.add_le_add_right (le_max_left _ _) _

theorem Within.run {calls : List Call} (hs : Within o n s)
    (hw : ∀ call ∈ calls, 0 ≤ call.wall.toInt) : Within o n (calls.foldl Issuer.step s) := by
  induction calls generalizing s with
  | nil => exact hs
  | cons call calls ih =>
    exact ih (hs.step (hw call (by simp))) fun a ha => hw a (by simp [ha])

/-- Two clocks of different nodes whose bounds are not negative, in any runs of calls over readings
that are not negative: no value one returns is a value the other returns, every value carries the
ordinal of its clock, and each clock stays within its bound of the highest reading it has taken. -/
theorem unique_and_bounded {o₁ o₂ : Int64} {n₁ n₂ : UInt32} {c₁ c₂ : Clock}
    (h₁ : Clock.new o₁ n₁ = .ok c₁) (h₂ : Clock.new o₂ n₂ = .ok c₂) (hne : n₁ ≠ n₂)
    (ho₁ : 0 ≤ o₁.toInt) (ho₂ : 0 ≤ o₂.toInt) (calls₁ calls₂ : List Call)
    (hw₁ : ∀ call ∈ calls₁, 0 ≤ call.wall.toInt) (hw₂ : ∀ call ∈ calls₂, 0 ≤ call.wall.toInt) :
    let s₁ := calls₁.foldl Issuer.step { clock := c₁ }
    let s₂ := calls₂.foldl Issuer.step { clock := c₂ }
    (∀ t ∈ s₁.issued, t ∉ s₂.issued) ∧
      (∀ t ∈ s₁.issued, nodeOf t = n₁) ∧ (∀ t ∈ s₂.issued, nodeOf t = n₂) ∧
      (s₁.clock.last.isSet → nodeOf s₁.clock.last = n₁) ∧
      (s₂.clock.last.isSet → nodeOf s₂.clock.last = n₂) ∧
      s₁.clock.last.wall.toInt ≤ s₁.highest + o₁.toInt ∧
      s₂.clock.last.wall.toInt ≤ s₂.highest + o₂.toInt := by
  have hs₁ := (Within.of_new h₁).run hw₁
  have hs₂ := (Within.of_new h₂).run hw₂
  refine ⟨?_, hs₁.tagged, hs₂.tagged, hs₁.last, hs₂.last, hs₁.envelope ho₁, hs₂.envelope ho₂⟩
  -- a common value would carry both ordinals
  intro t ht ht'
  exact hne ((hs₁.tagged t ht).symm.trans (hs₂.tagged t ht'))

/-- Nodes 1 and 2 exchange the timestamps they mint while their physical clocks stand still, 600
apart: the one behind absorbs the value of the one ahead and mints above it. -/
theorem unique_and_bounded_exchange :
    let s₁ := [Call.now 1000, .update 1000 { wall := 1600, logical := 2 }, .now 1000].foldl
      Issuer.step { clock := { id := 1, id_le := by decide, maxOffset := 1000 } }
    let s₂ := [Call.now 1600, .update 1600 { wall := 1600, logical := 513 }, .now 1600].foldl
      Issuer.step { clock := { id := 2, id_le := by decide, maxOffset := 1000 } }
    (s₁.issued = [{ wall := 1600, logical := 513 }, { wall := 1000, logical := 1 }] ∧
      s₂.issued = [{ wall := 1600, logical := 770 }, { wall := 1600, logical := 2 }]) ∧
      (∀ t ∈ s₁.issued, t ∉ s₂.issued) ∧ s₁.clock.last.wall.toInt ≤ s₁.highest + 1000 := by
  have h₁ : Clock.new 1000 1 = .ok { id := 1, id_le := by decide, maxOffset := 1000 } := rfl
  have h₂ : Clock.new 1000 2 = .ok { id := 2, id_le := by decide, maxOffset := 1000 } := rfl
  have h := unique_and_bounded h₁ h₂ (by decide) (by decide) (by decide)
    [.now 1000, .update 1000 { wall := 1600, logical := 2 }, .now 1000]
    [.now 1600, .update 1600 { wall := 1600, logical := 513 }, .now 1600] (by decide) (by decide)
  exact ⟨by decide, h.1, h.2.2.2.2.2.1⟩

/-- A clock may be built over a physical clock whose bound is negative: its first value is the reading
itself, above the reading plus the bound. -/
theorem negative_bound_exceeded :
    ∃ c, Clock.new (-5) 1 = .ok c ∧
      let s := [Call.now 1000].foldl Issuer.step { clock := c }
      s.highest + (-5) < s.clock.last.wall.toInt :=
  ⟨{ id := 1, id_le := by decide, maxOffset := -5 }, rfl, by decide⟩

end Issuer

end Rift
