import Mathlib.Algebra.Order.Ring.Int
import Mathlib.Data.Int.Order.Basic
import Mathlib.Data.List.Chain

/-!
# Clocks of the simulation

`clock/timeline.go`: the clock of a node as a function of global time. The oscillator is the time plus
a piecewise linear offset, the wall clock adds an epoch and steps, and the monotonic clock counts from
the last boot. Instants and offsets are 64 bit integers, and a sum that leaves them wraps silently.
Every reading is therefore defined twice over, by what becomes of a value once it is computed: `int64`
wraps it as the source does, and `id` gives the reading that is meant.
-/

namespace Rift

open List

/-- A global time, in nanoseconds. -/
abbrev Instant := ℤ

/-- The denominator of slopes. -/
def ppb : ℤ := 1000000000

structure Segment where
  start : Instant
  off : ℤ
  slopePPB : ℤ
  deriving DecidableEq, Repr

/-- A correction of the wall clock. -/
structure WallStep where
  time : Instant
  delta : ℤ
  deriving DecidableEq, Repr

structure Timeline where
  skew : List Segment
  steps : List WallStep := []
  /-- The restarts. The first boot is at zero. -/
  boots : List Instant := []
  epoch : ℤ
  deriving DecidableEq, Repr

/-- Wrap into a signed integer of 64 bits. -/
def int64 (x : ℤ) : ℤ := x.bmod (2 ^ 64)

/-- The quotient is truncated toward zero. The source panics if it has more than 64 bits. -/
def mulDiv (w : ℤ → ℤ) (a b d : ℤ) : ℤ := w ((a * b).tdiv d)

/-- The offset of a segment, which is extended beyond its end. -/
def offsetIn (w : ℤ → ℤ) (seg : Segment) (t : Instant) : ℤ :=
  w (seg.off + mulDiv w seg.slopePPB (w (t - seg.start)) ppb)

/-- The last segment that has begun. -/
def segAt (seg : Segment) : List Segment → Instant → Segment
  | [], _ => seg
  | s :: segs, t => if t < s.start then seg else segAt s segs t

/-- Why a timeline means nothing. -/
inductive TimelineError
  | noSegments
  | firstStart (start : Instant)
  | zeroEpoch
  | backwards (slope : ℤ)
  | unsorted (start prev : Instant)
  | discontinuous (off want : ℤ)
  deriving DecidableEq, Repr

/-- Check the segments after `prev`. -/
def validateSkew (w : ℤ → ℤ) (prev : Segment) : List Segment → Except TimelineError Unit
  | [] => .ok ()
  | seg :: segs =>
    if seg.slopePPB ≤ -ppb then .error (.backwards seg.slopePPB)
    else if seg.start ≤ prev.start then .error (.unsorted seg.start prev.start)
    else if offsetIn w prev seg.start ≠ seg.off then
      .error (.discontinuous seg.off (offsetIn w prev seg.start))
    else validateSkew w seg segs

/-- Check that times ascend; equal ones may be refused. -/
def validateOrder (refuses : Instant → Instant → Bool) : List Instant → Except TimelineError Unit
  | prev :: t :: ts =>
    if refuses t prev then .error (.unsorted t prev) else validateOrder refuses (t :: ts)
  | _ => .ok ()

namespace Timeline

variable (w : ℤ → ℤ) (tl : Timeline)

def validate : Except TimelineError Unit :=
  match tl.skew with
  | [] => .error .noSegments
  | seg :: segs =>
    if seg.start ≠ 0 then .error (.firstStart seg.start)
    else if tl.epoch = 0 then .error .zeroEpoch
    else if seg.slopePPB ≤ -ppb then .error (.backwards seg.slopePPB)
    else do
      validateSkew w seg segs
      validateOrder (· < ·) (tl.steps.map (·.time))
      validateOrder (· ≤ ·) tl.boots

/-- The segment in force. There is one: `validate` refuses a timeline without segments. -/
def seg (t : Instant) : Segment := segAt (tl.skew.headD ⟨0, 0, 0⟩) tl.skew t

def skewAt (t : Instant) : ℤ := offsetIn w (tl.seg t) t

def osc (t : Instant) : Instant := w (t + tl.skewAt w t)

/-- The corrections up to an instant. To wrap their sum is to wrap at each of them. -/
def stepsThrough (t : Instant) (inclusive : Bool) : ℤ :=
  w ((tl.steps.takeWhile fun s => !(decide (t < s.time) || (!inclusive && s.time == t))).map
    (·.delta)).sum

def wall (t : Instant) : ℤ := w (w (tl.epoch + tl.osc w t) + tl.stepsThrough w t true)

/-- The left limit of the wall clock. -/
def wallLimit (t : Instant) : ℤ := w (w (tl.epoch + tl.osc w t) + tl.stepsThrough w t false)

def breakpoints (start fin : Instant) : List Instant :=
  start :: ((tl.skew.map (·.start)).filter (fun t => start < t ∧ t < fin) ++
    (tl.steps.map (·.time)).filter (fun t => start < t ∧ t < fin) ++ [fin])

end Timeline

/-! ### Segments -/

/-- A segment begins where the one before it leads. -/
def Segment.Meets (w : ℤ → ℤ) (prev seg : Segment) : Prop :=
  -ppb < seg.slopePPB ∧ prev.start < seg.start ∧ offsetIn w prev seg.start = seg.off

variable {w : ℤ → ℤ}

theorem isChain_of_validateSkew {prev : Segment} {segs : List Segment}
    (h : validateSkew w prev segs = .ok ()) : (prev :: segs).IsChain (Segment.Meets w) := by
  induction segs generalizing prev with
  | nil => exact .singleton _
  | cons seg segs ih =>
    unfold validateSkew at h
    split_ifs at h with hslope hstart hoff
    exact .cons_cons ⟨not_le.mp hslope, not_le.mp hstart, not_not.mp hoff⟩ (ih h)

variable {seg : Segment} {segs : List Segment} {t u : Instant}

@[simp] theorem offsetIn_start : offsetIn id seg seg.start = seg.off := by
  simp [offsetIn, mulDiv]

theorem segAt_mem : segAt seg segs t ∈ seg :: segs := by
  induction segs generalizing seg with
  | nil => exact mem_singleton_self _
  | cons s segs ih =>
    unfold segAt
    split_ifs
    · exact mem_cons_self
    · exact mem_cons_of_mem _ ih

theorem segAt_of_le (h : (seg :: segs).IsChain (Segment.Meets w)) (ht : t ≤ seg.start) :
    segAt seg segs t = seg := by
  cases segs with
  | nil => rfl
  | cons s segs => exact if_pos (ht.trans_lt (isChain_cons_cons.mp h).1.2.1)

theorem segAt_congr (h : ∀ s ∈ segs, t < s.start ↔ u < s.start) :
    segAt seg segs t = segAt seg segs u := by
  induction segs generalizing seg with
  | nil => rfl
  | cons s segs ih =>
    simp only [segAt, h s mem_cons_self]
    rw [ih fun x hx => h x (mem_cons_of_mem _ hx)]

/-- The offset is continuous: up to the next start, the segment in force leads to it. -/
theorem offsetIn_segAt (h : (seg :: segs).IsChain (Segment.Meets id)) (htu : t ≤ u)
    (hcalm : ∀ s ∈ segs, t < s.start → u ≤ s.start) :
    offsetIn id (segAt seg segs u) u = offsetIn id (segAt seg segs t) u := by
  induction segs generalizing seg with
  | nil => rfl
  | cons s segs ih =>
    obtain ⟨⟨-, -, hoff⟩, htail⟩ := isChain_cons_cons.mp h
    unfold segAt
    split_ifs with hu ht ht
    · rfl
    · exact absurd (htu.trans_lt hu) ht
    · obtain rfl : u = s.start := le_antisymm (hcalm s mem_cons_self ht) (not_lt.mp hu)
      rw [segAt_of_le htail le_rfl, offsetIn_start, hoff]
    · exact ih htail fun x hx => hcalm x (mem_cons_of_mem _ hx)

namespace Timeline

variable {tl : Timeline}

/-- The corrections up to two instants are the same if no step lies in between. -/
theorem stepsThrough_congr {i j : Bool} (h : ∀ s ∈ tl.steps,
    (t < s.time ∨ i = false ∧ s.time = t) ↔ (u < s.time ∨ j = false ∧ s.time = u)) :
    tl.stepsThrough w t i = tl.stepsThrough w u j := by
  refine congrArg w ?_
  generalize tl.steps = steps at h
  induction steps with
  | nil => rfl
  | cons s steps ih =>
    have hs := h s mem_cons_self
    have hbool : (decide (t < s.time) || (!i && s.time == t)) =
        (decide (u < s.time) || (!j && s.time == u)) := by
      rw [Bool.eq_iff_iff]
      simpa using hs
    have ih := ih fun x hx => h x (mem_cons_of_mem _ hx)
    simp only [takeWhile_cons, hbool]
    split
    · simp only [map_cons, sum_cons, ih]
    · rfl

theorem exists_skew (h : tl.validate w = .ok ()) : ∃ seg segs, tl.skew = seg :: segs ∧
    (seg :: segs).IsChain (Segment.Meets w) ∧ ∀ t, tl.seg t = segAt seg segs t := by
  unfold validate at h
  split at h
  · cases h
  next seg segs hskew =>
  split_ifs at h with hstart hepoch hslope
  have hchain : (seg :: segs).IsChain (Segment.Meets w) := by
    refine isChain_of_validateSkew ?_
    cases hs : validateSkew w seg segs with
    | error e => rw [hs] at h; cases h
    | ok => rfl
  refine ⟨seg, segs, hskew, hchain, fun t => ?_⟩
  unfold Timeline.seg
  rw [hskew]
  by_cases ht : t < seg.start
  · exact (if_pos ht).trans (segAt_of_le hchain ht.le).symm
  · exact if_neg ht

end Timeline

/-! ### Readings that do not wrap -/

/-- The offset at an instant is computed without a wrap. -/
def Segment.Fits (seg : Segment) (t : Instant) : Prop :=
  ∀ x ∈ [t - seg.start, mulDiv id seg.slopePPB (t - seg.start) ppb, offsetIn id seg t], int64 x = x

theorem Segment.Fits.offsetIn_eq (h : seg.Fits t) : offsetIn int64 seg t = offsetIn id seg t := by
  simp only [Segment.Fits, offsetIn, mulDiv, id_eq, forall_mem_cons] at h ⊢
  obtain ⟨hrun, hquot, hoff, -⟩ := h
  rw [hrun, hquot, hoff]

theorem Segment.Meets.exact {l : List Segment} (h : l.IsChain (Segment.Meets int64))
    (hfits : l.IsChain fun prev seg => prev.Fits seg.start) : l.IsChain (Segment.Meets id) := by
  induction h with
  | nil => exact .nil
  | singleton => exact .singleton _
  | cons_cons hmeets _ ih =>
    obtain ⟨hfit, hrest⟩ := isChain_cons_cons.mp hfits
    exact .cons_cons ⟨hmeets.1, hmeets.2.1, hfit.offsetIn_eq.symm.trans hmeets.2.2⟩ (ih hrest)

namespace Timeline

variable {tl : Timeline} {start fin : Instant}

/-- Neither the check of the segments nor a reading of the window leaves the 64 bits. -/
structure Fits (tl : Timeline) (start fin : Instant) : Prop where
  joints : tl.skew.IsChain fun prev seg => prev.Fits seg.start
  offsets : ∀ t, start ≤ t → t ≤ fin → (tl.seg t).Fits t
  sums : ∀ t, start ≤ t → t ≤ fin → ∀ x ∈ [tl.osc id t, tl.epoch + tl.osc id t,
    tl.stepsThrough id t true, tl.stepsThrough id t false, tl.wall id t, tl.wallLimit id t],
    int64 x = x

theorem Fits.wall_eq (h : tl.Fits start fin) (h₁ : start ≤ t) (h₂ : t ≤ fin) :
    tl.wall int64 t = tl.wall id t ∧ tl.wallLimit int64 t = tl.wallLimit id t := by
  have hsums := h.sums t h₁ h₂
  simp only [wall, wallLimit, osc, skewAt, stepsThrough, id_eq, forall_mem_cons,
    (h.offsets t h₁ h₂).offsetIn_eq] at hsums ⊢
  obtain ⟨hosc, hepoch, hthrough, hbefore, hwall, hlimit, -⟩ := hsums
  rw [hosc, hepoch, hthrough, hbefore, hwall, hlimit]
  exact ⟨rfl, rfl⟩

end Timeline

end Rift
