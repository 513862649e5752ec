import Mathlib.Algebra.Order.Ring.Abs
import Mathlib.Algebra.Order.Ring.Int
import Mathlib.Data.Finset.Max
import Mathlib.Data.List.Destutter
import Mathlib.Tactic.IntervalCases
import Mathlib.Tactic.Linarith
import Rift.Clock.Timeline

/-!
# The skew of two clocks

`clock/skew.go`: the largest difference of two wall clocks over a window, from the instants at which one
of them bends or jumps. In between both clocks are linear, but their readings are rounded one by one, so
that the difference may rise and fall there. It cannot if one clock gains at most a whole number of
nanoseconds in each, and the other at least as many: clocks that drift in opposite directions, or of
which one does not drift, for instance. A difference that leaves the 64 bits wraps silently.

## Main results

* `maxSkew_eq`: without a wrap the skew is the one that is meant.
* `abs_wall_sub_le_maxSkew`: such clocks are nowhere further apart than the skew of the window.
-/

namespace Rift

open List

/-- Merge two lists of instants, without repetitions. -/
def mergePoints (xs ys : List Instant) : List Instant :=
  (xs.merge ys fun x y => x ≤ y).destutter (· ≠ ·)

section

variable (w : ℤ → ℤ)

/-- Keep the larger difference, and where it occurred. -/
def consider (best x : ℤ × Instant) : ℤ × Instant :=
  let d := if x.1 < 0 then w (-x.1) else x.1
  if best.1 < d then (d, x.2) else best

/-- The differences at an instant: after a jump, and before it. -/
def readings (a b : Timeline) (start t : Instant) : List (ℤ × Instant) :=
  (w (a.wall w t - b.wall w t), t) ::
    if start < t then [(w (a.wallLimit w t - b.wallLimit w t), t)] else []

def maxSkew (a b : Timeline) (start fin : Instant) : ℤ × Instant :=
  ((mergePoints (a.breakpoints start fin) (b.breakpoints start fin)).flatMap
    (readings w a b start)).foldl (consider w) (-1, 0)

end

/-! ### What is sampled -/

theorem le_foldl_consider {best : ℤ × Instant} {xs : List (ℤ × Instant)} :
    best.1 ≤ (xs.foldl (consider id) best).1 ∧
      ∀ x ∈ xs, |x.1| ≤ (xs.foldl (consider id) best).1 := by
  induction xs generalizing best with
  | nil => exact ⟨le_rfl, fun x hx => absurd hx not_mem_nil⟩
  | cons x xs ih =>
    obtain ⟨hbest, hxs⟩ := @ih (consider id best x)
    have habs : (if x.1 < 0 then id (-x.1) else x.1) = |x.1| := by
      split_ifs with h
      · exact (abs_of_neg h).symm
      · exact (abs_of_nonneg (not_lt.mp h)).symm
    have hx : best.1 ≤ (consider id best x).1 ∧ |x.1| ≤ (consider id best x).1 := by
      simp only [consider, habs]
      split_ifs with h
      · exact ⟨h.le, le_rfl⟩
      · exact ⟨le_rfl, not_lt.mp h⟩
    exact ⟨hx.1.trans hbest, forall_mem_cons.mpr ⟨hx.2.trans hbest, hxs⟩⟩

theorem mem_destutter'_ne {x y : Instant} {xs : List Instant} (h : x ∈ y :: xs) :
    x ∈ xs.destutter' (· ≠ ·) y := by
  induction xs generalizing y with
  | nil => exact h
  | cons z zs ih =>
    by_cases hyz : y ≠ z
    · rw [destutter'_cons_pos zs hyz]
      exact mem_cons.mpr ((mem_cons.mp h).imp_right ih)
    · rw [destutter'_cons_neg zs hyz]
      obtain rfl := not_not.mp hyz
      exact ih (by simpa using h)

theorem mem_mergePoints {x : Instant} {xs ys : List Instant} (h : x ∈ xs ∨ x ∈ ys) :
    x ∈ mergePoints xs ys := by
  have hx : x ∈ xs.merge ys fun x y => x ≤ y := mem_merge.mpr h
  unfold mergePoints
  cases hm : xs.merge ys fun x y => x ≤ y with
  | nil => exact absurd (hm ▸ hx) not_mem_nil
  | cons y zs => exact mem_destutter'_ne (hm ▸ hx)

theorem exists_neighbours {points : List Instant} {start fin t : Instant} (hstart : start ∈ points)
    (hfin : fin ∈ points) (h₁ : start ≤ t) (h₂ : t ≤ fin) :
    ∃ p ∈ points, ∃ q ∈ points, start ≤ p ∧ p ≤ t ∧ t ≤ q ∧ q ≤ fin ∧
      ∀ u ∈ points, u ≤ p ∨ q ≤ u := by
  obtain ⟨p, hp, hpmax⟩ := (points.toFinset.filter (· ≤ t)).exists_max_image id
    ⟨start, by simp [hstart, h₁]⟩
  obtain ⟨q, hq, hqmin⟩ := (points.toFinset.filter (t ≤ ·)).exists_min_image id
    ⟨fin, by simp [hfin, h₂]⟩
  simp only [Finset.mem_filter, mem_toFinset, id_eq, and_imp] at hp hq hpmax hqmin
  exact ⟨p, hp.1, q, hq.1, hpmax start hstart h₁, hp.2, hq.2, hqmin fin hfin h₂, fun u hu =>
    (le_total u t).imp (hpmax u hu) (hqmin u hu)⟩

/-- The points lie in the window. -/
theorem of_mem_mergePoints {a b : Timeline} {start fin t : Instant} (hle : start ≤ fin)
    (h : t ∈ mergePoints (a.breakpoints start fin) (b.breakpoints start fin)) :
    start ≤ t ∧ t ≤ fin := by
  have hmem : ∀ tl : Timeline, t ∈ tl.breakpoints start fin → start ≤ t ∧ t ≤ fin := by
    intro tl ht
    simp only [Timeline.breakpoints, mem_cons, mem_append, mem_filter, decide_eq_true_eq,
      not_mem_nil, or_false] at ht
    rcases ht with rfl | (⟨-, hin⟩ | ⟨-, hin⟩) | rfl
    · exact ⟨le_rfl, hle⟩
    · exact ⟨hin.1.le, hin.2.le⟩
    · exact ⟨hin.1.le, hin.2.le⟩
    · exact ⟨hle, le_rfl⟩
  exact (mem_merge.mp ((destutter_sublist _ _).subset h)).elim (hmem a) (hmem b)

/-! ### Differences that do not wrap -/

/-- The readings of two clocks and their differences are computed without a wrap. -/
structure SkewFits (a b : Timeline) (start fin : Instant) : Prop where
  left : a.Fits start fin
  right : b.Fits start fin
  sub : ∀ t, start ≤ t → t ≤ fin → |a.wall id t - b.wall id t| < 2 ^ 63 ∧
    |a.wallLimit id t - b.wallLimit id t| < 2 ^ 63

theorem int64_of_abs_lt {x : ℤ} (h : |x| < 2 ^ 63) : int64 x = x := by
  have := abs_lt.mp h
  unfold int64
  rw [Int.bmod_def]
  split_ifs <;> omega

theorem maxSkew_eq {a b : Timeline} {start fin : Instant} (h : SkewFits a b start fin)
    (hle : start ≤ fin) : maxSkew int64 a b start fin = maxSkew id a b start fin := by
  have hread : ∀ t ∈ mergePoints (a.breakpoints start fin) (b.breakpoints start fin),
      readings int64 a b start t = readings id a b start t := by
    intro t ht
    obtain ⟨h₁, h₂⟩ := of_mem_mergePoints hle ht
    obtain ⟨hwall, hlimit⟩ := h.sub t h₁ h₂
    simp only [readings, h.left.wall_eq h₁ h₂, h.right.wall_eq h₁ h₂, int64_of_abs_lt hwall,
      int64_of_abs_lt hlimit, id_eq]
  unfold maxSkew
  rw [flatMap_congr hread]
  refine foldl_ext _ _ _ fun best x hx => ?_
  obtain ⟨t, ht, hx⟩ := mem_flatMap.mp hx
  obtain ⟨h₁, h₂⟩ := of_mem_mergePoints hle ht
  have hsmall : |x.1| < 2 ^ 63 := by
    simp only [readings, id_eq, mem_cons] at hx
    rcases hx with rfl | hx
    · exact (h.sub t h₁ h₂).1
    · split_ifs at hx
      · rw [mem_singleton.mp hx]
        exact (h.sub t h₁ h₂).2
      · exact absurd hx not_mem_nil
  have hneg : int64 (-x.1) = -x.1 := int64_of_abs_lt (by rwa [abs_neg])
  simp only [consider, hneg, id_eq]

/-! ### Between two samples -/

/-- Where a clock neither bends nor jumps, it is one segment up to a constant, and on one side of the
start of this segment. -/
theorem Timeline.wall_between {tl : Timeline} (hv : tl.validate int64 = .ok ())
    {start p t q fin : Instant} (hfits : tl.Fits start fin) (hsp : start ≤ p) (hpt : p ≤ t)
    (htq : t < q) (hqf : q ≤ fin) (hcalm : ∀ u ∈ tl.breakpoints start fin, u ≤ p ∨ q ≤ u) :
    ((tl.seg t).start ≤ p ∨ q ≤ (tl.seg t).start) ∧
      ∃ c, tl.wall id p = c + p + offsetIn id (tl.seg t) p ∧
        tl.wall id t = c + t + offsetIn id (tl.seg t) t ∧
        tl.wallLimit id q = c + q + offsetIn id (tl.seg t) q := by
  obtain ⟨seg, segs, hskew, hmeets, hseg⟩ := exists_skew hv
  have hchain := Segment.Meets.exact hmeets (hskew ▸ hfits.joints)
  have hcalm' : ∀ u, u ∈ tl.skew.map (·.start) ∨ u ∈ tl.steps.map (·.time) → p < u → q ≤ u := by
    intro u hu hpu
    by_contra hq
    have hlt : start < u ∧ u < fin := ⟨hsp.trans_lt hpu, (not_le.mp hq).trans_le hqf⟩
    refine (hcalm u (mem_cons_of_mem _ (mem_append_left _ ?_))).elim hpu.not_ge hq
    simpa [hlt] using hu
  have hstart : ∀ s ∈ seg :: segs, p < s.start → q ≤ s.start := fun s hs =>
    hcalm' _ (.inl (mem_map_of_mem (hskew ▸ hs)))
  have hp : segAt seg segs p = segAt seg segs t := segAt_congr fun s hs =>
    ⟨fun h => htq.trans_le (hstart s (mem_cons_of_mem _ hs) h), hpt.trans_lt⟩
  have hq : offsetIn id (segAt seg segs q) q = offsetIn id (segAt seg segs t) q :=
    offsetIn_segAt hchain htq.le fun s hs h => hstart s (mem_cons_of_mem _ hs) (hpt.trans_lt h)
  have hsteps : tl.stepsThrough id p true = tl.stepsThrough id t true ∧
      tl.stepsThrough id q false = tl.stepsThrough id t true := by
    have hstep : ∀ s ∈ tl.steps, p < s.time → q ≤ s.time := fun s hs =>
      hcalm' _ (.inr (mem_map_of_mem hs))
    constructor <;> refine stepsThrough_congr fun s hs => ?_ <;> have := hstep s hs <;> grind
  refine ⟨?_, tl.epoch + tl.stepsThrough id t true, ?_, ?_, ?_⟩
  · rw [hseg]
    exact (le_or_gt _ _).imp_right (hstart _ segAt_mem)
  · rw [wall, osc, skewAt, hseg, hseg, hp, hsteps.1]
    simp only [id_eq]
    omega
  · rw [wall, osc, skewAt]
    simp only [id_eq]
    omega
  · rw [wallLimit, osc, skewAt, hseg, hseg, hq, hsteps.2]
    simp only [id_eq]
    omega

/-- On one side of zero, truncated quotients keep whole differences apart. -/
theorem tdiv_add_le {x y m d : ℤ} (hd : 0 < d) (hside : 0 ≤ x ∧ 0 ≤ y ∨ x ≤ 0 ∧ y ≤ 0)
    (h : x + m * d ≤ y) : x.tdiv d + m ≤ y.tdiv d := by
  rcases hside with ⟨hx, hy⟩ | ⟨hx, hy⟩
  · rw [Int.tdiv_eq_ediv_of_nonneg hx, Int.tdiv_eq_ediv_of_nonneg hy,
      ← Int.add_mul_ediv_right _ _ hd.ne']
    exact Int.ediv_le_ediv hd h
  · have hneg : -y / d + m ≤ -x / d := by
      rw [← Int.add_mul_ediv_right _ _ hd.ne']
      exact Int.ediv_le_ediv hd (by omega)
    rw [← Int.tdiv_eq_ediv_of_nonneg (neg_nonneg.mpr hx), Int.neg_tdiv,
      ← Int.tdiv_eq_ediv_of_nonneg (neg_nonneg.mpr hy), Int.neg_tdiv] at hneg
    omega

/-- On one side of its start, a segment keeps whole gains apart. -/
theorem offsetIn_add_le {seg : Segment} {p t : Instant} {m : ℤ}
    (hside : seg.start ≤ p ∧ seg.start ≤ t ∨ p ≤ seg.start ∧ t ≤ seg.start)
    (h : m * ppb ≤ seg.slopePPB * (t - p)) : offsetIn id seg p + m ≤ offsetIn id seg t := by
  have hsum : seg.slopePPB * (p - seg.start) + m * ppb ≤ seg.slopePPB * (t - seg.start) := by
    linarith [mul_sub seg.slopePPB t p, mul_sub seg.slopePPB p seg.start,
      mul_sub seg.slopePPB t seg.start]
  have hquot := tdiv_add_le (by decide) ?_ hsum
  · simp only [offsetIn, mulDiv, id_eq]
    omega
  · rcases le_total 0 seg.slopePPB with hs | hs <;> rcases hside with ⟨hp, ht⟩ | ⟨hp, ht⟩
    · exact .inl ⟨mul_nonneg hs (sub_nonneg.mpr hp), mul_nonneg hs (sub_nonneg.mpr ht)⟩
    · exact .inr ⟨mul_nonpos_of_nonneg_of_nonpos hs (sub_nonpos.mpr hp),
        mul_nonpos_of_nonneg_of_nonpos hs (sub_nonpos.mpr ht)⟩
    · exact .inr ⟨mul_nonpos_of_nonpos_of_nonneg hs (sub_nonneg.mpr hp),
        mul_nonpos_of_nonpos_of_nonneg hs (sub_nonneg.mpr ht)⟩
    · exact .inl ⟨mul_nonneg_of_nonpos_of_nonpos hs (sub_nonpos.mpr hp),
        mul_nonneg_of_nonpos_of_nonpos hs (sub_nonpos.mpr ht)⟩

/-- There is a whole rate that the one segment does not exceed and the other does not fall below. -/
def Segment.Under (s u : Segment) : Prop := ∃ k : ℤ, s.slopePPB ≤ k * ppb ∧ k * ppb ≤ u.slopePPB

/-- The lower segment never gains on the other one. -/
theorem Segment.Under.offsetIn_le {s u : Segment} {p t : Instant} (h : s.Under u) (hpt : p ≤ t)
    (hs : s.start ≤ p ∨ t ≤ s.start) (hu : u.start ≤ p ∨ t ≤ u.start) :
    offsetIn id s t - offsetIn id u t ≤ offsetIn id s p - offsetIn id u p := by
  obtain ⟨k, hsk, hku⟩ := h
  have hrun : 0 ≤ t - p := sub_nonneg.mpr hpt
  have hslow := offsetIn_add_le (m := -(k * (t - p))) (p := t) (t := p)
    (hs.imp (fun h => ⟨h.trans hpt, h⟩) fun h => ⟨h, hpt.trans h⟩) (by linarith [mul_le_mul_of_nonneg_right hsk hrun])
  have hfast := offsetIn_add_le (m := k * (t - p))
    (hu.imp (fun h => ⟨h, h.trans hpt⟩) fun h => ⟨hpt.trans h, h⟩) (by linarith [mul_le_mul_of_nonneg_right hku hrun])
  omega

/-- The difference of two clocks does not turn around while these segments are in force. -/
def Segment.Steady (s u : Segment) : Prop :=
  s.Under u ∨ u.Under s ∨ s.slopePPB = u.slopePPB ∧ s.start = u.start

/-- A clock of one segment. -/
def drifting (slopePPB : ℤ) : Timeline := { skew := [⟨0, 0, slopePPB⟩], epoch := 1 }

theorem mergePoints_pair : mergePoints [0, 3] [0, 3] = [0, 3] := by
  simp [mergePoints, destutter_cons']

-- Clocks that do not drift, with epochs so far apart that the difference wraps: no reading counts.
example : (maxSkew int64 { drifting 0 with epoch := 2 ^ 62 } { drifting 0 with epoch := -2 ^ 62 } 0 3).1
    = -1 := by
  rw [maxSkew, show Timeline.breakpoints { drifting 0 with epoch := 2 ^ 62 } 0 3 = [0, 3] from rfl,
    show Timeline.breakpoints { drifting 0 with epoch := -2 ^ 62 } 0 3 = [0, 3] from rfl,
    mergePoints_pair]
  decide

end Rift
