import Rift.Engine.Iterator
import Rift.Model.Iter

/-!
# Scans of the database

What a version of the database shows at a sequence is a sorted map. Lookups read it, walks of the
iterator visit its entries inside the bounds in order, and any sequence of calls finds what the
reference iterator finds over it.

## Main definitions

* `Version.content` - the visible keys with their values.
* `Version.scan`, `Version.scanBack` - a whole walk in either direction.

## Main results

* `Version.read_eq` - lookups and walks show the content exactly when level 1 is accepted as a run.
* `IterImpl.observe_eq` - any sequence of calls finds what the reference iterator finds.
-/

namespace Rift.Engine

open List

/-! ### The content -/

/-- The visible keys with their values. -/
def Version.content (v : Version) (s : ℕ) : Model.Version :=
  (v.entries.filterMap fun e => (visible v.entries v.ranges e.key s).map (e.key, ·)).foldl
    (fun m p => m.set p.1 p.2) .empty

variable {l : List (Slice × Slice)}

theorem get_foldl_set {f : Slice → Option Slice} (hl : ∀ p ∈ l, f p.1 = some p.2)
    (m : Model.Version) (k : Slice) :
    (l.foldl (fun m p => m.set p.1 p.2) m).get k = if k ∈ l.map Prod.fst then f k else m.get k := by
  induction l generalizing m with
  | nil => simp
  | cons p l ih =>
    rw [foldl_cons, ih (fun q hq => hl q (mem_cons_of_mem p hq)), OrderedMap.get_set]
    have hp := hl p mem_cons_self
    rw [map_cons]
    by_cases hkl : k ∈ l.map Prod.fst
    · rw [if_pos hkl, if_pos (mem_cons_of_mem _ hkl)]
    · by_cases hk : p.1 = k
      · subst hk
        simp [hkl, hp]
      · rw [if_neg hkl, if_neg hk, if_neg (by simp [Ne.symm hk, hkl])]

theorem Version.get_content (v : Version) (s : ℕ) (k : Slice) :
    (v.content s).get k = visible v.entries v.ranges k s := by
  unfold content
  rw [get_foldl_set (f := fun k => visible v.entries v.ranges k s)]
  · split_ifs with hk
    · rfl
    · rw [OrderedMap.get_empty]
      cases hx : visible v.entries v.ranges k s with
      | none => rfl
      | some x =>
        obtain ⟨e, he, rfl⟩ := exists_mem_of_visible hx
        refine absurd (mem_map.mpr ⟨(e.key, x), ?_, rfl⟩) hk
        exact mem_filterMap.mpr ⟨e, he, by rw [hx]; rfl⟩
  · intro p hp
    obtain ⟨e, -, hmap⟩ := mem_filterMap.mp hp
    obtain ⟨x, hx, rfl⟩ := Option.map_eq_some_iff.mp hmap
    exact hx

variable {P : Slice → Prop} {p : Slice × Slice}

theorem IterImpl.shows_iff (s : IterImpl) :
    s.Shows P p ↔ p ∈ (s.v.content s.snapshot).entries ∧ inRange p.1 s.o.lower s.o.upper ∧ P p.1 := by
  unfold Shows sees
  rw [← Version.get_content, ← OrderedMap.mem_entries]

theorem IterImpl.Shows.inj {s : IterImpl} {q : Slice × Slice} (hp : s.Shows P p) (hq : s.Shows P q)
    (h : p.1 = q.1) : p = q :=
  Prod.ext h (Option.some.inj (hp.1.symm.trans ((congrArg s.sees h).trans hq.1)))

/-! ### Walks -/

/-- The entries visited by one step after the other. -/
def IterImpl.walk (step : IterImpl → Option IterImpl) : ℕ → IterImpl → Option (List (Slice × Slice))
  | 0, _ => none
  | fuel + 1, s =>
    match s.position with
    | none => some []
    | some p => do
      let rest ← (← step s).walk step fuel
      return p :: rest

namespace Version

/-- `First`, and then `Next` until the iterator is invalid. -/
def scan (v : Version) (snapshot : ℕ) (o : IterOptions) (fuel : ℕ) :
    Option (List (Slice × Slice)) := do
  let it ← IterImpl.new v snapshot o
  (← it.first).walk IterImpl.next fuel

/-- `Last`, and then `Prev` until the iterator is invalid. -/
def scanBack (v : Version) (snapshot : ℕ) (o : IterOptions) (fuel : ℕ) :
    Option (List (Slice × Slice)) := do
  let it ← IterImpl.new v snapshot o
  (← it.last).walk IterImpl.prev fuel

end Version

namespace IterImpl

variable {s : IterImpl}

theorem position_eq_some (h : s.position = some p) : s.valid ∧ (s.key, s.value) = p := by
  unfold position at h
  split_ifs at h with hv
  exact ⟨hv, Option.some.inj h⟩

/-- A walk in either direction: `key` orders the entries the way the steps go. -/
theorem walk_eq {κ : Type*} [LinearOrder κ] (key : Slice × Slice → κ)
    {step : IterImpl → Option IterImpl}
    (hstep : ∀ s : IterImpl, s.Good → s.valid → ∃ s', step s = some s' ∧ s.Keeps s' ∧
      IsFirst key (fun p => s.Shows (fun _ => True) p ∧ key (s.key, s.value) < key p) s'.position)
    {U : Slice × Slice → Prop} (hU : ∀ p q, U p → key p < key q → U q)
    (hsorted : l.Pairwise (key · < key ·)) {fuel : ℕ} (hfuel : l.length < fuel) (hgood : s.Good)
    (hl : ∀ p, p ∈ l ↔ s.Shows (fun _ => True) p ∧ U p)
    (hfirst : IsFirst key (fun p => s.Shows (fun _ => True) p ∧ U p) s.position) :
    s.walk step fuel = some l := by
  induction l generalizing s fuel U with
  | nil =>
    obtain ⟨fuel, rfl⟩ := Nat.exists_eq_succ_of_ne_zero hfuel.ne_bot
    unfold walk
    cases hpos : s.position with
    | none => rfl
    | some p =>
      rw [hpos] at hfirst
      exact absurd ((hl p).mpr hfirst.1) not_mem_nil
  | cons p l ih =>
    obtain ⟨fuel, rfl⟩ := Nat.exists_eq_succ_of_ne_zero hfuel.ne_bot
    obtain ⟨hlt, hsorted⟩ := pairwise_cons.mp hsorted
    have hp := (hl p).mp mem_cons_self
    have hpos : s.position = some p := by
      cases hpos : s.position with
      | none =>
        rw [hpos] at hfirst
        exact absurd hp (hfirst p)
      | some q =>
        rw [hpos] at hfirst
        rcases mem_cons.mp ((hl q).mpr hfirst.1) with rfl | hq
        · rfl
        · exact absurd (hfirst.2 p hp) (hlt q hq).not_ge
    obtain ⟨hvalid, hkey⟩ := position_eq_some hpos
    obtain ⟨s', hs', hkeep, hfirst'⟩ := hstep s hgood hvalid
    rw [hkey] at hfirst'
    have hwalk : s'.walk step fuel = some l := by
      refine ih (U := fun q => key p < key q) (fun _ _ => lt_trans) hsorted
        (Nat.lt_of_succ_lt_succ hfuel) hkeep.good (fun q => ?_)
        (hfirst'.congr fun q => by rw [hkeep.shows])
      rw [hkeep.shows]
      constructor
      · exact fun hq => ⟨((hl q).mp (mem_cons_of_mem p hq)).1, hlt q hq⟩
      · rintro ⟨hshow, hpq⟩
        rcases mem_cons.mp ((hl q).mpr ⟨hshow, hU p q hp.2 hpq⟩) with rfl | hq
        · exact absurd hpq (lt_irrefl _)
        · exact hq
    unfold walk
    rw [hpos]
    simp only [Option.bind_eq_bind, hs', Option.bind_some, hwalk]
    rfl

end IterImpl

section

variable {v : Version} (h : v.Layered) (haccepts : ConcatIter.accepts v.l1) (s : ℕ)
  (o : IterOptions) {fuel : ℕ} (hfuel : (v.content s).entries.length < fuel)
include h haccepts hfuel

theorem Version.scan_eq : v.scan s o fuel =
    some ((v.content s).entries.filter fun p => inRange p.1 o.lower o.upper) := by
  obtain ⟨it, hnew, hgood, rfl, rfl, rfl, -⟩ := IterImpl.new_spec h haccepts s o
  obtain ⟨it', hit', hkeep, hfirst⟩ := it.first_spec hgood
  unfold Version.scan
  simp only [Option.bind_eq_bind, hnew, Option.bind_some, hit']
  refine IterImpl.walk_eq Prod.fst (U := fun _ => True) (fun s hs hv => ?_)
    (fun _ _ _ _ => trivial) ((it.v.content it.snapshot).sorted.filter _)
    ((length_filter_le _ _).trans_lt hfuel) hkeep.good (fun p => ?_)
    (hfirst.congr fun p => by rw [hkeep.shows, and_iff_left trivial])
  · obtain ⟨s', hs', hk, hpos⟩ := s.next_spec hs hv
    exact ⟨s', hs', hk, hpos.congr fun p => by simp only [IterImpl.Shows]; tauto⟩
  · rw [hkeep.shows, it.shows_iff, mem_filter]
    simp

theorem Version.scanBack_eq : v.scanBack s o fuel =
    some ((v.content s).entries.filter fun p => inRange p.1 o.lower o.upper).reverse := by
  obtain ⟨it, hnew, hgood, rfl, rfl, rfl, -⟩ := IterImpl.new_spec h haccepts s o
  obtain ⟨it', hit', hkeep, hlast⟩ := it.last_spec hgood
  unfold Version.scanBack
  simp only [Option.bind_eq_bind, hnew, Option.bind_some, hit']
  refine IterImpl.walk_eq (fun p => OrderDual.toDual p.1) (U := fun _ => True)
    (fun s hs hv => ?_) (fun _ _ _ _ => trivial)
    (pairwise_reverse.mpr ((it.v.content it.snapshot).sorted.filter _))
    (by rw [length_reverse]; exact (length_filter_le _ _).trans_lt hfuel) hkeep.good
    (fun p => ?_) (hlast.congr fun p => by rw [hkeep.shows, and_iff_left trivial])
  · obtain ⟨s', hs', hk, hpos⟩ := s.prev_spec hs hv
    exact ⟨s', hs', hk, hpos.congr fun p => by
      simp only [IterImpl.Shows, OrderDual.toDual_lt_toDual]; tauto⟩
  · rw [hkeep.shows, it.shows_iff, mem_reverse, mem_filter]
    simp

end

/-- Without a run that its cursor accepts there is no iterator. -/
theorem Version.scan_eq_none {v : Version} (h : ¬ ConcatIter.accepts v.l1) (s : ℕ) (o : IterOptions)
    (fuel : ℕ) : v.scan s o fuel = none := by
  have hne : v.l1.isEmpty = false := by
    rw [isEmpty_eq_false_iff]
    rintro hnil
    exact h (by rw [hnil]; rfl)
  simp [Version.scan, IterImpl.new, Version.build, MergedIter.addRun, hne, ConcatIter.new, h]

/-- The read path: a lookup finds the visible value of any key, and both walks visit the visible
entries inside the bounds, in order and none left out, exactly when level 1 is a run that its cursor
accepts. -/
theorem Version.read_eq {v : Version} (h : v.Layered) {s : ℕ} (hs : s ≤ kMaxSeqNum) :
    ((∀ k, v.get k s = some (visible v.entries v.ranges k s)) ∧
      (∀ k, (v.content s).get k = visible v.entries v.ranges k s) ∧
      ∀ (o : IterOptions) (fuel : ℕ), (v.content s).entries.length < fuel →
        v.scan s o fuel =
            some ((v.content s).entries.filter fun p => inRange p.1 o.lower o.upper) ∧
          v.scanBack s o fuel =
            some ((v.content s).entries.filter fun p => inRange p.1 o.lower o.upper).reverse) ↔
      ConcatIter.accepts v.l1 := by
  constructor
  · rintro ⟨-, -, hscan⟩
    by_contra haccepts
    have hsome := (hscan {} _ (Nat.lt_succ_self _)).1
    rw [Version.scan_eq_none haccepts] at hsome
    cases hsome
  · intro haccepts
    refine ⟨fun _ => Version.get_eq h hs, v.get_content s, fun o _ hfuel => ⟨?_, ?_⟩⟩
    · exact Version.scan_eq h haccepts s o hfuel
    · exact Version.scanBack_eq h haccepts s o hfuel

/-- Two keys in level 1, one of them rewritten since, the other behind a tombstone of level 0. -/
def sample : Version where
  mem := { entries := [⟨[97], 7, .value, [2]⟩] }
  l0 := [{ entries := [⟨[98], 4, .deletion, []⟩], tombstones := [{ start := [99], fin := [100], seq := 6 }]
           nonempty := by decide, sorted := by decide, legal := by decide, proper := by decide,
           admits := by decide }]
  l1 := [{ entries := [⟨[97], 1, .value, [1]⟩, ⟨[98], 2, .value, [1]⟩], nonempty := by decide,
           sorted := by decide, legal := by decide, proper := MemRange.proper_nil, admits := by decide },
         { entries := [⟨[99], 3, .value, [1]⟩, ⟨[101], 3, .value, [1]⟩], nonempty := by decide,
           sorted := by decide, legal := by decide, proper := MemRange.proper_nil, admits := by decide }]

theorem sample_layered : sample.Layered where
  mem := by decide
  imm := by decide
  legal := by decide
  newer := by decide
  distinct := by decide
  run := by decide

theorem Version.read_sample : ConcatIter.accepts sample.l1 ∧
    sample.get [99] 7 = some none ∧ sample.scan 7 {} 3 = some [([97], [2]), ([101], [1])] ∧
    sample.scanBack 5 { lower := some [98] } 4 = some [([101], [1]), ([99], [1])] := by
  have haccepts : ConcatIter.accepts sample.l1 := by decide
  have h₇ := (Version.read_eq sample_layered (s := 7) (by decide)).mpr haccepts
  have h₅ := (Version.read_eq sample_layered (s := 5) (by decide)).mpr haccepts
  refine ⟨haccepts, (h₇.1 _).trans (by decide +kernel), ?_, ?_⟩
  · exact (h₇.2.2 {} 3 (by decide +kernel)).1.trans (by decide +kernel)
  · exact (h₅.2.2 { lower := some [98] } 4 (by decide +kernel)).2.trans (by decide +kernel)

/-- The first table ends at an exclusive bound, given by its tombstone, and the second begins with a
newer version of that key. -/
def touching : Version where
  l1 := [{ entries := [⟨[97], 5, .value, [1]⟩], tombstones := [{ start := [97], fin := [99], seq := 3 }]
           nonempty := by decide, sorted := by decide, legal := by decide, proper := by decide,
           admits := by decide },
         { entries := [⟨[99], 4, .value, [2]⟩], nonempty := by decide, sorted := by decide,
           legal := by decide, proper := MemRange.proper_nil, admits := by decide }]

/-- The tables are disjoint and both keys are visible, yet the assertion of the cursor over the run
fails, so there is no iterator. -/
theorem Version.touching_not_scanned : touching.Layered ∧
    (touching.content 5).entries = [([97], [1]), ([99], [2])] ∧
    ∀ fuel, touching.scan 5 {} fuel = none ∧ touching.scanBack 5 {} fuel = none :=
  ⟨⟨by decide, by decide, by decide, by decide, by decide, by decide⟩, by decide +kernel,
    fun _ => ⟨rfl, rfl⟩⟩

/-! ### Against the reference iterator -/

/-- One positioning call. -/
inductive IterCall
  | seekGE (key : Slice)
  | seekLT (key : Slice)
  | first
  | last
  | next
  | prev
  deriving DecidableEq, Repr

def IterImpl.call (s : IterImpl) : IterCall → Option IterImpl
  | .seekGE key => s.seekGE key
  | .seekLT key => s.seekLT key
  | .first => s.first
  | .last => s.last
  | .next => s.next
  | .prev => s.prev

/-- What a caller sees after each call. -/
def IterImpl.observe (s : IterImpl) : List IterCall → Option (List (Option (Slice × Slice)))
  | [] => some []
  | c :: cs => do
    let s' ← s.call c
    let rest ← s'.observe cs
    return s'.position :: rest

/-- The same call on the reference iterator. -/
def referenceCall (it : Model.Iter) : IterCall → Model.Iter
  | .seekGE key => it.seekGE key
  | .seekLT key => it.seekLT key
  | .first => it.first
  | .last => it.last
  | .next => it.next
  | .prev => it.prev

def referenceObserve (it : Model.Iter) : List IterCall → List (Option (Slice × Slice))
  | [] => []
  | c :: cs => (referenceCall it c).position :: referenceObserve (referenceCall it c) cs

/-- The reference iterator over what a version shows. -/
def Version.reference (v : Version) (s : ℕ) (o : IterOptions) : Model.Iter :=
  { v := v.content s, lo := o.lower, hi := o.upper }

/-- The two iterators are over the same content and bounds, and stand on the same entry. -/
structure Agree (s : IterImpl) (it : Model.Iter) : Prop where
  good : s.Good
  ok : it.Ok
  v : it.v = s.v.content s.snapshot
  lo : it.lo = s.o.lower
  hi : it.hi = s.o.upper
  position : s.position = it.position

namespace Agree

variable {s s' : IterImpl} {it : Model.Iter} (h : Agree s it) {i : ℤ}
include h

theorem shows : s.Shows P p ↔ it.Shows P p := by
  rw [s.shows_iff, Model.Iter.Shows, h.v, h.lo, h.hi, inRange_iff]

theorem valid_iff : s.valid ↔ it.valid := by
  have hpos := h.position
  constructor
  · intro hs
    by_contra hv
    simp [IterImpl.position, Model.Iter.position, hs, hv] at hpos
  · intro hv
    obtain ⟨_, _, _, _, hpos', _⟩ := Model.Iter.position_of_valid h.ok hv
    exact (IterImpl.position_eq_some (hpos.trans hpos')).1

theorem settle (hkeep : s.Keeps s') (hpos : s'.position = (it.settle i).position) :
    Agree s' (it.settle i) := by
  refine ⟨hkeep.good, Model.Iter.ok_settle i, ?_, ?_, ?_, hpos⟩
  · rw [hkeep.v, hkeep.snapshot]
    exact h.v
  · rw [hkeep.o]
    exact h.lo
  · rw [hkeep.o]
    exact h.hi

theorem of_first (hkeep : s.Keeps s') (hs : IsFirst Prod.fst (s.Shows P) s'.position)
    (hi : IsFirst Prod.fst (it.Shows P) (it.settle i).position) : Agree s' (it.settle i) :=
  h.settle hkeep (hs.unique (fun _ _ => IterImpl.Shows.inj) (hi.congr fun _ => h.shows.symm))

theorem of_last (hkeep : s.Keeps s') (hs : IsLast Prod.fst (s.Shows P) s'.position)
    (hi : IsLast Prod.fst (it.Shows P) (it.settle i).position) : Agree s' (it.settle i) :=
  h.settle hkeep (hs.unique (fun _ _ => IterImpl.Shows.inj) (hi.congr fun _ => h.shows.symm))

theorem call {c : IterCall} (hc : ∀ k, c = .seekLT k → ∀ u ∈ s.o.upper, k ≤ u) :
    ∃ s', s.call c = some s' ∧ s'.o = s.o ∧ Agree s' (referenceCall it c) := by
  cases c with
  | seekGE k =>
    obtain ⟨s', hs', hkeep, hpos⟩ := s.seekGE_spec h.good k
    exact ⟨s', hs', hkeep.o, h.of_first hkeep hpos (it.isFirst_seekGE k)⟩
  | seekLT k =>
    obtain ⟨s', hs', hkeep, hpos⟩ := s.seekLT_spec h.good k
    exact ⟨s', hs', hkeep.o, h.of_last hkeep hpos (it.isLast_seekLT (h.hi ▸ hc k rfl))⟩
  | first =>
    obtain ⟨s', hs', hkeep, hpos⟩ := s.first_spec h.good
    exact ⟨s', hs', hkeep.o, h.of_first hkeep hpos it.isFirst_first⟩
  | last =>
    obtain ⟨s', hs', hkeep, hpos⟩ := s.last_spec h.good
    exact ⟨s', hs', hkeep.o, h.of_last hkeep hpos it.isLast_last⟩
  | next =>
    by_cases hv : s.valid
    · have hiv := h.valid_iff.mp hv
      obtain ⟨s', hs', hkeep, hpos⟩ := s.next_spec h.good hv
      obtain ⟨p, hp, hnext⟩ := Model.Iter.isFirst_next h.ok hiv
      have hkey := (IterImpl.position_eq_some (h.position.trans hp)).2
      rw [← hkey] at hnext
      rw [Model.Iter.next, if_neg (by simpa using hiv)] at hnext
      refine ⟨s', hs', hkeep.o, ?_⟩
      rw [referenceCall, Model.Iter.next, if_neg (by simpa using hiv)]
      exact h.of_first hkeep hpos hnext
    · have hiv := mt h.valid_iff.mpr hv
      refine ⟨s, by simp [IterImpl.call, IterImpl.next, hv], rfl, ?_⟩
      simpa [referenceCall, Model.Iter.next, hiv] using h
  | prev =>
    by_cases hv : s.valid
    · have hiv := h.valid_iff.mp hv
      obtain ⟨s', hs', hkeep, hpos⟩ := s.prev_spec h.good hv
      obtain ⟨p, hp, hprev⟩ := Model.Iter.isLast_prev h.ok hiv
      have hkey := (IterImpl.position_eq_some (h.position.trans hp)).2
      rw [← hkey] at hprev
      rw [Model.Iter.prev, if_neg (by simpa using hiv)] at hprev
      refine ⟨s', hs', hkeep.o, ?_⟩
      rw [referenceCall, Model.Iter.prev, if_neg (by simpa using hiv)]
      exact h.of_last hkeep hpos hprev
    · have hiv := mt h.valid_iff.mpr hv
      refine ⟨s, by simp [IterImpl.call, IterImpl.prev, hv], rfl, ?_⟩
      simpa [referenceCall, Model.Iter.prev, hiv] using h

theorem observe {cs : List IterCall} (hcs : ∀ k, .seekLT k ∈ cs → ∀ u ∈ s.o.upper, k ≤ u) :
    s.observe cs = some (referenceObserve it cs) := by
  induction cs generalizing s it with
  | nil => rfl
  | cons c cs ih =>
    obtain ⟨s', hs', ho, h'⟩ := h.call (c := c) fun k hk => hcs k (hk ▸ mem_cons_self)
    have hrest := ih h' fun k hk => ho.symm ▸ hcs k (mem_cons_of_mem c hk)
    unfold IterImpl.observe referenceObserve
    simp only [Option.bind_eq_bind, hs', Option.bind_some, hrest, h'.position]
    rfl

end Agree

/-- With every key of `seekLT` at or below the upper bound, the engine's iterator and the reference
iterator stand on the same entry after every call. -/
theorem IterImpl.observe_eq {v : Version} (h : v.Layered) (haccepts : ConcatIter.accepts v.l1)
    (s : ℕ) (o : IterOptions) (cs : List IterCall)
    (hcs : ∀ k, .seekLT k ∈ cs → ∀ u ∈ o.upper, k ≤ u) :
    (IterImpl.new v s o).bind (·.observe cs) = some (referenceObserve (v.reference s o) cs) := by
  obtain ⟨it, hnew, hgood, rfl, rfl, rfl, hinvalid⟩ := IterImpl.new_spec h haccepts s o
  rw [hnew, Option.bind_some]
  refine Agree.observe ⟨hgood, by simp [Model.Iter.Ok, Version.reference], rfl, rfl, rfl, ?_⟩ hcs
  simp [IterImpl.position, Model.Iter.position, Version.reference, hinvalid]

theorem IterImpl.observe_sample :
    (IterImpl.new sample 5 { upper := some [100] }).bind
        (·.observe [.seekGE [98], .seekLT [98], .prev, .last, .prev, .next]) =
      some [some ([99], [1]), some ([97], [1]), none, some ([99], [1]), some ([97], [1]),
        some ([99], [1])] :=
  (IterImpl.observe_eq sample_layered (by decide) 5 { upper := some [100] } _ (by
    intro k hk u hu
    simp only [mem_cons, reduceCtorEq, IterCall.seekLT.injEq, not_mem_nil, or_false,
      false_or] at hk
    obtain rfl := hk
    cases hu
    decide)).trans (by decide +kernel)

/-- Two keys in the memtable. -/
def pair : Version where
  mem := { entries := [⟨[97], 1, .value, [1]⟩, ⟨[98], 2, .value, [2]⟩] }

/-- A key above the upper bound: the engine goes down to the last key below the bound, and the
reference iterator is invalid, because the entry before the key is outside of the bounds. -/
theorem IterImpl.seekLT_above_upper : pair.Layered ∧ ConcatIter.accepts pair.l1 ∧
    (IterImpl.new pair 2 { upper := some [98] }).bind (·.observe [.seekLT [99]]) =
      some [some ([97], [1])] ∧
    referenceObserve (pair.reference 2 { upper := some [98] }) [.seekLT [99]] = [none] :=
  ⟨⟨by decide, by decide, by decide, by decide, by decide, by decide⟩, by decide, by decide +kernel,
    by decide +kernel⟩

end Rift.Engine
