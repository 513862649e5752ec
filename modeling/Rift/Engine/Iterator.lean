import Rift.Engine.Version

/-!
# The iterator

`IterImpl` of `engine-cpp/src/db.cc`: it walks the merge of all stores and collapses the versions of
each user key into what is visible at a sequence. Its loops end because the cursor strictly moves; here
they carry the number of versions as fuel, and running out of it is `none`, as a failed assertion is.
-/

namespace Rift.Engine

open List

/-! ### Moving over versions -/

/-- The largest tag, which comes first within a user key. -/
def kMaxTag : ℕ := 2 ^ 64 - 1

namespace MergedIter

/-- The number of versions a merge walks over. -/
def size (m : MergedIter) : ℕ := (m.sources.map (·.entries.length)).sum

/-- Move forward as long as a test holds. -/
def advanceWhile (q : Entry → Bool) : ℕ → MergedIter → Option MergedIter
  | 0, _ => none
  | fuel + 1, m =>
    match m.entry with
    | none => some m
    | some e => if q e then m.next.bind (advanceWhile q fuel) else some m

/-- The first, newest version of a user key, or the first version after it. -/
def seekToKey (m : MergedIter) (k : Slice) : MergedIter := m.seek ⟨k, kMaxTag⟩

def skipVersionsOf (m : MergedIter) (k : Slice) : Option MergedIter :=
  m.advanceWhile (·.key = k) (m.size + 1)

/-- The newest version of the current user key at or below the snapshot; past the key if it has
none. -/
def settleOnCurrentKey (m : MergedIter) (snapshot : ℕ) (k : Slice) : Option MergedIter :=
  m.advanceWhile (fun e => e.key = k && snapshot < e.seq) (m.size + 1)

end MergedIter

/-! ### The iterator -/

structure IterOptions where
  lower : Bound := none
  upper : Bound := none
  deriving DecidableEq, Repr

structure IterImpl where
  v : Version
  it : MergedIter
  snapshot : ℕ
  o : IterOptions := {}
  valid : Bool := false
  key : Slice := []
  value : Slice := []

namespace IterImpl

/-- The constructor builds the merge, and with it the cursor over the run. -/
def new (v : Version) (snapshot : ℕ) (o : IterOptions) : Option IterImpl :=
  return { v := v, it := ← v.build, snapshot := snapshot, o := o }

variable (s : IterImpl)

/-- What the iterator stands on. The bytes of an invalid one are not to be read. -/
def position : Option (Slice × Slice) := if s.valid then some (s.key, s.value) else none

/-- The value of a version of the current key, if it is live and uncovered. -/
def live (e : Entry) : Option Slice := e.answer (s.v.newestCovering e.key s.snapshot)

/-- Forward to a visible key. A user key that does not ascend is a failed assertion. -/
def advanceToVisible : ℕ → Option Slice → IterImpl → Option IterImpl
  | 0, _, _ => none
  | fuel + 1, previous, s =>
    match s.it.entry with
    | none => some { s with valid := false }
    | some e =>
      if previous.any (e.key ≤ ·) then none
      else if s.o.upper.any (· ≤ e.key) then some { s with valid := false }
      else do
        let it ← s.it.settleOnCurrentKey s.snapshot e.key
        match it.entry.filter (·.key = e.key) with
        | none => advanceToVisible fuel (some e.key) { s with it := it }
        | some x =>
          match s.live x with
          | some value => some { s with it := it, valid := true, key := e.key, value := value }
          | none => do
            let it ← it.skipVersionsOf e.key
            advanceToVisible fuel (some e.key) { s with it := it }

/-- The version to return for the current key of a backward walk, with the cursor on it. Above the
upper bound the key is not looked at. -/
def settleBackward (s : IterImpl) (k : Slice) : Option (MergedIter × Option Slice) :=
  if s.o.upper.any (· ≤ k) then some (s.it, none)
  else do
    let it ← (s.it.seekToKey k).settleOnCurrentKey s.snapshot k
    return (it, (it.entry.filter (·.key = k)).bind s.live)

/-- Back to a visible key. -/
def retreatToVisible : ℕ → Option Slice → IterImpl → Option IterImpl
  | 0, _, _ => none
  | fuel + 1, previous, s =>
    match s.it.entry with
    | none => some { s with valid := false }
    | some e =>
      if previous.any (· ≤ e.key) then none
      else if s.o.lower.any (e.key < ·) then some { s with valid := false }
      else do
        let (it, found) ← s.settleBackward e.key
        match found with
        | some value => some { s with it := it, valid := true, key := e.key, value := value }
        | none => do
          let it ← (it.seekToKey e.key).prev
          retreatToVisible fuel (some e.key) { s with it := it }

/-- Rounds that are enough for any walk. -/
def rounds : ℕ := s.it.size + 1

/-- Stand on the first version of a key or after it, and step back. -/
def stepBefore (k : Slice) : Option MergedIter :=
  if (s.it.seekToKey k).entry.isSome then (s.it.seekToKey k).prev
  else some (s.it.seekToKey k).seekToLast

def first : Option IterImpl :=
  let it := match s.o.lower with
    | some k => s.it.seekToKey k
    | none => s.it.seekToFirst
  advanceToVisible s.rounds none { s with it := it }

def last : Option IterImpl := do
  let it ← match s.o.upper with
    | some k => s.stepBefore k
    | none => some s.it.seekToLast
  retreatToVisible s.rounds none { s with it := it }

def seekGE (key : Slice) : Option IterImpl :=
  let start := match s.o.lower with
    | some k => if key < k then k else key
    | none => key
  advanceToVisible s.rounds none { s with it := s.it.seekToKey start }

def seekLT (key : Slice) : Option IterImpl := do
  let it ← s.stepBefore key
  retreatToVisible s.rounds none { s with it := it }

def next : Option IterImpl :=
  if !s.valid then some s
  else do
    let it ← s.it.skipVersionsOf s.key
    advanceToVisible s.rounds none { s with it := it }

def prev : Option IterImpl :=
  if !s.valid then some s
  else do
    let it ← (s.it.seekToKey s.key).prev
    retreatToVisible s.rounds none { s with it := it }

end IterImpl

/-! ### What the loops find -/

variable {e : Entry} {v : Version}

namespace MergedIter

variable {contents : List (List Entry)} {m : MergedIter} {o : Option Entry} {k : Slice}

theorem Over.size (h : m.Over contents) : m.size = contents.flatten.length := by
  rw [MergedIter.size, length_flatten, ← h.entries, map_map]
  rfl

/-- Fewer versions are left after a version than from it on, so fuel that was enough for these is
enough for those. -/
theorem lt_fuel {κ : Type*} [LinearOrder κ] {f : Entry → κ} {es : List Entry} {fuel : ℕ}
    (he : e ∈ es) (ho : ∀ x ∈ o, f e < f x) (h : (es.filter (f e ≤ f ·)).length < fuel + 1) :
    0 < fuel ∧ ∀ x ∈ o, (es.filter (f x ≤ f ·)).length < fuel := by
  have hone : 0 < (es.filter (f e ≤ f ·)).length :=
    length_pos_of_mem (mem_filter.mpr ⟨he, by simp⟩)
  refine ⟨by omega, fun x hx => ?_⟩
  have hsub : es.filter (f x ≤ f ·) = (es.filter (f e ≤ f ·)).filter (f x ≤ f ·) := by
    rw [filter_filter]
    refine filter_congr fun y _ => ?_
    simpa using fun hy => (ho x hx).le.trans hy
  have hlt : (es.filter (f x ≤ f ·)).length < (es.filter (f e ≤ f ·)).length := by
    rw [hsub, length_filter_lt_length_iff_exists]
    exact ⟨e, mem_filter.mpr ⟨he, by simp⟩, by simpa using ho x hx⟩
  omega

section

variable (hapart : Apart contents)
  (hinj : ∀ x ∈ contents.flatten, ∀ y ∈ contents.flatten, x.ikey = y.ikey → x = y)
include hapart hinj

/-- Moving forward while a test holds stops at the first version that fails it. -/
theorem stands_advanceWhile {P : Entry → Prop} {q : Entry → Bool} {fuel : ℕ}
    (h : m.Stands contents o)
    (ho : IsFirst Entry.ikey (fun x => x ∈ contents.flatten ∧ P x) o)
    (hup : ∀ x y, P x → x.ikey ≤ y.ikey → P y) (hpos : 0 < fuel)
    (hfuel : ∀ e ∈ o, (contents.flatten.filter (e.ikey ≤ ·.ikey)).length < fuel) :
    ∃ m' o', m.advanceWhile q fuel = some m' ∧ m'.Stands contents o' ∧
      IsFirst Entry.ikey (fun x => x ∈ contents.flatten ∧ P x ∧ ¬ q x) o' := by
  induction fuel generalizing m o P with
  | zero => omega
  | succ fuel ih =>
    unfold advanceWhile
    rw [h.entry]
    cases o with
    | none => exact ⟨m, none, rfl, h, fun x hx => ho x ⟨hx.1, hx.2.1⟩⟩
    | some e =>
      dsimp only
      split_ifs with hq
      · obtain ⟨m₁, o₁, hnext, h₁, ho₁⟩ := stands_next hapart h
        obtain ⟨hpos', hfuel'⟩ := lt_fuel ho.1.1 (fun _ he₁ => (ho₁.of_mem he₁).2) (hfuel e rfl)
        obtain ⟨m', o', hm', h', ho'⟩ := ih h₁ ho₁ (fun x y hx hxy => hx.trans_le hxy) hpos' hfuel'
        refine ⟨m', o', by rw [hnext, Option.bind_some, hm'], h', ho'.congr fun x => ?_⟩
        refine and_congr_right fun hx => and_congr_left fun hnq => ⟨fun hlt => ?_, fun hP => ?_⟩
        · exact hup e x ho.1.2 hlt.le
        · refine lt_of_le_of_ne (ho.2 x ⟨hx, hP⟩) fun heq => hnq ?_
          exact hinj e ho.1.1 x hx heq ▸ hq
      · refine ⟨m, some e, rfl, h, ⟨ho.1.1, ho.1.2, hq⟩, fun x hx => ho.2 x ⟨hx.1, hx.2.1⟩⟩

end

end MergedIter

/-! ### Moving over the versions of a layered database -/

namespace Version

variable {v : Version} (h : v.Layered)
include h

theorem Layered.apart : MergedIter.Apart v.contents :=
  h.newer.imp fun hab x hx y hy heq => by
    obtain ⟨hk, hs⟩ := Entry.tag_eq_of_ikey heq
    exact (hab x hx y hy hk).ne hs.symm

theorem Layered.ikey_inj : ∀ x ∈ v.entries, ∀ y ∈ v.entries, x.ikey = y.ikey → x = y :=
  fun x hx y hy heq =>
    h.distinct x hx y hy (Entry.tag_eq_of_ikey heq).1 (Entry.tag_eq_of_ikey heq).2

variable {m : MergedIter} {k : Slice}

theorem Layered.stands_seekToKey (hm : m.Over v.contents) (k : Slice) :
    ∃ o, (m.seekToKey k).Stands v.contents o ∧
      IsFirst Entry.ikey (fun x => x ∈ v.entries ∧ k ≤ x.key) o := by
  obtain ⟨o, ho, hfirst⟩ := MergedIter.stands_seek hm ⟨k, kMaxTag⟩
  refine ⟨o, ho, hfirst.congr fun x => and_congr_right fun hx => ?_⟩
  -- No version has a tag above the largest one.
  have htag : x.tag ≤ kMaxTag := by
    have := h.legal x hx
    unfold Entry.tag makeTag kMaxTag
    unfold kMaxSeqNum at this
    cases x.type <;> simp only [ValueType.toNat] <;> omega
  rw [InternalKey.le_iff, Entry.ikey_tag, and_iff_left htag]
  exact le_iff_lt_or_eq.symm

theorem Layered.stands_stepBefore (hm : m.Over v.contents) (k : Slice) :
    ∃ m' o, (if (m.seekToKey k).entry.isSome then (m.seekToKey k).prev
        else some (m.seekToKey k).seekToLast) = some m' ∧
      m'.Stands v.contents o ∧ IsLast Entry.ikey (fun x => x ∈ v.entries ∧ x.key < k) o := by
  obtain ⟨o, ho, hfirst⟩ := h.stands_seekToKey hm k
  rw [ho.entry]
  cases o with
  | none =>
    obtain ⟨o', ho', hlast⟩ := MergedIter.stands_seekToLast ho.isOver
    refine ⟨_, o', rfl, ho', hlast.congr fun x => ?_⟩
    exact ⟨fun hx => ⟨hx, not_le.mp fun hle => hfirst x ⟨hx, hle⟩⟩, And.left⟩
  | some e =>
    obtain ⟨m', o', hprev, ho', hlast⟩ := MergedIter.stands_prev h.apart ho
    refine ⟨m', o', by rw [Option.isSome_some, if_pos rfl, hprev], ho', hlast.congr fun x => ?_⟩
    refine and_congr_right fun hx => ⟨fun hlt => ?_, fun hlt => ?_⟩
    · exact not_le.mp fun hle => (hfirst.2 x ⟨hx, hle⟩).not_gt hlt
    · exact InternalKey.lt_iff.mpr (.inl (hlt.trans_le hfirst.1.2))

/-- Skipping the versions of a key ends on the first version of a later key. -/
theorem Layered.stands_skipVersionsOf {x : Entry} (hm : m.Stands v.contents (some x))
    (hx : x ∈ v.entries) (hk : x.key = k) :
    ∃ m' o, m.skipVersionsOf k = some m' ∧ m'.Stands v.contents o ∧
      IsFirst Entry.ikey (fun y => y ∈ v.entries ∧ k < y.key) o := by
  have hlen := hm.isOver.size
  obtain ⟨m', o, hskip, ho, hfirst⟩ := MergedIter.stands_advanceWhile (q := (·.key = k)) h.apart
    h.ikey_inj hm (P := (x.ikey ≤ ·.ikey)) ⟨⟨hx, le_rfl⟩, fun y hy => hy.2⟩
    (fun _ _ hy hyz => hy.trans hyz) (Nat.succ_pos m.size)
    (fun e _ => by rw [hlen]; exact Nat.lt_succ_of_le (length_filter_le _ _))
  refine ⟨m', o, hskip, ho, hfirst.congr fun y => and_congr_right fun hy => ?_⟩
  simp only [decide_eq_true_eq]
  constructor
  · rintro ⟨hle, hne⟩
    exact lt_of_le_of_ne (hk ▸ InternalKey.userKey_le hle) (Ne.symm hne)
  · intro hlt
    exact ⟨InternalKey.le_iff.mpr (.inl (hk.trans_lt hlt)), hlt.ne'⟩

/-- Settling on the first key of an upper part finds its newest visible version; if it has none, the
cursor is on the first version of a later key. -/
theorem Layered.stands_settle {L : Slice → Prop} (hL : ∀ a b, L a → a ≤ b → L b)
    (hm : m.Stands v.contents (some e))
    (he : IsFirst Entry.ikey (fun x => x ∈ v.entries ∧ L x.key) (some e)) (s : ℕ) :
    ∃ m' o, m.settleOnCurrentKey s e.key = some m' ∧ m'.Stands v.contents o ∧
      Newest v.entries e.key s (o.filter (·.key = e.key)) ∧
      (o.filter (·.key = e.key) = none →
        IsFirst Entry.ikey (fun x => x ∈ v.entries ∧ e.key < x.key) o) := by
  have hlen := hm.isOver.size
  have hLle : ∀ x ∈ v.entries, L x.key ↔ e.key ≤ x.key := fun x hx =>
    ⟨fun hl => InternalKey.userKey_le (he.2 x ⟨hx, hl⟩), hL _ _ he.1.2⟩
  obtain ⟨m', o, hset, ho, hfirst⟩ := MergedIter.stands_advanceWhile
    (q := fun x => x.key = e.key && s < x.seq) h.apart h.ikey_inj hm (P := (L ·.key)) he
    (fun _ _ hx hxy => hL _ _ hx (InternalKey.userKey_le hxy)) (Nat.succ_pos m.size)
    (fun e _ => by rw [hlen]; exact Nat.lt_succ_of_le (length_filter_le _ _))
  have hfirst : IsFirst Entry.ikey
      (fun x => x ∈ v.entries ∧ e.key ≤ x.key ∧ (x.key = e.key → x.seq ≤ s)) o :=
    hfirst.congr fun x => and_congr_right fun hx => by
      rw [hLle x hx]
      simp
  refine ⟨m', o, hset, ho, ?_, fun hnone => ?_⟩
  · cases o with
    | none => exact fun x hx => hfirst x ⟨hx.1, hx.2.1.ge, fun _ => hx.2.2⟩
    | some x =>
      by_cases hk : x.key = e.key
      · rw [Option.filter_some_pos (by simpa using hk)]
        exact ⟨⟨hfirst.1.1, hk, hfirst.1.2.2 hk⟩,
          fun y hy => hfirst.2 y ⟨hy.1, hy.2.1.ge, fun _ => hy.2.2⟩⟩
      · rw [Option.filter_some_neg (by simpa using hk)]
        rintro y ⟨hy, hyk, hys⟩
        have hle := InternalKey.userKey_le (hfirst.2 y ⟨hy, hyk.ge, fun _ => hys⟩)
        exact hk (le_antisymm (hyk ▸ hle) hfirst.1.2.1)
  · refine hfirst.of_imp (fun x hx => ⟨hx.1, hx.2.le, fun hk => absurd hk hx.2.ne'⟩) ?_
    rintro x rfl
    have hk : x.key ≠ e.key := fun hk => by
      rw [Option.filter_some_pos (by simpa using hk)] at hnone
      cases hnone
    exact ⟨hfirst.1.1, lt_of_le_of_ne hfirst.1.2.1 (Ne.symm hk)⟩

end Version

/-! ### What the iterator finds -/

theorem inRange_iff {k : Slice} {lower upper : Bound} :
    inRange k lower upper ↔ (∀ l ∈ lower, l ≤ k) ∧ ∀ u ∈ upper, k < u := by
  cases lower <;> cases upper <;> simp [inRange]

theorem any_iff {α : Type*} {p : α → Bool} {o : Option α} : o.any p ↔ ∃ x ∈ o, p x :=
  Option.any_eq_true _ _

namespace IterImpl

/-- What is visible to the iterator. -/
def sees (s : IterImpl) (k : Slice) : Option Slice := visible s.v.entries s.v.ranges k s.snapshot

/-- A visible key inside the bounds that satisfies a condition, with its value. -/
def Shows (s : IterImpl) (P : Slice → Prop) (p : Slice × Slice) : Prop :=
  s.sees p.1 = some p.2 ∧ inRange p.1 s.o.lower s.o.upper ∧ P p.1

/-- The stores are layered, the merge is over them, and a valid iterator stands on a visible key. -/
structure Good (s : IterImpl) : Prop where
  layered : s.v.Layered
  isOver : s.it.Over s.v.contents
  shows : s.valid → s.Shows (fun _ => True) (s.key, s.value) ∧
    ∃ x ∈ s.v.entries, s.it.At s.v.contents x ∧ x.key = s.key

/-- The same iterator, in good order, somewhere else. -/
structure Keeps (s s' : IterImpl) : Prop where
  v : s'.v = s.v
  snapshot : s'.snapshot = s.snapshot
  o : s'.o = s.o
  good : s'.Good

variable {s : IterImpl} {m : MergedIter} {D : Slice → Prop}

theorem Keeps.shows {s' : IterImpl} (h : s.Keeps s') {P : Slice → Prop} {p : Slice × Slice} :
    s'.Shows P p ↔ s.Shows P p := by
  unfold Shows sees
  rw [h.v, h.snapshot, h.o]

theorem sees_eq (h : s.v.Layered) {k : Slice} {o : Option Entry}
    (ho : Newest s.v.entries k s.snapshot o) : s.sees k = o.bind s.live := by
  unfold sees
  rw [visible_eq h.distinct ho fun q => Version.lt_newestCovering h.run]
  cases o with
  | none => rfl
  | some e =>
    have hk : e.key = k := ho.1.2.1
    simp only [Option.bind_some, live, hk]

theorem exists_mem_of_sees {k x : Slice} (h : s.sees k = some x) : ∃ e ∈ s.v.entries, e.key = k :=
  exists_mem_of_visible h

theorem advanceToVisible_spec {L : Slice → Prop} (hL : ∀ a b, L a → a ≤ b → L b) {fuel : ℕ}
    {previous : Option Slice} {o : Option Entry} (hlay : s.v.Layered)
    (ho : s.it.Stands s.v.contents o)
    (hfirst : IsFirst Entry.ikey (fun x => x ∈ s.v.entries ∧ L x.key) o)
    (hlow : ∀ k, L k → ∀ l ∈ s.o.lower, l ≤ k) (hprev : ∀ k, L k → ∀ p ∈ previous, p < k)
    (hpos : 0 < fuel)
    (hfuel : ∀ e ∈ o, (s.v.entries.filter (e.key ≤ ·.key)).length < fuel) :
    ∃ s', advanceToVisible fuel previous s = some s' ∧ s.Keeps s' ∧
      IsFirst Prod.fst (s.Shows L) s'.position := by
  induction fuel generalizing s o previous L with
  | zero => omega
  | succ fuel ih =>
    unfold advanceToVisible
    rw [ho.entry]
    cases o with
    | none =>
      refine ⟨_, rfl, ⟨rfl, rfl, rfl, hlay, ho.isOver, by simp⟩, ?_⟩
      rintro p ⟨hp, -, hl⟩
      obtain ⟨e, he, hk⟩ := exists_mem_of_sees hp
      exact hfirst e ⟨he, hk ▸ hl⟩
    | some e =>
      have hLe : ∀ k x, s.sees k = some x → (L k ↔ e.key ≤ k) := by
        intro k x hk
        obtain ⟨y, hy, rfl⟩ := exists_mem_of_sees hk
        exact ⟨fun hl => InternalKey.userKey_le (hfirst.2 y ⟨hy, hl⟩), hL _ _ hfirst.1.2⟩
      dsimp only
      have hasc : ¬ previous.any (e.key ≤ ·) := fun hany => by
        obtain ⟨p, hp, hle⟩ := any_iff.mp hany
        exact (hprev e.key hfirst.1.2 p hp).not_ge (of_decide_eq_true hle)
      rw [if_neg hasc]
      split_ifs with hupper
      · -- Everything from here on is at or above the upper bound.
        refine ⟨_, rfl, ⟨rfl, rfl, rfl, hlay, ho.isOver, by simp⟩, ?_⟩
        rintro p ⟨hp, hin, hl⟩
        obtain ⟨u, hu, hle⟩ := any_iff.mp hupper
        have := (inRange_iff.mp hin).2 u hu
        exact absurd (((hLe _ _ hp).mp hl).trans_lt this) (by simpa using hle)
      · obtain ⟨m, om, hset, hm, hnewest, hpast⟩ := hlay.stands_settle hL ho hfirst s.snapshot
        have hsees := sees_eq hlay hnewest
        -- Nothing visible here: go on with the later keys.
        have hgo : ∀ (m' : MergedIter) (o' : Option Entry), m'.Stands s.v.contents o' →
            IsFirst Entry.ikey (fun x => x ∈ s.v.entries ∧ e.key < x.key) o' → s.sees e.key = none →
            ∃ s', advanceToVisible fuel (some e.key) { s with it := m' } = some s' ∧ s.Keeps s' ∧
              IsFirst Prod.fst (s.Shows L) s'.position := by
          intro m' o' hm' ho' hnone
          obtain ⟨hleft, hfuel'⟩ := MergedIter.lt_fuel (f := Entry.key) hfirst.1.1
            (fun _ he' => (IsFirst.of_mem ho' he').2) (hfuel e rfl)
          obtain ⟨s', hs', hkeep, hpos'⟩ := ih (s := { s with it := m' }) (L := (e.key < ·))
            (fun _ _ ha hab => ha.trans_le hab) hlay hm' ho'
            (fun k hk l hl => (hlow e.key hfirst.1.2 l hl).trans hk.le)
            (fun k hk p (hp : p ∈ some e.key) => Option.some.inj hp ▸ hk) hleft hfuel'
          refine ⟨s', hs', ⟨hkeep.v, hkeep.snapshot, hkeep.o, hkeep.good⟩, hpos'.congr fun p => ?_⟩
          refine and_congr_right fun hp => and_congr_right fun _ => ?_
          rw [hLe p.1 p.2 hp]
          refine ⟨le_of_lt, fun hle => lt_of_le_of_ne hle fun heq => ?_⟩
          have hp' : s.sees p.1 = some p.2 := hp
          rw [← heq, hnone] at hp'
          cases hp'
        simp only [Option.bind_eq_bind, hset, Option.bind_some, hm.entry]
        cases hf : om.filter (·.key = e.key) with
        | none =>
          rw [hf] at hsees
          exact hgo m om hm (hpast hf) hsees
        | some x =>
          rw [hf] at hsees hnewest
          obtain ⟨rfl, hxk⟩ := Option.filter_eq_some_iff.mp hf
          have hxk : x.key = e.key := of_decide_eq_true hxk
          dsimp only
          cases hl : s.live x with
          | none =>
            obtain ⟨m', o', hskip, hm', ho'⟩ :=
              hlay.stands_skipVersionsOf hm hnewest.1.1 hxk
            rw [hskip]
            exact hgo m' o' hm' ho' (hsees.trans hl)
          | some value =>
            have hshow : s.Shows L (e.key, value) := by
              refine ⟨hsees.trans hl, inRange_iff.mpr ⟨hlow e.key hfirst.1.2, fun u hu => ?_⟩,
                hfirst.1.2⟩
              exact not_le.mp fun hle =>
                hupper (any_iff.mpr ⟨u, hu, by simpa using hle⟩)
            refine ⟨_, rfl, ⟨rfl, rfl, rfl, hlay, hm.isOver, fun _ => ?_⟩, hshow, fun p hp => ?_⟩
            · exact ⟨⟨hshow.1, hshow.2.1, trivial⟩, x, hnewest.1.1, hm, hxk⟩
            · exact (hLe _ _ hp.1).mp hp.2.2

theorem seekToKey_of_mem (hlay : s.v.Layered) (hm : m.Over s.v.contents) (he : e ∈ s.v.entries) :
    ∃ e₁, (m.seekToKey e.key).Stands s.v.contents (some e₁) ∧ e₁.key = e.key ∧
      IsFirst Entry.ikey (fun x => x ∈ s.v.entries ∧ e.key ≤ x.key) (some e₁) := by
  obtain ⟨o, ho, hfirst⟩ := hlay.stands_seekToKey hm e.key
  cases o with
  | none => exact absurd ⟨he, le_rfl⟩ (hfirst e)
  | some e₁ =>
    exact ⟨e₁, ho, le_antisymm (InternalKey.userKey_le (hfirst.2 e ⟨he, le_rfl⟩)) hfirst.1.2, hfirst⟩

theorem settleBackward_spec (hlay : s.v.Layered) (hover : s.it.Over s.v.contents)
    (he : e ∈ s.v.entries) :
    ∃ m found, s.settleBackward e.key = some (m, found) ∧ m.Over s.v.contents ∧
      (∀ x, s.sees e.key = some x → (∀ u ∈ s.o.upper, e.key < u) → found = some x) ∧
      ∀ x, found = some x → s.sees e.key = some x ∧ (∀ u ∈ s.o.upper, e.key < u) ∧
        ∃ y ∈ s.v.entries, m.At s.v.contents y ∧ y.key = e.key := by
  unfold settleBackward
  split_ifs with hupper
  · obtain ⟨u, hu, hle⟩ := any_iff.mp hupper
    refine ⟨_, _, rfl, hover, fun x _ hlt => ?_, by simp⟩
    exact absurd (hlt u hu) (of_decide_eq_true hle).not_gt
  · have hlt : ∀ u ∈ s.o.upper, e.key < u := fun u hu => not_le.mp fun hle =>
      hupper (any_iff.mpr ⟨u, hu, by simpa using hle⟩)
    obtain ⟨e₁, hst, hk, hfirst⟩ := seekToKey_of_mem hlay hover he
    obtain ⟨m, o, hset, hm, hnewest, -⟩ :=
      hlay.stands_settle (L := (e.key ≤ ·)) (fun _ _ ha hab => ha.trans hab) hst hfirst s.snapshot
    rw [hk] at hset hnewest
    have hsees := sees_eq hlay hnewest
    simp only [Option.bind_eq_bind, hset, Option.bind_some, hm.entry]
    refine ⟨m, _, rfl, hm.isOver, fun x hx _ => hsees.symm.trans hx, fun x hx => ?_⟩
    obtain ⟨y, hy, -⟩ := Option.bind_eq_some_iff.mp hx
    obtain ⟨rfl, hyk⟩ := Option.filter_eq_some_iff.mp hy
    rw [hy] at hnewest
    exact ⟨hsees.trans hx, hlt, y, hnewest.1.1, hm, of_decide_eq_true hyk⟩

theorem retreatToVisible_spec (hD : ∀ a b, D a → b ≤ a → D b) {fuel : ℕ} {previous : Option Slice}
    {o : Option Entry} (hlay : s.v.Layered) (ho : s.it.Stands s.v.contents o)
    (hlast : IsLast Entry.ikey (fun x => x ∈ s.v.entries ∧ D x.key) o)
    (hprev : ∀ k, D k → ∀ p ∈ previous, k < p) (hpos : 0 < fuel)
    (hfuel : ∀ e ∈ o, (s.v.entries.filter (·.key ≤ e.key)).length < fuel) :
    ∃ s', retreatToVisible fuel previous s = some s' ∧ s.Keeps s' ∧
      IsLast Prod.fst (s.Shows D) s'.position := by
  induction fuel generalizing s o previous D with
  | zero => omega
  | succ fuel ih =>
    unfold retreatToVisible
    rw [ho.entry]
    cases o with
    | none =>
      refine ⟨_, rfl, ⟨rfl, rfl, rfl, hlay, ho.isOver, by simp⟩, ?_⟩
      rintro p ⟨hp, -, hd⟩
      obtain ⟨e, he, hk⟩ := exists_mem_of_sees hp
      exact hlast e ⟨he, hk ▸ hd⟩
    | some e =>
      rw [isLast_some] at hlast
      have hDe : ∀ k x, s.sees k = some x → (D k ↔ k ≤ e.key) := by
        intro k x hk
        obtain ⟨y, hy, rfl⟩ := exists_mem_of_sees hk
        exact ⟨fun hd => InternalKey.userKey_le (hlast.2 y ⟨hy, hd⟩), hD _ _ hlast.1.2⟩
      have hdesc : ¬ previous.any (· ≤ e.key) := fun hany => by
        obtain ⟨p, hp, hle⟩ := any_iff.mp hany
        exact (hprev e.key hlast.1.2 p hp).not_ge (of_decide_eq_true hle)
      dsimp only
      rw [if_neg hdesc]
      split_ifs with hlower
      · -- Everything from here down is below the lower bound.
        refine ⟨_, rfl, ⟨rfl, rfl, rfl, hlay, ho.isOver, by simp⟩, ?_⟩
        rintro p ⟨hp, hin, hd⟩
        obtain ⟨l, hl, hlt⟩ := any_iff.mp hlower
        have := (inRange_iff.mp hin).1 l hl
        exact absurd (this.trans ((hDe _ _ hp).mp hd)) (of_decide_eq_true hlt).not_ge
      · obtain ⟨m, found, hset, hm, hall, hfound⟩ := settleBackward_spec hlay ho.isOver hlast.1.1
        simp only [Option.bind_eq_bind, hset, Option.bind_some]
        cases found with
        | some value =>
          obtain ⟨hsees, hlt, y, hy, hmy, hyk⟩ := hfound value rfl
          have hshow : s.Shows D (e.key, value) := by
            refine ⟨hsees, inRange_iff.mpr ⟨fun l hl => ?_, hlt⟩, hlast.1.2⟩
            exact not_lt.mp fun hlt => hlower (any_iff.mpr ⟨l, hl, by simpa using hlt⟩)
          refine ⟨_, rfl, ⟨rfl, rfl, rfl, hlay, hm, fun _ => ?_⟩, hshow, fun p hp => ?_⟩
          · exact ⟨⟨hshow.1, hshow.2.1, trivial⟩, y, hy, hmy, hyk⟩
          · exact (hDe _ _ hp.1).mp hp.2.2
        | none =>
          -- Nothing to return here: go on with the earlier keys.
          obtain ⟨e₁, hst, -, -⟩ := seekToKey_of_mem hlay hm hlast.1.1
          obtain ⟨m', o', hstep, hm', ho'⟩ := hlay.stands_stepBefore hm e.key
          rw [hst.entry, Option.isSome_some, if_pos rfl] at hstep
          obtain ⟨hleft, hfuel'⟩ := MergedIter.lt_fuel (f := OrderDual.toDual ∘ Entry.key) hlast.1.1
            (fun _ he' => (IsFirst.of_mem ho' he').2) (hfuel e rfl)
          obtain ⟨s', hs', hkeep, hpos'⟩ := ih (s := { s with it := m' }) (D := (· < e.key))
            (fun _ _ ha hba => hba.trans_lt ha) hlay hm' ho'
            (fun k hk p (hp : p ∈ some e.key) => Option.some.inj hp ▸ hk) hleft hfuel'
          rw [hstep, Option.bind_some]
          refine ⟨s', hs', ⟨hkeep.v, hkeep.snapshot, hkeep.o, hkeep.good⟩, hpos'.congr fun p => ?_⟩
          refine and_congr_right fun hp => and_congr_right fun hin => ?_
          rw [hDe p.1 p.2 hp]
          refine ⟨le_of_lt, fun hle => lt_of_le_of_ne hle fun heq => ?_⟩
          have hp' : s.sees p.1 = some p.2 := hp
          rw [heq] at hp' hin
          cases hall p.2 hp' (inRange_iff.mp hin).2

/-! ### The calls -/

theorem lt_rounds (hover : s.it.Over s.v.contents) (p : Entry → Bool) :
    (s.v.entries.filter p).length < s.rounds := by
  unfold rounds
  rw [hover.size]
  exact Nat.lt_succ_of_le (length_filter_le _ _)

section

variable (h : s.Good) {o : Option Entry}
include h

theorem forward_from {L : Slice → Prop} (hL : ∀ a b, L a → a ≤ b → L b)
    (hm : m.Stands s.v.contents o)
    (hfirst : IsFirst Entry.ikey (fun x => x ∈ s.v.entries ∧ L x.key) o)
    (hlow : ∀ k, L k → ∀ l ∈ s.o.lower, l ≤ k) :
    ∃ s', advanceToVisible s.rounds none { s with it := m } = some s' ∧ s.Keeps s' ∧
      IsFirst Prod.fst (s.Shows L) s'.position := by
  obtain ⟨s', hs', hkeep, hpos⟩ := @advanceToVisible_spec { s with it := m } L hL s.rounds none o
    h.layered hm hfirst hlow (by simp) (Nat.succ_pos s.it.size) fun e _ => lt_rounds h.isOver _
  exact ⟨s', hs', ⟨hkeep.v, hkeep.snapshot, hkeep.o, hkeep.good⟩, hpos⟩

theorem backward_from (hD : ∀ a b, D a → b ≤ a → D b) (hm : m.Stands s.v.contents o)
    (hlast : IsLast Entry.ikey (fun x => x ∈ s.v.entries ∧ D x.key) o) :
    ∃ s', retreatToVisible s.rounds none { s with it := m } = some s' ∧ s.Keeps s' ∧
      IsLast Prod.fst (s.Shows D) s'.position := by
  obtain ⟨s', hs', hkeep, hpos⟩ := @retreatToVisible_spec { s with it := m } D hD s.rounds none o
    h.layered hm hlast (by simp) (Nat.succ_pos s.it.size) fun e _ => lt_rounds h.isOver _
  exact ⟨s', hs', ⟨hkeep.v, hkeep.snapshot, hkeep.o, hkeep.good⟩, hpos⟩

theorem first_spec : ∃ s', s.first = some s' ∧ s.Keeps s' ∧
    IsFirst Prod.fst (s.Shows fun _ => True) s'.position := by
  have hstart : ∃ o, (match s.o.lower with
        | some k => s.it.seekToKey k
        | none => s.it.seekToFirst).Stands s.v.contents o ∧
      IsFirst Entry.ikey (fun x => x ∈ s.v.entries ∧ ∀ l ∈ s.o.lower, l ≤ x.key) o := by
    cases hl : s.o.lower with
    | none =>
      obtain ⟨o, ho, hfirst⟩ := MergedIter.stands_seekToFirst h.isOver
      exact ⟨o, ho, hfirst.congr fun x => (and_iff_left (by simp)).symm⟩
    | some k =>
      obtain ⟨o, ho, hfirst⟩ := h.layered.stands_seekToKey h.isOver k
      exact ⟨o, ho, hfirst.congr fun x => by simp⟩
  obtain ⟨o, ho, hfirst⟩ := hstart
  obtain ⟨s', hs', hkeep, hpos⟩ := forward_from h (L := fun k => ∀ l ∈ s.o.lower, l ≤ k)
    (fun _ _ ha hab l hl => (ha l hl).trans hab) ho hfirst fun _ hk => hk
  refine ⟨s', hs', hkeep, hpos.congr fun p => and_congr_right fun _ => ?_⟩
  exact ⟨fun hp => ⟨hp.1, trivial⟩, fun hp => ⟨hp.1, (inRange_iff.mp hp.1).1⟩⟩

theorem seekGE_spec (key : Slice) : ∃ s', s.seekGE key = some s' ∧ s.Keeps s' ∧
    IsFirst Prod.fst (s.Shows (key ≤ ·)) s'.position := by
  obtain ⟨start, hstart, hiff⟩ : ∃ start, (match s.o.lower with
        | some k => if key < k then k else key
        | none => key) = start ∧ ∀ k, start ≤ k ↔ key ≤ k ∧ ∀ l ∈ s.o.lower, l ≤ k := by
    cases s.o.lower with
    | none => exact ⟨key, rfl, by simp⟩
    | some l =>
      dsimp only
      split_ifs with hlt
      · exact ⟨l, rfl, fun k => by simpa using fun hk => hlt.le.trans hk⟩
      · exact ⟨key, rfl, fun k => by simpa using fun hk => (not_lt.mp hlt).trans hk⟩
  obtain ⟨o, ho, hfirst⟩ := h.layered.stands_seekToKey h.isOver start
  obtain ⟨s', hs', hkeep, hpos⟩ := forward_from h (L := (start ≤ ·))
    (fun _ _ ha hab => ha.trans hab) ho hfirst fun k hk => ((hiff k).mp hk).2
  refine ⟨s', ?_, hkeep, hpos.congr fun p => and_congr_right fun _ => ?_⟩
  · unfold seekGE
    rw [hstart]
    exact hs'
  · refine ⟨fun hp => ⟨hp.1, ((hiff _).mp hp.2).1⟩, fun hp => ⟨hp.1, ?_⟩⟩
    exact (hiff _).mpr ⟨hp.2, (inRange_iff.mp hp.1).1⟩

theorem seekLT_spec (key : Slice) : ∃ s', s.seekLT key = some s' ∧ s.Keeps s' ∧
    IsLast Prod.fst (s.Shows (· < key)) s'.position := by
  obtain ⟨m, o, hstep, ho, hlast⟩ := h.layered.stands_stepBefore h.isOver key
  obtain ⟨s', hs', hkeep, hpos⟩ := backward_from h (D := (· < key))
    (fun _ _ ha hba => hba.trans_lt ha) ho hlast
  refine ⟨s', ?_, hkeep, hpos⟩
  unfold seekLT stepBefore
  rw [hstep]
  exact hs'

theorem last_spec : ∃ s', s.last = some s' ∧ s.Keeps s' ∧
    IsLast Prod.fst (s.Shows fun _ => True) s'.position := by
  unfold last
  cases hu : s.o.upper with
  | none =>
    obtain ⟨o, ho, hlast⟩ := MergedIter.stands_seekToLast h.isOver
    obtain ⟨s', hs', hkeep, hpos⟩ := backward_from h (D := fun _ => True) (fun _ _ _ _ => trivial) ho
      (hlast.congr fun x => (and_iff_left trivial).symm)
    exact ⟨s', hs', hkeep, hpos⟩
  | some k =>
    obtain ⟨m, o, hstep, ho, hlast⟩ := h.layered.stands_stepBefore h.isOver k
    obtain ⟨s', hs', hkeep, hpos⟩ := backward_from h (D := (· < k))
      (fun _ _ ha hba => hba.trans_lt ha) ho hlast
    refine ⟨s', ?_, hkeep, hpos.congr fun p => and_congr_right fun _ => ?_⟩
    · have hbefore : s.stepBefore k = some m := hstep
      simp only [Option.bind_eq_bind, hbefore, Option.bind_some]
      exact hs'
    · exact ⟨fun hp => ⟨hp.1, trivial⟩, fun hp => ⟨hp.1, (inRange_iff.mp hp.1).2 k hu⟩⟩

variable (hvalid : s.valid)
include hvalid

theorem next_spec : ∃ s', s.next = some s' ∧ s.Keeps s' ∧
    IsFirst Prod.fst (s.Shows (s.key < ·)) s'.position := by
  obtain ⟨hshow, x, hx, hat, hk⟩ := h.shows hvalid
  obtain ⟨m, o, hskip, ho, hfirst⟩ := h.layered.stands_skipVersionsOf hat hx hk
  obtain ⟨s', hs', hkeep, hpos⟩ := forward_from h (L := (s.key < ·))
    (fun _ _ ha hab => ha.trans_le hab) ho hfirst
    fun k hlt l hl => ((inRange_iff.mp hshow.2.1).1 l hl).trans (le_of_lt hlt)
  refine ⟨s', ?_, hkeep, hpos⟩
  unfold next
  rw [if_neg (by simpa using hvalid), hskip]
  exact hs'

theorem prev_spec : ∃ s', s.prev = some s' ∧ s.Keeps s' ∧
    IsLast Prod.fst (s.Shows (· < s.key)) s'.position := by
  obtain ⟨hshow, x, hx, hat, hk⟩ := h.shows hvalid
  obtain ⟨e₁, hst, -, -⟩ := seekToKey_of_mem h.layered h.isOver hx
  obtain ⟨m, o, hstep, ho, hlast⟩ := h.layered.stands_stepBefore h.isOver s.key
  rw [hk] at hst
  rw [hst.entry, Option.isSome_some, if_pos rfl] at hstep
  obtain ⟨s', hs', hkeep, hpos⟩ := backward_from h (D := (· < s.key))
    (fun _ _ ha hba => hba.trans_lt ha) ho hlast
  refine ⟨s', ?_, hkeep, hpos⟩
  unfold prev
  rw [if_neg (by simpa using hvalid), hstep]
  exact hs'

end

end IterImpl

/-- The merge of a layered version, if the cursor over the run accepts level 1. -/
theorem Version.Layered.build_eq (h : v.Layered) (haccepts : ConcatIter.accepts v.l1) :
    ∃ m, v.build = some m ∧ m.Over v.contents := by
  obtain ⟨m, hm, hover⟩ := ((Version.over_memtables h).addTables v.l0).addRun haccepts
  refine ⟨m, hm, ?_⟩
  simpa only [Version.contents, cons_append, append_assoc] using hover

theorem IterImpl.new_spec (h : v.Layered) (haccepts : ConcatIter.accepts v.l1) (snapshot : ℕ)
    (o : IterOptions) :
    ∃ s, IterImpl.new v snapshot o = some s ∧ s.Good ∧ s.v = v ∧ s.snapshot = snapshot ∧ s.o = o ∧
      s.valid = false := by
  obtain ⟨m, hbuild, hover⟩ := h.build_eq haccepts
  refine ⟨_, by rw [IterImpl.new, hbuild]; rfl, ⟨h, hover, by simp⟩, rfl, rfl, rfl, rfl⟩

end Rift.Engine
