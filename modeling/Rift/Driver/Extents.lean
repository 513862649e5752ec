import Mathlib.Order.WithBot
import Rift.Driver.Fleet

/-!
# The extents of the ranges

One range covers the keyspace, and splits cut it into more. A split names the extent it was computed
against, and is skipped where the range has moved past it. Leaders propose from the state they have
applied, which may be behind; two of them may propose from the same state, and a proposal may be
committed twice.

A range's end only ever moves down. So a split whose end is the range's was cut from the very
descriptor the range has, and no split is current twice.

## Main results

* `extents_tile` — the ranges tile the keys
-/

namespace Rift

open List

/-! ### Tilings -/

variable {ι α : Type*} {mem : ι → α → Prop} {l : List ι} {f : ι → ι}

/-- A list of sets in which each point is in exactly one. -/
structure Tiles (mem : ι → α → Prop) (l : List ι) : Prop where
  cover : ∀ a, ∃ i ∈ l, mem i a
  disjoint : l.Pairwise fun i j => ∀ a, mem i a → ¬ mem j a

theorem Tiles.eq_or_disjoint (h : Tiles mem l) {i j : ι} (hi : i ∈ l) (hj : j ∈ l) :
    i = j ∨ ∀ a, mem i a → ¬ mem j a := by
  rw [or_iff_not_imp_left]
  intro hne
  have hsymm : Std.Symm fun i j => ∀ a, mem i a → ¬ mem j a := ⟨fun _ _ h a hj hi => h a hi hj⟩
  exact h.disjoint.forall hi hj hne

theorem Tiles.cut (h : Tiles mem l) {i₀ j : ι} (hi₀ : i₀ ∈ l)
    (hshrink : ∀ i ∈ l, ∀ a, mem (f i) a → mem i a)
    (hcover : ∀ i ∈ l, ∀ a, mem i a → mem (f i) a ∨ mem j a)
    (hj : ∀ a, mem j a → mem i₀ a ∧ ¬ mem (f i₀) a) : Tiles mem (l.map f ++ [j]) where
  cover a := by
    obtain ⟨i, hi, ha⟩ := h.cover a
    rcases hcover i hi a ha with hf | hj
    · exact ⟨f i, by simp only [mem_append, mem_map]; exact .inl ⟨i, hi, rfl⟩, hf⟩
    · exact ⟨j, by simp, hj⟩
  disjoint := by
    rw [pairwise_append, pairwise_map]
    refine ⟨h.disjoint.imp_of_mem fun hi hi' hdis a ha ha' =>
      hdis a (hshrink _ hi a ha) (hshrink _ hi' a ha'), pairwise_singleton _ _, ?_⟩
    simp only [mem_map, mem_singleton]
    rintro _ ⟨i, hi, rfl⟩ _ rfl a hf ha
    obtain ⟨hin, hnot⟩ := hj a ha
    rcases h.eq_or_disjoint hi hi₀ with rfl | hdis
    · exact hnot hf
    · exact hdis a (hshrink i hi a hf) hin

theorem Tiles.map (h : Tiles mem l) (hf : ∀ i ∈ l, ∀ a, mem (f i) a ↔ mem i a) : Tiles mem (l.map f) where
  cover a := by
    obtain ⟨i, hi, ha⟩ := h.cover a
    exact ⟨f i, mem_map_of_mem hi, (hf i hi a).mpr ha⟩
  disjoint := by
    rw [pairwise_map]
    exact h.disjoint.imp_of_mem fun hi hi' hdis a ha ha' =>
      hdis a ((hf _ hi a).mp ha) ((hf _ hi' a).mp ha')

namespace Driver

open Kv Model

/-! ### Cuts of a descriptor -/

namespace RangeDescriptor

variable {d d' : RangeDescriptor} {key : Key}

/-- The end of an extent, in the order of the keys. -/
def upper (d : RangeDescriptor) : WithTop Bytes :=
  match d.fin with
  | none => ⊤
  | some e => (e.1 : WithTop Bytes)

theorem contains_iff_upper :
    d.contains key ↔ d.start.1 ≤ key.1 ∧ (key.1 : WithTop Bytes) < d.upper := by
  rw [contains_iff, upper]
  cases d.fin <;> simp

/-- A copy of a descriptor is itself: its end is not the empty string. -/
theorem ne_nil_of_clone (h : d.clone = d) {e : Str} (he : d.fin = some e) : e.1 ≠ [] := by
  intro hnil
  have hfin : d.clone.fin = d.fin := congrArg RangeDescriptor.fin h
  simp [clone, he, copyBound, hnil] at hfin

theorem fin_eq_of_endBytes (h : d.clone = d) (h' : d'.clone = d')
    (heq : d.endBytes = d'.endBytes) : d.fin = d'.fin := by
  cases hfin : d.fin with
  | none =>
    cases hfin' : d'.fin with
    | none => rfl
    | some e' => simp [endBytes, hfin, hfin', (ne_nil_of_clone h' hfin').symm] at heq
  | some e =>
    cases hfin' : d'.fin with
    | none => simp [endBytes, hfin, hfin', ne_nil_of_clone h hfin] at heq
    | some e' =>
      simp only [endBytes, hfin, hfin', Option.map_some, Option.getD_some] at heq
      rw [Subtype.ext heq]

end RangeDescriptor

section Cut

variable {d : RangeDescriptor} {cut key : Key} {rid : RangeID}

theorem upper_left_cut (hcut : cut.1 ≠ []) :
    (SplitSpec.cut d cut rid).left.upper = (cut.1 : WithTop Bytes) := by
  simp [RangeDescriptor.upper, SplitSpec.cut, copyBound_of_ne_nil hcut]

theorem fin_right_cut (hd : d.clone = d) : (SplitSpec.cut d cut rid).right.fin = d.fin := by
  have hfin : d.clone.fin = d.fin := congrArg RangeDescriptor.fin hd
  exact hfin

theorem upper_right_cut (hd : d.clone = d) : (SplitSpec.cut d cut rid).right.upper = d.upper := by
  rw [RangeDescriptor.upper, RangeDescriptor.upper, fin_right_cut hd]

theorem contains_left_cut (hcut : cut.1 ≠ []) :
    (SplitSpec.cut d cut rid).left.contains key ↔ d.start.1 ≤ key.1 ∧ key.1 < cut.1 := by
  rw [RangeDescriptor.contains_iff_upper, upper_left_cut hcut, WithTop.coe_lt_coe]
  rfl

theorem contains_right_cut (hd : d.clone = d) :
    (SplitSpec.cut d cut rid).right.contains key ↔
      cut.1 ≤ key.1 ∧ (key.1 : WithTop Bytes) < d.upper := by
  rw [RangeDescriptor.contains_iff_upper, upper_right_cut hd]
  rfl

theorem current_cut (hd : d.clone = d) : (SplitSpec.cut d cut rid).current d := by
  have hend : (SplitSpec.cut d cut rid).right.endBytes = d.endBytes := by
    rw [RangeDescriptor.endBytes, RangeDescriptor.endBytes, fin_right_cut hd]
  simp [SplitSpec.current, hend]
  exact ⟨rfl, rfl⟩

end Cut

theorem desc_apply_commandOf (r : Range) (data : Bytes) :
    (r.apply (commandOf data)).desc = match decodeSplitCommand data with
      | some spec => if spec.current r.desc then spec.left else r.desc
      | none => r.desc := by
  cases hdec : decodeSplitCommand data with
  | none =>
    refine desc_apply fun spec hspec => ?_
    rw [commandOf_eq_split.mp hspec] at hdec
    simp at hdec
  | some spec =>
    rw [commandOf_eq_split.mpr hdec, Range.apply]
    by_cases hcur : spec.current r.desc <;> simp [hcur]

/-! ### The machine that applies everything -/

/-- A machine that applies the logs of all ranges, the states each range has had so far, and the
splits in what has been applied. -/
structure Keyspace where
  node : Node
  past : RangeID → List Range
  splits : List (RangeID × SplitSpec) := []

namespace Keyspace

/-- The next entry of a range's log. -/
structure Event where
  id : RangeID
  conf : Configuration
  entry : Entry

/-- The states of the ranges, with the ones they have had. -/
def visited (n : Node) (past : RangeID → List Range) (id : RangeID) : List Range :=
  ((n.replicas.filter (·.desc.id = id)).map fun r => (n.machine r).range) ++ past id

def first : Node where
  nextRange := 0
  db := .empty
  replicas := [{ desc := firstRangeDescriptor, mark := {}, applied := 0 }]

/-- The single first range. -/
def start : Keyspace where
  node := first
  past := visited first fun _ => []

def step (w : Keyspace) (ev : Event) : Keyspace :=
  match w.node.replicaOf ev.id with
  | none => w
  | some r =>
    match w.node.apply ev.conf r ev.entry with
    | none => w
    | some n =>
      { node := n
        past := visited n w.past
        splits := (decodeSplitCommand ev.entry.data).toList.map (ev.id, ·) ++ w.splits }

/-- A split in a range's log was proposed by a leader from a state the range has had; different
proposals have different right identifiers, and none has the first range's. -/
def allows (w : Keyspace) (ev : Event) : Prop :=
  ∀ spec ∈ decodeSplitCommand ev.entry.data,
    (∃ st ∈ w.past ev.id,
      ({ desc := st.desc, store := st.store } : Machine).splitSpec spec.right.id = some spec) ∧
    spec.right.id ≠ firstRange ∧
    ∀ s ∈ w.splits, s.2.right.id = spec.right.id → s = (ev.id, spec)

instance (w : Keyspace) (ev : Event) : Decidable (w.allows ev) := by
  unfold allows
  infer_instance

/-! ### What holds along a run -/

/-- A state a range had before its descriptor was `d`. -/
structure Earlier (st : Range) (d : RangeDescriptor) : Prop where
  contained : st.Contained
  id : st.desc.id = d.id
  start : st.desc.start = d.start
  proper : st.desc.clone = st.desc
  /-- The end has only moved down, and while it stayed so did everything. -/
  upper : d.upper < st.desc.upper ∨ st.desc = d

/-- What applying the logs maintains. -/
structure Sound (w : Keyspace) : Prop where
  sane : w.node.Sane
  proper : ∀ r ∈ w.node.replicas, r.desc.clone = r.desc
  /-- A range is the first or was founded by a split. -/
  origin : ∀ id ∈ w.node.ids, id = firstRange ∨ ∃ s ∈ w.splits, s.2.right.id = id
  past : ∀ r ∈ w.node.replicas, ∀ st ∈ w.past r.desc.id, Earlier st r.desc
  unborn : ∀ id, id ∉ w.node.ids → w.past id = [] ∧ ∀ s ∈ w.splits, s.1 ≠ id
  /-- A split that has been applied or skipped is not current any more. -/
  spent : ∀ r ∈ w.node.replicas, ∀ spec, (r.desc.id, spec) ∈ w.splits →
    r.desc.upper < spec.right.upper
  tiles : Tiles (fun (r : Replica) key => r.desc.contains key) w.node.replicas

variable {w : Keyspace} {r : Replica} {d : RangeDescriptor} {spec : SplitSpec} {st : Range}
  {ev : Event}

theorem Earlier.eq_of_current (h : Earlier st d) (hd : d.clone = d) {key : Key} {rid : RangeID}
    (hcur : (SplitSpec.cut st.desc key rid).current d) : st.desc = d := by
  refine h.upper.resolve_left fun hlt => ?_
  simp only [SplitSpec.current, Bool.and_eq_true, decide_eq_true_eq] at hcur
  have hclone := SplitSpec.clone_right_cut st.desc key rid
  have hfin := RangeDescriptor.fin_eq_of_endBytes hclone hd hcur.2
  rw [fin_right_cut h.proper] at hfin
  simp only [RangeDescriptor.upper, hfin, lt_irrefl] at hlt

theorem upper_cut_lt {cut : Key} (hin : d.contains cut) (hcut : cut.1 ≠ []) (rid : RangeID) :
    (SplitSpec.cut d cut rid).left.upper < d.upper := by
  rw [upper_left_cut hcut]
  exact (RangeDescriptor.contains_iff_upper.mp hin).2

theorem Earlier.cut (h : Earlier st d) {cut : Key} (hin : d.contains cut) (hcut : cut.1 ≠ [])
    (rid : RangeID) : Earlier st (SplitSpec.cut d cut rid).left where
  contained := h.contained
  id := h.id
  start := h.start
  proper := h.proper
  upper := by
    have hlt := upper_cut_lt hin hcut rid
    rcases h.upper with hup | heq
    · exact .inl (hlt.trans hup)
    · exact .inl (heq ▸ hlt)

theorem Sound.proposed (h : w.Sound) (hr : r ∈ w.node.replicas) (hid : ev.id = r.desc.id)
    (hok : w.allows ev) (hdec : decodeSplitCommand ev.entry.data = some spec) :
    ∃ st cut, Earlier st r.desc ∧ st.desc.contains cut ∧ cut.1 ≠ [] ∧
      spec = SplitSpec.cut st.desc cut spec.right.id := by
  obtain ⟨⟨st, hst, hspec⟩, -, -⟩ := hok spec hdec
  have hearlier := h.past r hr st (hid ▸ hst)
  obtain ⟨cut, hin, hcut, heq⟩ := Machine.splitSpec_eq_some
    (m := { desc := st.desc, store := st.store }) hearlier.contained rfl hspec
  exact ⟨st, cut, hearlier, hin, hcut, heq⟩

/-- What an entry does to the extents of a machine: nothing, and then its split is behind the range;
or it cuts the range's extent and founds a range with what is cut off. -/
def Reshapes (w : Keyspace) (r : Replica) (ev : Event) (r' : Replica) (new : List Replica) : Prop :=
  (r'.desc = r.desc ∧ new = [] ∧ ∀ spec, decodeSplitCommand ev.entry.data = some spec →
    r.desc.upper < spec.right.upper) ∨
  ∃ cut rid, r.desc.contains cut ∧ cut.1 ≠ [] ∧ rid ∉ w.node.ids ∧
    decodeSplitCommand ev.entry.data = some (SplitSpec.cut r.desc cut rid) ∧
    r'.desc = (SplitSpec.cut r.desc cut rid).left ∧
    new = [⟨(SplitSpec.cut r.desc cut rid).right, r.mark, 0⟩]

section Advance

variable {ev : Event} {n' : Node} {r' : Replica} {new : List Replica} (h : w.Sound)
  (hr : r ∈ w.node.replicas) (hid : ev.id = r.desc.id) (hadv : w.node.Advances r ev.entry n' r' new)

include h hr hid hadv

theorem Sound.reshapes (hok : w.allows ev) : w.Reshapes r ev r' new := by
  have hdesc : r'.desc = _ := hadv.self.desc.trans (desc_apply_commandOf _ _)
  have hproper := h.proper r hr
  cases hdec : decodeSplitCommand ev.entry.data with
  | none =>
    rw [hdec] at hdesc
    rcases hadv.founds with ⟨hnew, -⟩ | ⟨spec, hsome, -⟩
    · exact .inl ⟨hdesc, hnew, fun spec hspec => by simp [hdec] at hspec⟩
    · rw [hdec] at hsome
      simp at hsome
  | some spec =>
    rw [hdec] at hdesc
    obtain ⟨st, cut, hearlier, hin, hcut, hspec⟩ := h.proposed hr hid hok hdec
    by_cases hcur : spec.current r.desc
    · have heq : st.desc = r.desc := hearlier.eq_of_current hproper (hspec ▸ hcur)
      rw [heq] at hin hspec
      -- The identifier is new: a split with it would be this one, which was not applied before.
      have hnew : spec.right.id ∉ w.node.ids := by
        intro hmem
        obtain ⟨-, hfirst, hdistinct⟩ := hok spec hdec
        obtain ⟨s, hs, hsid⟩ := (h.origin _ hmem).resolve_left hfirst
        have hsame := hdistinct s hs hsid
        have hlt := h.spent r hr spec (by rw [← hid, ← hsame]; exact hs)
        rw [hspec, upper_right_cut hproper] at hlt
        exact lt_irrefl _ hlt
      rcases hadv.founds with ⟨-, hold⟩ | ⟨spec', hdec', -, -, hfound, -⟩
      · exact absurd (hold spec hdec hcur) hnew
      · cases hdec.symm.trans hdec'
        refine .inr ⟨cut, spec.right.id, hin, hcut, hnew, hdec.trans (congrArg some hspec), ?_, ?_⟩
        · rw [hdesc, ← hspec]
          exact if_pos hcur
        · rw [hfound, ← hspec]
    · refine .inl ⟨hdesc.trans (if_neg hcur), ?_, fun spec' hspec' => ?_⟩
      · rcases hadv.founds with ⟨hnew, -⟩ | ⟨spec', hdec', hcur', -⟩
        · exact hnew
        · cases hdec.symm.trans hdec'
          exact absurd hcur' hcur
      · cases hdec.symm.trans hspec'
        rw [hspec, upper_right_cut hearlier.proper]
        refine hearlier.upper.resolve_right fun heq => hcur ?_
        rw [hspec, heq]
        exact current_cut hproper

variable (hext : w.Reshapes r ev r' new) {q : Replica}

include hext

omit hid in
theorem Sound.proper_advance (hq : q ∈ n'.replicas) : q.desc.clone = q.desc := by
  rcases hadv.cases hq with rfl | ⟨hmem, -⟩ | hmem
  · rcases hext with ⟨hdesc, -⟩ | ⟨cut, rid, -, -, -, -, hdesc, -⟩
    · exact hdesc ▸ h.proper r hr
    · exact hdesc ▸ SplitSpec.clone_left_cut r.desc cut rid
  · exact h.proper q hmem
  · rcases hext with ⟨-, rfl, -⟩ | ⟨cut, rid, -, -, -, -, -, rfl⟩
    · simp at hmem
    · obtain rfl := mem_singleton.mp hmem
      exact SplitSpec.clone_right_cut r.desc cut rid

omit h hid in
theorem older_advance (hq : q ∈ n'.replicas) :
    q.desc.id ∉ w.node.ids ∨
      ∃ p ∈ w.node.replicas, p.desc.id = q.desc.id ∧ q.desc.upper ≤ p.desc.upper ∧
        ∀ st, Earlier st p.desc → Earlier st q.desc := by
  rcases hadv.cases hq with rfl | ⟨hmem, -⟩ | hmem
  · refine .inr ⟨r, hr, hadv.id.symm, ?_⟩
    rcases hext with ⟨hdesc, -⟩ | ⟨cut, rid, hin, hcut, -, -, hdesc, -⟩
    · exact ⟨hdesc ▸ le_rfl, fun st hst => hdesc ▸ hst⟩
    · rw [hdesc]
      exact ⟨(upper_cut_lt hin hcut rid).le, fun st hst => hst.cut hin hcut rid⟩
  · exact .inr ⟨q, hmem, rfl, le_rfl, fun _ hst => hst⟩
  · rcases hext with ⟨-, rfl, -⟩ | ⟨cut, rid, -, -, hnew, -, -, rfl⟩
    · simp at hmem
    · obtain rfl := mem_singleton.mp hmem
      exact .inl hnew

omit hext in
theorem Sound.eq_self_advance (hq : q ∈ n'.replicas) (hqid : q.desc.id = ev.id) : q = r' := by
  have hr' : r' ∈ n'.replicas := by
    rw [hadv.replicas]
    exact mem_append_left _ (mem_map.mpr ⟨r, hr, if_pos rfl⟩)
  exact inj_on_of_nodup_map (hadv.sane h.sane hr).nodup hq hr'
    (hqid.trans (hid.trans hadv.id.symm))

omit hid hadv in
/-- The split of the entry is behind the range, whether it was skipped or applied just now. -/
theorem Sound.spent_advance (hdec : decodeSplitCommand ev.entry.data = some spec) :
    r'.desc.upper < spec.right.upper := by
  rcases hext with ⟨hdesc, -, hbehind⟩ | ⟨cut, rid, hin, hcut, -, hdec', hdesc, -⟩
  · exact hdesc ▸ hbehind spec hdec
  · cases hdec.symm.trans hdec'
    rw [hdesc, upper_right_cut (h.proper r hr)]
    exact upper_cut_lt hin hcut rid

omit hid in
theorem Sound.tiles_advance :
    Tiles (fun (r : Replica) key => r.desc.contains key) n'.replicas := by
  have hself : ∀ q ∈ w.node.replicas, q.desc.id = r.desc.id → q = r :=
    fun q hq => inj_on_of_nodup_map h.sane.nodup hq hr
  have hproper := h.proper r hr
  rw [hadv.replicas]
  rcases hext with ⟨hdesc, rfl, -⟩ | ⟨cut, rid, hin, hcut, -, -, hdesc, rfl⟩
  · rw [append_nil]
    refine h.tiles.map fun q hq key => ?_
    by_cases hqid : q.desc.id = r.desc.id
    · rw [if_pos hqid, hdesc, hself q hq hqid]
    · rw [if_neg hqid]
  · obtain ⟨hge, hlt⟩ := RangeDescriptor.contains_iff_upper.mp hin
    refine h.tiles.cut hr (fun q hq key => ?_) (fun q hq key => ?_) fun key => ?_
    · by_cases hqid : q.desc.id = r.desc.id
      · rw [if_pos hqid, hself q hq hqid, hdesc, contains_left_cut hcut,
          RangeDescriptor.contains_iff_upper]
        rintro ⟨hstart, hkey⟩
        exact ⟨hstart, (WithTop.coe_lt_coe.mpr hkey).trans hlt⟩
      · rw [if_neg hqid]
        exact fun hkey => hkey
    · by_cases hqid : q.desc.id = r.desc.id
      · rw [if_pos hqid, hself q hq hqid, hdesc, contains_left_cut hcut, contains_right_cut hproper,
          RangeDescriptor.contains_iff_upper]
        rintro ⟨hstart, hkey⟩
        exact (lt_or_ge key.1 cut.1).imp (fun hk => ⟨hstart, hk⟩) fun hk => ⟨hk, hkey⟩
      · rw [if_neg hqid]
        exact fun hkey => .inl hkey
    · rw [if_pos rfl, hdesc, contains_left_cut hcut, contains_right_cut hproper,
        RangeDescriptor.contains_iff_upper]
      rintro ⟨hkey, hup⟩
      exact ⟨⟨hge.trans hkey, hup⟩, fun hleft => hleft.2.not_ge hkey⟩

theorem Sound.advance : Sound
    { node := n'
      past := visited n' w.past
      splits := (decodeSplitCommand ev.entry.data).toList.map (ev.id, ·) ++ w.splits } where
  sane := hadv.sane h.sane hr
  proper q hq := h.proper_advance hr hadv hext hq
  origin id hmem := by
    rw [hadv.ids] at hmem
    rcases mem_append.mp hmem with hmem | hmem
    · refine (h.origin id hmem).imp_right ?_
      rintro ⟨s, hs, hsid⟩
      exact ⟨s, mem_append_right _ hs, hsid⟩
    · -- A new range was founded by the split of this entry.
      rcases hext with ⟨-, rfl, -⟩ | ⟨cut, rid, -, -, -, hdec, -, rfl⟩
      · simp at hmem
      · refine .inr ⟨(ev.id, SplitSpec.cut r.desc cut rid), by simp [hdec], ?_⟩
        exact (mem_singleton.mp hmem).symm
  past q hq st hst := by
    have hsane := hadv.sane h.sane hr
    rcases mem_append.mp hst with hst | hst
    · obtain ⟨p, hp, rfl⟩ := mem_map.mp hst
      obtain ⟨hmem, hpid⟩ := mem_filter.mp hp
      obtain rfl : p = q := inj_on_of_nodup_map hsane.nodup hmem hq (by simpa using hpid)
      exact ⟨hsane.contained p hmem, rfl, rfl, h.proper_advance hr hadv hext hmem, .inr rfl⟩
    · rcases older_advance hr hadv hext hq with hnew | ⟨p, hp, hpid, -, hearlier⟩
      · simp [(h.unborn _ hnew).1] at hst
      · exact hearlier st (h.past p hp st (hpid ▸ hst))
  unborn id hmem := by
    have hmem' : id ∉ w.node.ids := fun hin => hmem (hadv.ids ▸ mem_append_left _ hin)
    obtain ⟨hpast, hsplits⟩ := h.unborn id hmem'
    constructor
    · have hnone : n'.replicas.filter (·.desc.id = id) = [] := by
        refine filter_eq_nil_iff.mpr fun q hq => ?_
        simp only [decide_eq_true_eq]
        rintro rfl
        exact hmem (mem_map_of_mem hq)
      simp [visited, hnone, hpast]
    · intro s hs
      rcases mem_append.mp hs with hs | hs
      · obtain ⟨spec, -, rfl⟩ := mem_map.mp hs
        rintro rfl
        exact hmem' (hid ▸ mem_map_of_mem hr)
      · exact hsplits s hs
  spent q hq spec hspec := by
    rcases mem_append.mp hspec with hspec | hspec
    · obtain ⟨spec', hspec', heq⟩ := mem_map.mp hspec
      obtain ⟨hqid, rfl⟩ := Prod.mk.inj heq
      rw [h.eq_self_advance hr hid hadv hq hqid.symm]
      exact h.spent_advance hr hext (by simpa using hspec')
    · rcases older_advance hr hadv hext hq with hnew | ⟨p, hp, hpid, hle, -⟩
      · exact absurd rfl ((h.unborn _ hnew).2 _ hspec)
      · exact hle.trans_lt (h.spent p hp spec (hpid ▸ hspec))
  tiles := h.tiles_advance hr hadv hext

end Advance

/-- The machine never panics over a record that neither side of a split covers. -/
theorem Sound.apply (h : w.Sound) (hok : w.allows ev) (hr : r ∈ w.node.replicas)
    (hid : ev.id = r.desc.id) : ∃ n' r' new, w.node.apply ev.conf r ev.entry = some n' ∧
      w.node.Advances r ev.entry n' r' new := by
  refine h.sane.apply hr (fun spec hdec => ?_) ev.conf
  obtain ⟨st, cut, hearlier, hin, hcut, hspec⟩ := h.proposed hr hid hok hdec
  exact ⟨st.desc, cut, spec.right.id, hearlier.id, hin, hcut, hspec⟩

theorem Sound.step (h : w.Sound) (hok : w.allows ev) : (w.step ev).Sound := by
  unfold Keyspace.step
  split
  · exact h
  · next r hr =>
    obtain ⟨hmem, hid⟩ := Fleet.mem_of_replicaOf hr
    obtain ⟨n', r', new, hn', hadv⟩ := h.apply hok hmem hid.symm
    rw [hn']
    exact h.advance hmem hid.symm hadv (h.reshapes hmem hid.symm hadv hok)

theorem sane_first : first.Sane where
  nodup := by decide
  contained r hr := by
    obtain rfl := mem_singleton.mp hr
    exact Machine.contained_born _ {} {}

theorem sound_start : start.Sound where
  sane := sane_first
  proper := by simp [start, first, RangeDescriptor.clone, firstRangeDescriptor]
  origin := by simp [start, first, Node.ids, firstRangeDescriptor]
  past r hr st hst := by
    obtain rfl := mem_singleton.mp hr
    simp only [start, visited, append_nil] at hst
    obtain ⟨q, hq, rfl⟩ := mem_map.mp hst
    obtain rfl := mem_singleton.mp (mem_of_mem_filter hq)
    exact ⟨sane_first.contained _ (mem_singleton.mpr rfl), rfl, rfl, rfl, .inr rfl⟩
  unborn id hid := by
    have hne : firstRange ≠ id := fun heq => hid (heq ▸ mem_singleton.mpr rfl)
    simp [start, visited, first, firstRangeDescriptor, hne]
  spent := by simp [start]
  tiles :=
    { cover := fun key => ⟨_, mem_singleton.mpr rfl,
        RangeDescriptor.contains_iff.mpr ⟨not_lt.mp (not_lt_nil _), by simp [firstRangeDescriptor]⟩⟩
      disjoint := pairwise_singleton _ _ }

/-- **The extents of the ranges tile the keyspace.** Start from the first range and apply any entries of
the logs of the ranges, in any order between the ranges, where each split was proposed from a state
its range has had and different proposals have different right identifiers. No entry is refused, every
key is in the extent of a range, and no key is in the extents of two. -/
theorem extents_tile {evs : List Event} (h : Follows Keyspace.step allows start evs) :
    let w := evs.foldl Keyspace.step start
    (∀ key, ∃ r ∈ w.node.replicas, r.desc.contains key) ∧
    (w.node.replicas.Pairwise fun r q => ∀ key, r.desc.contains key → ¬ q.desc.contains key) ∧
    ∀ ev, w.allows ev → ∀ r, w.node.replicaOf ev.id = some r →
      (w.node.apply ev.conf r ev.entry).isSome := by
  have hsound : (evs.foldl Keyspace.step start).Sound :=
    h.invariant (fun _ _ hw hok => hw.step hok) sound_start
  refine ⟨hsound.tiles.cover, hsound.tiles.disjoint, fun ev hok r hr => ?_⟩
  obtain ⟨hmem, hid⟩ := Fleet.mem_of_replicaOf hr
  obtain ⟨n', -, -, hn', -⟩ := hsound.apply hok hmem hid.symm
  rw [hn']
  rfl

/-- The entry of a cut. -/
def cutEntry (desc : RangeDescriptor) (b : UInt8) (rid : RangeID) : Event where
  id := desc.id
  conf := {}
  entry := { term := 1, index := 5,
             data := encodeSplitCommand (SplitSpec.cut desc (Fleet.keyNamed b) rid) }

/-- Four keys are written; two leaders propose to split the range as it is now, and both proposals are
committed, the first of them twice. Then the left part is split. -/
def rivalCuts : List Event :=
  [⟨firstRange, {}, Fleet.putNamed 97⟩, ⟨firstRange, {}, Fleet.putNamed 98⟩,
    ⟨firstRange, {}, Fleet.putNamed 99⟩, ⟨firstRange, {}, Fleet.putNamed 100⟩,
    cutEntry firstRangeDescriptor 99 2, cutEntry firstRangeDescriptor 99 3,
    cutEntry firstRangeDescriptor 99 2,
    cutEntry (SplitSpec.cut firstRangeDescriptor (Fleet.keyNamed 99) 2).left 98 4]

/-- The hypothesis holds of a run with rival and repeated splits, which leaves three ranges. -/
theorem extents_tile_rivalCuts :
    (rivalCuts.foldl Keyspace.step start).node.ids = [firstRange, 2, 4] ∧
    ∀ key, ∃ r ∈ (rivalCuts.foldl Keyspace.step start).node.replicas, r.desc.contains key :=
  have h : Follows Keyspace.step allows start rivalCuts := by decide +kernel
  ⟨by decide +kernel, (extents_tile h).1⟩

end Keyspace

end Driver

end Rift
