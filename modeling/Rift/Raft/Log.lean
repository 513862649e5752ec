import Rift.Raft.Server

/-!
# The log of a node has no gaps

Every call keeps the entries after the snapshot at consecutive indices, so the last index, the
entry at an index and its term can be read off the position in the list. Nothing is assumed
about the messages a node receives: an entry that does not continue the log is refused by a
panic.
-/

namespace Rift

open List

/-- Entries at the indices right after `prev`. -/
def consecutive (prev : ℕ) : List Entry → Bool
  | [] => true
  | e :: es => e.index = prev + 1 && consecutive (prev + 1) es

variable {entries es : List Entry} {cfg : Config} {e : Entry} {c : Call} {r : Raft}

namespace Raft

variable {r r' : Raft} {c : Call} {i j : ℕ} {e e' : Entry}

/-- The entries follow the snapshot without a gap. -/
def Contiguous (r : Raft) : Prop := ∀ j e, r.log[j]? = some e → e.index = r.snapIndex + j + 1

theorem lastIndex_eq (h : r.Contiguous) : r.lastIndex = r.snapIndex + r.log.length := by
  unfold lastIndex
  rcases eq_nil_or_concat r.log with hnil | ⟨l, e, hl⟩
  · simp [hnil]
  · rw [concat_eq_append] at hl
    have he := h l.length e (by rw [hl]; simp)
    rw [hl, getLast?_concat, length_append]
    exact he

theorem entryAt_eq (h : r.Contiguous) (hi : r.snapIndex < i) :
    r.entryAt i = r.log[i - r.snapIndex - 1]? := by
  unfold entryAt
  split_ifs with hc
  · rw [lastIndex_eq h] at hc
    refine (getElem?_eq_none ?_).symm
    omega
  · rfl

theorem snapIndex_le_lastIndex (h : r.Contiguous) : r.snapIndex ≤ r.lastIndex := by
  rw [lastIndex_eq h]
  exact Nat.le_add_right _ _

theorem exists_entryAt (h : r.Contiguous) (hi : r.snapIndex < i) (hle : i ≤ r.lastIndex) :
    ∃ e, r.entryAt i = some e ∧ e ∈ r.log ∧ e.index = i := by
  rw [lastIndex_eq h] at hle
  have hlt : i - r.snapIndex - 1 < r.log.length := by omega
  have hget := getElem?_eq_getElem hlt
  refine ⟨r.log[i - r.snapIndex - 1], ?_, getElem_mem hlt, ?_⟩
  · rw [entryAt_eq h hi, hget]
  · rw [h _ _ hget]
    omega

/-! ### What the operations do to the log -/

theorem extend_log (r : Raft) (e : Entry) :
    (r.extend e).log = r.log ++ [e] ∧ (r.extend e).snapIndex = r.snapIndex := by
  obtain ⟨_, _, _, _, _, -, h⟩ := r.extend_eq e
  rw [h]
  exact ⟨rfl, rfl⟩

theorem log_broadcastAppend (hr : r.role = .leader) (h : r.broadcastAppend = .ok r') :
    r'.log = r.log := by
  have hkeep : r'.role = .leader ∧ r'.log = r.log := by
    refine foldlM_inv (P := fun r' => r'.role = .leader ∧ r'.log = r.log) ?_ ⟨hr, rfl⟩ h
    rintro r₁ p - r₂ ⟨hrole, hlog⟩ h
    split_ifs at h
    · exact pure_eq_ok.mp h ▸ ⟨hrole, hlog⟩
    · rcases sendAppend_cases (c := .tick) hrole h with hs | ⟨msg, -, rfl⟩
      · exact ⟨(hs.proj Raft.role fun _ => rfl).trans hrole,
          (hs.proj Raft.log fun _ => rfl).trans hlog⟩
      · exact ⟨(r₁.sendGated_proj msg Raft.role fun _ _ _ => rfl).trans hrole,
          (r₁.sendGated_proj msg Raft.log fun _ _ _ => rfl).trans hlog⟩
  exact hkeep.2

/-- A proposal that is accepted is appended as it was made. -/
theorem appendAndBroadcast_log {type : EntryType} {id : ProposalID} {data : Bytes}
    (hr : r.role = .leader) (h : r.appendAndBroadcast type id data = .ok r') :
    r'.log = r.log ++
      [{ type := type, term := r.term, index := r.lastIndex + 1, id := id, data := data }] := by
  obtain ⟨r₁, h₁, hbroad⟩ := bind_eq_ok.mp h
  rw [appendEntries_next (by rfl)] at h₁
  cases h₁
  rw [log_broadcastAppend ((extend_role r _).trans hr) hbroad, (extend_log r _).1]

section

variable (h : r.Contiguous)
include h

theorem Contiguous.of_log (hl : r'.log = r.log) (hs : r'.snapIndex = r.snapIndex) :
    r'.Contiguous := by
  unfold Contiguous
  rw [hl, hs]
  exact h

theorem Contiguous.extend (he : e.index = r.lastIndex + 1) : (r.extend e).Contiguous := by
  intro j e' hj
  rw [(r.extend_log e).1] at hj
  rw [(r.extend_log e).2]
  rcases Nat.lt_or_ge j r.log.length with hlt | hge
  · rw [getElem?_append_left hlt] at hj
    exact h j e' hj
  · rw [getElem?_append_right hge] at hj
    obtain ⟨hz, rfl⟩ : j - r.log.length = 0 ∧ e = e' := by
      rcases Nat.eq_zero_or_pos (j - r.log.length) with hz | hpos
      · rw [hz] at hj
        exact ⟨hz, by simpa using hj⟩
      · rw [getElem?_eq_none (show [e].length ≤ _ from hpos)] at hj
        cases hj
    rw [he, lastIndex_eq h]
    omega

theorem Contiguous.cutFrom (i : ℕ) : (r.cutFrom i).Contiguous := by
  intro j e hj
  have hj' : (r.log.take (i - r.snapIndex - 1))[j]? = some e := hj
  rw [getElem?_take] at hj'
  split_ifs at hj' with hlt
  exact h j e hj'

theorem cutFrom_lastIndex (hs : r.snapIndex < i) (hi : i ≤ r.lastIndex) :
    (r.cutFrom i).lastIndex + 1 = i := by
  rw [lastIndex_eq (h.cutFrom i)]
  rw [lastIndex_eq h] at hi
  show r.snapIndex + (r.log.take (i - r.snapIndex - 1)).length + 1 = i
  rw [length_take]
  omega

theorem Contiguous.dropThrough (hi : r.snapIndex < i) (t : ℕ) (conf : Configuration) :
    (r.dropThrough i t conf).Contiguous := by
  intro j e hj
  have hj' : (r.log.drop (i - r.snapIndex))[j]? = some e := hj
  rw [getElem?_drop] at hj'
  have := h _ e hj'
  show e.index = i + j + 1
  omega

theorem extend_lastIndex (he : e.index = r.lastIndex + 1) :
    (r.extend e).lastIndex = r.lastIndex + 1 := by
  rw [lastIndex_eq (h.extend he), lastIndex_eq h, (r.extend_log e).1, (r.extend_log e).2,
    length_append]
  rfl

theorem extend_entryAt (he : e.index = r.lastIndex + 1) (hi : i ≤ r.lastIndex) :
    (r.extend e).entryAt i = r.entryAt i := by
  rcases Nat.lt_or_ge r.snapIndex i with hs | hs
  · rw [entryAt_eq (h.extend he) ((r.extend_log e).2 ▸ hs), entryAt_eq h hs, (r.extend_log e).1,
      (r.extend_log e).2]
    rw [lastIndex_eq h] at hi
    exact getElem?_append_left (by omega)
  · unfold entryAt
    rw [if_pos (.inl ((r.extend_log e).2 ▸ hs)), if_pos (.inl hs)]

theorem cutFrom_entryAt (hi : i < j) : (r.cutFrom j).entryAt i = r.entryAt i := by
  rcases Nat.lt_or_ge r.snapIndex i with hs | hs
  · rw [entryAt_eq (h.cutFrom j) hs, entryAt_eq h hs]
    show (r.log.take (j - r.snapIndex - 1))[i - r.snapIndex - 1]? = _
    rw [getElem?_take, if_pos (by omega)]
  · unfold entryAt
    rw [if_pos (.inl hs), if_pos (.inl hs)]

theorem dropThrough_entryAt (hj : r.snapIndex < j) (t : ℕ) (conf : Configuration) (hi : j < i) :
    (r.dropThrough j t conf).entryAt i = r.entryAt i := by
  rw [entryAt_eq (h.dropThrough hj t conf) hi, entryAt_eq h (hj.trans hi)]
  show (r.log.drop (j - r.snapIndex))[i - j - 1]? = _
  rw [getElem?_drop]
  congr 1
  omega

theorem dropThrough_lastIndex (hi : r.snapIndex < i) (hle : i ≤ r.lastIndex) (t : ℕ)
    (conf : Configuration) : (r.dropThrough i t conf).lastIndex = r.lastIndex := by
  rw [lastIndex_eq (h.dropThrough hi t conf), lastIndex_eq h]
  rw [lastIndex_eq h] at hle
  show i + (r.log.drop (i - r.snapIndex)).length = _
  rw [length_drop]
  omega

end

theorem termAt_congr (hs : r'.snapIndex = r.snapIndex) (ht : r'.snapTerm = r.snapTerm)
    (he : r'.entryAt i = r.entryAt i) : r'.termAt i = r.termAt i := by
  unfold termAt
  rw [hs, ht, he]

theorem storeEntry_contiguous (h : r.Contiguous) (hs : r.storeEntry e = .ok r') :
    r'.Contiguous := by
  rcases storeEntry_cases hs with ⟨-, -, rfl⟩ | ⟨hle, -, -, hsnap, rfl⟩ | ⟨hi, rfl⟩
  · exact h
  · exact (h.cutFrom _).extend (cutFrom_lastIndex h hsnap hle).symm
  · exact h.extend hi

/-! ### What a drain hands over -/

theorem unhanded_eq_drop (h : r.Contiguous) (hs : r.snapIndex ≤ r.tail.handed)
    (hu : r.unhanded = .ok entries) : entries = r.log.drop (r.tail.handed - r.snapIndex) := by
  unfold unhanded at hu
  split_ifs at hu with hlt
  · unfold suffixFrom at hu
    rw [if_neg (by omega), if_neg (by omega)] at hu
    rw [← pure_eq_ok.mp hu]
    congr 1
    omega
  · rw [← pure_eq_ok.mp hu]
    refine (drop_eq_nil_of_le ?_).symm
    rw [lastIndex_eq h] at hlt
    omega

theorem unhanded_getD (h : r.Contiguous) (hs : r.snapIndex ≤ r.tail.handed)
    (hle : r.tail.handed ≤ r.lastIndex) (hu : r.unhanded = .ok entries) :
    (entries.getLast?.map (·.index)).getD r.tail.handed = r.lastIndex := by
  have heq := unhanded_eq_drop h hs hu
  cases hl : entries.getLast? with
  | none =>
    have hlast := lastIndex_eq h
    rw [getLast?_eq_none_iff.mp hl] at heq
    have := drop_eq_nil_iff.mp heq.symm
    show r.tail.handed = r.lastIndex
    omega
  | some e =>
    rw [heq, getLast?_drop] at hl
    split_ifs at hl
    show e.index = r.lastIndex
    unfold lastIndex
    rw [hl]

theorem unhanded_subset (h : r.unhanded = .ok entries) : entries ⊆ r.log := by
  unfold unhanded suffixFrom at h
  split_ifs at h
  · cases h
    exact nil_subset _
  · cases h
    exact drop_subset _ _
  · cases h
    exact nil_subset _

theorem suffix_subset (next : ℕ) : r.suffix next ⊆ r.log := by
  unfold suffix
  split_ifs
  · exact drop_subset _ _
  · exact nil_subset _

/-! ### Storing entries -/

/-- A stored entry changes no term below it, and none at all where it agrees with the log. -/
theorem storeEntry_termAt (hc : r.Contiguous) (h : r.storeEntry e = .ok r')
    (hfree : i < e.index ∨ r.termAt e.index = e.term) (hle : i ≤ r.lastIndex) :
    r'.termAt i = r.termAt i := by
  have hs : r'.snapIndex = r.snapIndex := storeEntry_proj _ h (by intros; rfl)
  have ht : r'.snapTerm = r.snapTerm := storeEntry_proj _ h (by intros; rfl)
  refine termAt_congr hs ht ?_
  rcases storeEntry_cases h with ⟨-, -, rfl⟩ | ⟨hle', hne, -, hs', rfl⟩ | ⟨he, rfl⟩
  · rfl
  · have hlt := hfree.resolve_right hne
    have hlast := cutFrom_lastIndex hc hs' hle'
    rw [extend_entryAt (hc.cutFrom _) hlast.symm (by omega), cutFrom_entryAt hc hlt]
  · exact extend_entryAt hc he hle

theorem storeEntry_lastIndex (hc : r.Contiguous) (h : r.storeEntry e = .ok r') :
    e.index ≤ r'.lastIndex := by
  rcases storeEntry_cases h with ⟨hle, -, rfl⟩ | ⟨hle, -, -, hs, rfl⟩ | ⟨he, rfl⟩
  · exact hle
  · have hlast := cutFrom_lastIndex hc hs hle
    rw [extend_lastIndex (hc.cutFrom _) hlast.symm]
    exact hlast.ge
  · rw [extend_lastIndex hc he]
    exact he.le

theorem storeEntries_lastIndex {p : ℕ} (hc : r.Contiguous) (hes : consecutive p es)
    (hp : p ≤ r.lastIndex) (h : es.foldlM storeEntry r = .ok r') :
    p + es.length ≤ r'.lastIndex := by
  induction es generalizing r p with
  | nil =>
    cases h
    exact hp
  | cons e es ih =>
    obtain ⟨r₁, h₁, h⟩ := bind_eq_ok.mp h
    simp only [consecutive, Bool.and_eq_true, decide_eq_true_eq] at hes
    have := ih (storeEntry_contiguous hc h₁) hes.2 (hes.1 ▸ storeEntry_lastIndex hc h₁) h
    rw [length_cons]
    omega

theorem le_lastIndex_of_matchesLog {i t : ℕ} (h : r.matchesLog i t) : i ≤ r.lastIndex := by
  unfold matchesLog at h
  split_ifs at h <;> omega

theorem extend_mem_log (h : e' ∈ (r.extend e).log) : e' ∈ r.log ∨ e' = e := by
  rw [(extend_log r e).1] at h
  simpa using h

theorem mem_log_storeEntry (hs : r.storeEntry e = .ok r') (h : e' ∈ r'.log) :
    e' ∈ r.log ∨ e' = e := by
  rcases storeEntry_cases hs with ⟨-, -, rfl⟩ | ⟨-, -, -, -, rfl⟩ | ⟨-, rfl⟩
  · exact .inl h
  · refine (extend_mem_log h).imp_left fun h => ?_
    obtain ⟨_, _, _, heq⟩ := r.cutFrom_eq e.index
    rw [heq] at h
    exact mem_of_mem_take h
  · exact extend_mem_log h

theorem mem_log_storeEntries (hs : es.foldlM storeEntry r = .ok r') (h : e ∈ r'.log) :
    e ∈ r.log ∨ e ∈ es := by
  have hstore : ∀ e ∈ r'.log, e ∈ r.log ∨ e ∈ es :=
    foldlM_inv (P := fun r₁ => ∀ e ∈ r₁.log, e ∈ r.log ∨ e ∈ es)
      (fun r₁ e' he' r₂ h₁ h₂ e he => (mem_log_storeEntry h₂ he).elim (h₁ e) fun h => .inr (h ▸ he'))
      (fun _ => .inl) hs
  exact hstore e h

end Raft

open Raft

/-- An effect takes entries from the log, from a message or from a proposal, or appends a leader's
no-op. -/
theorem Micro.mem_log {o r' : Raft} (h : Micro c o r r') (he : e ∈ r'.log) :
    e ∈ r.log ∨ (e.type = .confChange → ∃ id cc, c = .proposeConfChange id cc) ∧
      (e = r.noop ∨ c.proposes) ∨ ∃ m, c = .step m ∧ e ∈ m.entries := by
  cases h.entered with
  | same heq => exact .inl (ledger_proj heq Raft.log (fun _ => rfl) ▸ he)
  | turn _ heq _ => exact .inl (ledger_proj heq Raft.log (fun _ => rfl) ▸ he)
  | append e' _ _ hc hid =>
    rcases extend_mem_log he with he | rfl
    · exact .inl he
    · exact .inr (.inl ⟨hc, hid⟩)
  | accept hc _ _ _ hs heq =>
    rw [ledger_proj heq Raft.log fun _ => rfl, commitUpTo_proj _ _ _ Raft.log fun _ _ => rfl] at he
    exact (mem_log_storeEntries hs he).imp_right fun he => .inr ⟨_, hc, he⟩
  | @install m conf _ _ _ _ _ _ heq =>
    obtain ⟨_, _, _, _, -, hinstall⟩ := r.installSnapshot_eq m conf
    rw [ledger_proj heq Raft.log fun _ => rfl, hinstall] at he
    exact absurd he not_mem_nil
  | _ => exact .inl he

theorem Micro.contiguous {o r' : Raft} (hm : Micro c o r r') (h : r.Contiguous) :
    r'.Contiguous := by
  cases hm.entered with
  | same heq => exact (ledger_proj heq Contiguous fun _ => rfl).mpr h
  | turn _ heq _ => exact (ledger_proj heq Contiguous fun _ => rfl).mpr h
  | append e _ hi _ _ => exact h.extend hi
  | @accept m r₁ _ _ _ _ _ hs heq =>
    have h₁ : r₁.Contiguous := foldlM_inv (P := Raft.Contiguous)
      (fun _ _ _ _ h₁ h₂ => storeEntry_contiguous h₁ h₂) h hs
    rw [ledger_proj heq Contiguous fun _ => rfl, commitUpTo_proj _ _ _ Contiguous fun _ _ => rfl]
    exact h₁
  | commit _ _ => exact h.of_log rfl rfl
  | @install m conf _ _ _ _ _ _ heq =>
    obtain ⟨_, _, _, _, -, hinstall⟩ := r.installSnapshot_eq m conf
    rw [ledger_proj heq Contiguous fun _ => rfl, hinstall]
    exact fun j e hj => absurd hj (by simp)
  | applied _ => exact h.of_log rfl rfl

theorem Server.mem_log_record {s : Server} {rep : Reply} (hx : s.raft.exec c = .ok (r, rep))
    {d : Disk} (hd : d ∈ (s.record c r rep).disk.versions) (he : e ∈ d.log) :
    e ∈ s.raft.log ∨ ∃ v ∈ s.disk.versions, e ∈ v.log := by
  cases exec_executed hx with
  | plain hp _ =>
    rw [record_plain s hp] at hd
    exact .inr ⟨d, hd, he⟩
  | @handOver entries _ hu _ _ =>
    change d ∈ (if s.raft.dirtyMark = 0 then s.disk else _ : Journal Disk).versions at hd
    split_ifs at hd
    · exact .inr ⟨d, hd, he⟩
    · rcases Journal.mem_versions_push.mp hd with hd | rfl
      · exact .inr ⟨d, hd, he⟩
      · rcases mem_overwrite he with he | he
        · exact .inr ⟨_, s.disk.newest_mem_versions, he⟩
        · exact .inl (unhanded_subset hu he)
  | staleAck hm =>
    rw [record_staleAck s hm] at hd
    exact .inr ⟨d, hd, he⟩
  | ack hm _ =>
    rw [record_ack s hm] at hd
    exact .inr ⟨d, Journal.mem_versions_land hd, he⟩
  | _ => exact .inr ⟨d, hd, he⟩

/-! ### Whole runs -/

theorem firstGap_contiguous {last i : ℕ} (h : firstGap last i es = none) (j : ℕ) (e : Entry)
    (hj : es[j]? = some e) : e.index = last + (i + j) + 1 := by
  induction es generalizing i j with
  | nil => cases hj
  | cons e' es ih =>
    unfold firstGap at h
    split_ifs at h with hi
    cases j with
    | zero =>
      obtain rfl : e' = e := by simpa using hj
      simpa using hi
    | succ j =>
      have := ih h j (by simpa using hj)
      omega

theorem new_eq (h : Raft.new cfg = .ok r) : r = fresh cfg := by
  unfold Raft.new at h
  split at h
  · cases h
  · injection h with h
    exact h.symm

theorem restore_eq {hs : HardState} {snap : SnapshotMeta}
    (h : Raft.restore cfg hs snap entries = .ok r) :
    r = recovered cfg hs snap entries ∧ Raft.new cfg = .ok (fresh cfg) ∧
      firstGap snap.index 0 entries = none := by
  unfold Raft.restore at h
  cases hn : Raft.new cfg with
  | error e => rw [hn] at h; cases h
  | ok r₀ =>
    rw [hn] at h
    have hr₀ := new_eq hn
    dsimp only [bind, Except.bind] at h
    split at h
    · cases h
    · rename_i hg
      injection h with h
      exact ⟨h.symm, by rw [hr₀], hg⟩

namespace Server

variable {s s' : Server} {c : Call} {rep : Reply}

theorem Starts.contiguous (h : Starts s) : s.raft.Contiguous := by
  cases h with
  | new h =>
    obtain rfl := new_eq h
    exact fun j e hj => absurd hj (by simp [fresh])
  | restore h =>
    obtain ⟨rfl, -, hg⟩ := restore_eq h
    intro j e hj
    have := firstGap_contiguous hg j e hj
    rw [Nat.zero_add] at this
    exact this

theorem contiguous_exec (h : s.raft.Contiguous) (hx : s.exec c = .ok (s', rep)) :
    s'.raft.Contiguous := by
  obtain ⟨r, hr, rfl⟩ := exec_raft hx
  rw [record_raft]
  exact (exec_executed hr).keeps (fun hd => (hd.proj Contiguous fun _ => rfl).mpr h)
    Micro.contiguous (fun hi _ _ => h.dropThrough hi _ _) h

end Server

end Rift
