import Rift.Lib.Majority
import Rift.Raft.Log

/-!
# Membership

The active configuration of a node is a function of its base configuration and its log, and one
configuration entry moves at most one server in or out of the voters. A quorum the node counts over
its peers is a majority of the voters, because every member is tracked once.
-/

namespace Rift

open List

/-! ### Configurations -/

theorem insertSorted_perm (x : NodeID) (ys : List NodeID) : (insertSorted x ys).Perm (x :: ys) := by
  induction ys with
  | nil => exact .refl _
  | cons y ys ih =>
    unfold insertSorted
    split_ifs
    · exact .refl _
    · exact (ih.cons y).trans (.swap x y ys)

theorem foldl_insertSorted_perm (xs acc : List NodeID) :
    (xs.foldl (fun acc x => insertSorted x acc) acc).Perm (xs ++ acc) := by
  induction xs generalizing acc with
  | nil => exact .refl _
  | cons x xs ih =>
    exact (ih _).trans (((insertSorted_perm x acc).append_left xs).trans perm_middle)

theorem sortIDs_perm (xs : List NodeID) : (sortIDs xs).Perm xs := by
  unfold sortIDs
  simpa only [append_nil] using foldl_insertSorted_perm xs []

variable {xs : List NodeID} {P : Configuration → Prop} {conf : Configuration} {f : Peer → Bool}
  {n : NodeID} {rep : Reply} {r r' : Raft} {c : Call}

theorem insertID_perm (h : n ∉ xs) : (insertID xs n).Perm (n :: xs) := by
  unfold insertID
  rw [if_neg h]
  exact (sortIDs_perm _).trans (perm_append_singleton n xs)

theorem mem_insertID {m : NodeID} : m ∈ insertID xs n ↔ m = n ∨ m ∈ xs := by
  by_cases h : n ∈ xs
  · simp only [insertID, if_pos h]
    constructor
    · exact .inr
    · rintro (rfl | hm)
      · exact h
      · exact hm
  · rw [(insertID_perm h).mem_iff, mem_cons]

theorem nodup_insertID (n : NodeID) (h : xs.Nodup) : (insertID xs n).Nodup := by
  by_cases hn : n ∈ xs
  · simpa only [insertID, if_pos hn] using h
  · exact (insertID_perm hn).nodup_iff.mpr (nodup_cons.mpr ⟨hn, h⟩)

theorem insertSorted_of_lt {acc : List NodeID} {x : NodeID} (h : ∀ y ∈ acc, y < x) :
    insertSorted x acc = acc ++ [x] := by
  induction acc with
  | nil => rfl
  | cons y acc ih =>
    have hy : ¬ x < y := UInt64.lt_asymm (h y mem_cons_self)
    simp [insertSorted, hy, ih fun z hz => h z (mem_cons_of_mem _ hz)]

theorem sortIDs_of_pairwise (h : xs.Pairwise (· < ·)) : sortIDs xs = xs := by
  have hfold : ∀ (xs acc : List NodeID), (acc ++ xs).Pairwise (· < ·) →
      xs.foldl (fun acc x => insertSorted x acc) acc = acc ++ xs := by
    intro xs
    induction xs with
    | nil => simp
    | cons x xs ih =>
      intro acc hp
      rw [foldl_cons, insertSorted_of_lt, ih, append_assoc]
      · rfl
      · rwa [append_assoc]
      · exact fun y hy => (pairwise_append.mp hp).2.2 y hy x mem_cons_self
  exact hfold xs [] h

/-- Without learners, the peers of a configuration in order are its voters. -/
theorem conf_of_sorted {cfg : Config} (hl : cfg.learners = []) (h : cfg.peers.Pairwise (· < ·)) :
    cfg.conf = { voters := cfg.peers } := by
  have hfold : ∀ (ps vs : List NodeID), (vs ++ ps).Pairwise (· < ·) →
      ps.foldl (fun (c : Configuration) p =>
        if ([] : List NodeID).contains p then { c with learners := insertID c.learners p }
        else { c with voters := insertID c.voters p }) { voters := vs } = { voters := vs ++ ps } := by
    intro ps
    induction ps with
    | nil => simp
    | cons p ps ih =>
      intro vs hp
      have hlt := (pairwise_append.mp hp).2.2
      have hnot : p ∉ vs := fun hmem => UInt64.lt_irrefl p (hlt p hmem p mem_cons_self)
      rw [append_cons] at hp
      have hsort : sortIDs (vs ++ [p]) = vs ++ [p] :=
        sortIDs_of_pairwise (pairwise_append.mp hp).1
      rw [foldl_cons, if_neg (by simp), insertID, if_neg hnot, hsort, ih _ hp,
        append_assoc]
      rfl
  unfold Config.conf
  rw [hl]
  exact hfold cfg.peers [] h

namespace Configuration

variable {c c' : Configuration} {ch : ConfChangeSingle}

/-- Every server is listed once. -/
structure WF (c : Configuration) : Prop where
  voters : c.voters.Nodup
  learners : c.learners.Nodup
  disjoint : c.voters.Disjoint c.learners

/-- The voters as a set. -/
def voterSet (c : Configuration) : Finset NodeID := c.voters.toFinset

@[simp] theorem mem_voterSet : n ∈ c.voterSet ↔ c.isVoter n := by
  simp [voterSet, isVoter]

theorem WF.card_voterSet (h : c.WF) : c.voterSet.card = c.voters.length :=
  toFinset_card_of_nodup h.voters

theorem WF.nodup_members (h : c.WF) : c.members.Nodup :=
  (sortIDs_perm _).nodup_iff.mpr (h.voters.append h.learners h.disjoint)

theorem apply_cases (h : c.apply ch = .ok c') : c'.voters ≠ [] ∧
    ((c'.voters = insertID c.voters ch.node ∧ c'.learners = removeID c.learners ch.node) ∨
      (¬ c.isVoter ch.node ∧ c'.voters = c.voters ∧ c'.learners = insertID c.learners ch.node) ∨
      (c'.voters = removeID c.voters ch.node ∧ c'.learners = removeID c.learners ch.node) ∨
      c' = c) := by
  have hout : ∀ {out : Configuration}, (if out.voters.isEmpty then throw (ConfError.noVoters ch.type)
      else pure out) = (.ok c' : Except ConfError Configuration) → out = c' ∧ c'.voters ≠ [] := by
    intro out h
    split_ifs at h with he
    injection h with h
    exact ⟨h, h ▸ by simpa using he⟩
  unfold apply at h
  cases ht : ch.type with
  | addVoter =>
    rw [ht] at h hout
    obtain ⟨rfl, hne⟩ := hout h
    exact ⟨hne, .inl ⟨rfl, rfl⟩⟩
  | addLearner =>
    rw [ht] at h hout
    dsimp only at h
    split_ifs at h with hv
    · cases h
    · obtain ⟨rfl, hne⟩ := hout h
      exact ⟨hne, .inr (.inl ⟨hv, rfl, rfl⟩)⟩
  | removeNode =>
    rw [ht] at h hout
    obtain ⟨rfl, hne⟩ := hout h
    exact ⟨hne, .inr (.inr (.inl ⟨rfl, rfl⟩))⟩
  | numConfChangeTypes =>
    rw [ht] at h
    cases h
  | unknown b =>
    rw [ht] at h hout
    obtain ⟨rfl, hne⟩ := hout h
    exact ⟨hne, .inr (.inr (.inr rfl))⟩

theorem WF.apply (hw : c.WF) (h : c.apply ch = .ok c') : c'.WF := by
  rcases (apply_cases h).2 with ⟨hv, hl⟩ | ⟨hn, hv, hl⟩ | ⟨hv, hl⟩ | rfl
  · refine ⟨hv ▸ nodup_insertID _ hw.voters, hl ▸ hw.learners.filter _, ?_⟩
    rw [hv, hl]
    intro n h₁ h₂
    have h₂ := mem_filter.mp h₂
    rcases mem_insertID.mp h₁ with rfl | h₁
    · exact absurd h₂.2 (by simp)
    · exact hw.disjoint h₁ h₂.1
  · refine ⟨hv ▸ hw.voters, hl ▸ nodup_insertID _ hw.learners, ?_⟩
    rw [hv, hl]
    intro n h₁ h₂
    rcases mem_insertID.mp h₂ with rfl | h₂
    · exact hn (by simpa [isVoter] using h₁)
    · exact hw.disjoint h₁ h₂
  · refine ⟨hv ▸ hw.voters.filter _, hl ▸ hw.learners.filter _, ?_⟩
    rw [hv, hl]
    intro n h₁ h₂
    exact hw.disjoint (mem_filter.mp h₁).1 (mem_filter.mp h₂).1
  · exact hw

end Configuration

theorem applyConfEntry_apply {c c' : Configuration} {data : Bytes}
    (h : applyConfEntry c data = .ok c') : ∃ ch, c.apply ch = .ok c' := by
  unfold applyConfEntry at h
  split at h
  · cases h
  · split_ifs at h
    split at h
    · exact ⟨_, h⟩
    · cases h

namespace Raft

variable {r r' o : Raft} {c : Call} {e : Entry} {base : Configuration} {log : List Entry} {i : ℕ}

/-! ### The configuration of a log -/

/-- The configuration a log leads to: every entry that applies, in order. -/
def confOf (base : Configuration) (log : List Entry) : Configuration :=
  (log.foldl confStep (base, none)).1

theorem confStep_fst (s : Configuration × Option (ℕ × ConfError)) (e : Entry) :
    (confStep s e).1 = confOf s.1 [e] := by
  unfold confOf confStep
  simp only [foldl_cons, foldl_nil]
  split_ifs
  · rfl
  · cases applyConfEntry s.1 e.data <;> rfl

theorem foldl_confStep_fst (log : List Entry) (s : Configuration × Option (ℕ × ConfError)) :
    (log.foldl confStep s).1 = confOf s.1 log := by
  induction log generalizing s with
  | nil => rfl
  | cons e log ih =>
    have hcons : confOf s.1 (e :: log) = confOf (confStep (s.1, none) e).1 log := ih _
    rw [foldl_cons, ih, hcons, confStep_fst, confStep_fst]

theorem confOf_append (base : Configuration) (l₁ l₂ : List Entry) :
    confOf base (l₁ ++ l₂) = confOf (confOf base l₁) l₂ := by
  unfold confOf
  rw [foldl_append, foldl_confStep_fst]
  rfl

theorem confOf_singleton (base : Configuration) (e : Entry) :
    confOf base [e] = base ∨ (e.type = .confChange ∧
      ∃ ch, base.apply ch = .ok (confOf base [e])) := by
  unfold confOf confStep
  simp only [foldl_cons, foldl_nil]
  split_ifs with h
  · exact .inl rfl
  · cases ha : applyConfEntry base e.data with
    | error _ => exact .inl rfl
    | ok c => exact .inr ⟨not_not.mp h, applyConfEntry_apply ha⟩

theorem confOf_normal (base : Configuration) (he : e.type = .normal) : confOf base [e] = base := by
  rcases confOf_singleton base e with h | ⟨h, -⟩
  · exact h
  · exact absurd (he.symm.trans h) (by simp)

theorem confOf_of_normal (h : ∀ e ∈ log, e.type = .normal) : confOf base log = base := by
  induction log with
  | nil => rfl
  | cons e log ih =>
    rw [← singleton_append, confOf_append, confOf_normal base (h e (by simp))]
    exact ih fun e' he' => h e' (by simp [he'])

theorem confOf_induct (hP : ∀ {c ch c'}, P c → Configuration.apply c ch = .ok c' → P c')
    (h : P base) (log : List Entry) : P (confOf base log) := by
  induction log generalizing base with
  | nil => exact h
  | cons e log ih =>
    rw [← singleton_append, confOf_append]
    refine ih ?_
    rcases confOf_singleton base e with heq | ⟨-, ch, hch⟩
    · rwa [heq]
    · exact hP h hch

/-- One entry of a log: a configuration entry that is refused, and every other entry, is skipped. -/
def applyLogged (conf : Configuration) (e : Entry) : Configuration :=
  if e.type ≠ .confChange then conf
  else match applyConfEntry conf e.data with
    | .ok next => next
    | .error _ => conf

theorem foldl_applyLogged (base : Configuration) (log : List Entry) :
    log.foldl applyLogged base = confOf base log := by
  induction log generalizing base with
  | nil => rfl
  | cons e log ih =>
    have hstep : applyLogged base e = confOf base [e] := by
      simp only [applyLogged, confOf, confStep, foldl_cons, foldl_nil]
      split_ifs
      · rfl
      · cases applyConfEntry base e.data <;> rfl
    rw [foldl_cons, ih, hstep, ← confOf_append, singleton_append]

theorem recomputeConf_conf (r : Raft) : r.recomputeConf.conf = confOf r.baseConf r.log :=
  foldl_confStep_fst r.log _

end Raft

/-! ### The peers -/

open Raft

/-- The configuration follows the log, and the peers follow the configuration. -/
structure Tracks (r : Raft) : Prop where
  conf : r.conf = confOf r.baseConf r.log
  peers : r.peers.map (·.id) = r.conf.members

namespace Raft

/-- The voters among the peers that satisfy `f`. -/
def votersWith (r : Raft) (f : Peer → Bool) : Finset NodeID :=
  ((r.peers.filter fun p => f p && r.conf.isVoter p.id).map (·.id)).toFinset

theorem mem_votersWith {r : Raft} {v : NodeID} :
    v ∈ r.votersWith f ↔ ∃ p ∈ r.peers, f p ∧ r.conf.isVoter v ∧ p.id = v := by
  simp only [votersWith, mem_toFinset, mem_map, mem_filter, Bool.and_eq_true]
  constructor
  · rintro ⟨p, ⟨hp, hf, hv⟩, rfl⟩
    exact ⟨p, hp, hf, hv, rfl⟩
  · rintro ⟨p, hp, hf, hv, rfl⟩
    exact ⟨p, ⟨hp, hf, hv⟩, rfl⟩

end Raft

theorem Tracks.majority (h : Tracks r) (hw : r.conf.WF) (hq : r.quorum ≤ r.countVoters f) :
    IsMajority r.conf.voterSet (r.votersWith f) := by
  refine ⟨fun v hv => ?_, ?_⟩
  · obtain ⟨p, -, -, hv, -⟩ := mem_votersWith.mp hv
    exact Configuration.mem_voterSet.mpr hv
  · have hcard : (r.votersWith f).card = r.countVoters f := by
      unfold votersWith countVoters
      rw [toFinset_card_of_nodup, length_map, countP_eq_length_filter]
      exact (h.peers ▸ hw.nodup_members).sublist (filter_sublist.map _)
    rw [hw.card_voterSet, hcard]
    unfold quorum at hq
    omega

/-! ### Effects -/

theorem setConf_ids (r : Raft) (conf : Configuration) :
    (r.setConf conf).peers.map (·.id) = conf.members := by
  unfold setConf
  rw [map_map]
  refine (map_congr_left fun p _ => ?_).trans (map_id _)
  show ((r.peers.find? fun q => decide (q.id = p)).getD { id := p }).id = p
  cases h : r.peers.find? fun q => decide (q.id = p) with
  | none => rfl
  | some q => simpa using find?_some h

/-- A new configuration keeps the progress of every member it had, and knows nothing of the rest. -/
theorem setConf_peer {p : Peer} (hp : p ∈ (r.setConf conf).peers) :
    (∃ q ∈ r.peers, q.hard = p.hard) ∨ p.hard = { id := p.id } := by
  obtain ⟨n, -, rfl⟩ := mem_map.mp hp
  cases h : r.peers.find? fun q => decide (q.id = n) with
  | none => exact .inr rfl
  | some q => exact .inl ⟨q, mem_of_find?_eq_some h, rfl⟩

namespace Tracks

variable {r r' o : Raft} {c : Call} {e : Entry}

theorem of_eq (h : Tracks r) (hb : r'.baseConf = r.baseConf) (hl : r'.log = r.log)
    (hc : r'.conf = r.conf) (hp : r'.peers.map (·.id) = r.peers.map (·.id)) : Tracks r' :=
  ⟨by rw [hc, hb, hl, h.conf], by rw [hp, hc, h.peers]⟩

/-- Recomputing the configuration restores the invariant whatever the log is. -/
theorem recompute (r : Raft) : Tracks r.recomputeConf :=
  ⟨r.recomputeConf_conf, setConf_ids _ _⟩

theorem dirty (h : Tracks r) : Tracks r.dirty := by
  obtain ⟨_, _, -, heq⟩ := r.dirty_eq
  rw [heq]
  exact h.of_eq rfl rfl rfl rfl

theorem extend (h : Tracks r) (e : Entry) : Tracks (r.extend e) := by
  unfold Raft.extend
  split_ifs with he
  · exact (recompute (r.pushEntry e)).dirty
  · have hn : e.type = .normal := by cases ht : e.type <;> simp_all
    refine dirty ⟨?_, h.peers⟩
    show r.conf = confOf r.baseConf (r.log ++ [e])
    rw [confOf_append, confOf_normal _ hn]
    exact h.conf

theorem storeEntry (h : Tracks r) (hs : r.storeEntry e = .ok r') : Tracks r' := by
  rcases storeEntry_cases hs with ⟨-, -, rfl⟩ | ⟨-, -, -, -, rfl⟩ | ⟨-, rfl⟩
  · exact h
  · exact (recompute _).extend e
  · exact h.extend e

theorem installSnapshot (r : Raft) (m : Message) (conf : Configuration) :
    Tracks (r.installSnapshot m conf) := by
  have hrec : Tracks (recomputeConf { r with log := [], baseConf := conf }) := recompute _
  have hrep : Tracks (recomputeConf { r with log := [], baseConf := conf } |>.replaceLog m) :=
    hrec.of_eq rfl rfl rfl rfl
  exact hrep.dirty.of_eq rfl rfl rfl rfl

end Tracks

theorem Micro.tracks {o : Raft} (h : Micro c o r r') (hi : Tracks r) : Tracks r' := by
  have hof : ∀ {r₁ : Raft}, r'.ledger = r₁.ledger → Tracks r₁ → Tracks r' := fun heq h =>
    h.of_eq (ledger_proj heq Raft.baseConf fun _ => rfl) (ledger_proj heq Raft.log fun _ => rfl)
      (ledger_proj heq Raft.conf fun _ => rfl)
      (ledger_proj heq (fun r => r.peers.map (·.id)) fun r => by simp [ledger])
  cases h.entered with
  | same heq => exact hof heq hi
  | turn _ heq _ => exact hof heq (hi.of_eq rfl rfl rfl rfl)
  | append e _ _ _ _ => exact hi.extend e
  | @accept m r₁ _ _ _ _ _ hs heq =>
    have h₁ : Tracks r₁ := foldlM_inv (P := Tracks) (fun _ _ _ _ h₁ h₂ => h₁.storeEntry h₂) hi hs
    refine hof heq ?_
    unfold commitUpTo
    split_ifs
    · exact h₁.of_eq rfl rfl rfl rfl
    · exact h₁
  | install _ _ _ _ _ heq => exact hof heq (.installSnapshot r _ _)
  | _ => exact hi.of_eq rfl rfl rfl rfl

theorem Tracks.drained (h : Tracks r) (hd : Drained r r') : Tracks r' :=
  h.of_eq (hd.proj Raft.baseConf fun _ => rfl) (hd.proj Raft.log fun _ => rfl)
    (hd.proj Raft.conf fun _ => rfl) (hd.proj (fun r => r.peers.map (·.id)) fun _ => rfl)

theorem Executed.tracks (h : Executed r c r' rep) (hi : Tracks r) : Tracks r' :=
  h.keeps hi.drained Micro.tracks (fun _ _ _ => .recompute _) hi

/-! ### The base configuration -/

/-- What a node has from snapshots: its base configuration and the install it is about to hand over. -/
def Raft.adopted (r : Raft) : Configuration × Option Snapshot := (r.baseConf, r.pendingSnap)

/-- Only a snapshot message changes what a node has from snapshots. -/
theorem Micro.adopted {o : Raft} (h : Micro c o r r') :
    r'.adopted = r.adopted ∨ ∃ m conf, c = .step m ∧ m.type = .snap ∧
      decodeConfiguration m.snapConf = some conf ∧ r'.adopted = (conf, some
        { index := m.snapIndex, term := m.snapTerm, data := m.snapData, conf := conf }) := by
  cases h.entered with
  | same heq => exact .inl (ledger_proj heq Raft.adopted fun _ => rfl)
  | turn _ heq _ => exact .inl (ledger_proj heq Raft.adopted fun _ => rfl)
  | append e _ _ _ _ =>
    obtain ⟨_, _, _, _, _, -, heq⟩ := r.extend_eq e
    exact .inl (by rw [heq]; rfl)
  | @accept m r₁ _ _ _ _ _ hs heq =>
    have hstore : r₁.adopted = r.adopted := storeEntries_proj _ hs (by intros; rfl)
    rw [ledger_proj heq Raft.adopted fun _ => rfl]
    exact .inl ((commitUpTo_proj _ _ _ Raft.adopted fun _ _ => rfl).trans hstore)
  | @install m conf _ hc ht _ _ hd heq =>
    obtain ⟨_, _, _, _, -, hinstall⟩ := r.installSnapshot_eq m conf
    refine .inr ⟨m, conf, hc, ht, hd, ?_⟩
    rw [ledger_proj heq Raft.adopted fun _ => rfl, hinstall]
    rfl
  | _ => exact .inl rfl

theorem Micro.baseConf {o : Raft} (h : Micro c o r r') :
    r'.baseConf = r.baseConf ∨ ∃ m, c = .step m ∧ m.type = .snap ∧
      decodeConfiguration m.snapConf = some r'.baseConf := by
  rcases h.adopted with heq | ⟨m, conf, hc, ht, hd, heq⟩
  · exact .inl (congrArg Prod.fst heq)
  · exact .inr ⟨m, hc, ht, hd.trans (congrArg (some ·.1) heq.symm)⟩

theorem configurationAt_induct {i : ℕ}
    (hP : ∀ {c ch c'}, P c → Configuration.apply c ch = .ok c' → P c') (hb : P r.baseConf)
    (h : r.configurationAt i = .ok conf) : P conf := by
  unfold configurationAt at h
  split_ifs at h
  · injection h with h
    exact h ▸ hb
  · injection h with h
    exact h ▸ confOf_induct hP hb _

/-- Only an installed snapshot and a compaction change the base configuration. -/
theorem Executed.baseConf (h : Executed r c r' rep) :
    r'.baseConf = r.baseConf ∨
      (∃ m, c = .step m ∧ m.type = .snap ∧ decodeConfiguration m.snapConf = some r'.baseConf) ∨
      ∃ i, r.configurationAt i = .ok r'.baseConf := by
  refine h.keeps (P := fun r' => r'.baseConf = r.baseConf ∨
      (∃ m, c = .step m ∧ m.type = .snap ∧ decodeConfiguration m.snapConf = some r'.baseConf) ∨
      ∃ i, r.configurationAt i = .ok r'.baseConf)
    (fun hd => .inl (hd.proj Raft.baseConf fun _ => rfl)) (fun hm hp => ?_)
    (fun _ _ hc => .inr (.inr ⟨_, hc⟩)) (.inl rfl)
  rcases hm.baseConf with heq | hm
  · rwa [heq]
  · exact .inr (.inl hm)

/-! ### Construction and recovery -/

theorem Config.conf_wf (cfg : Config) : cfg.conf.WF := by
  suffices ∀ (ps : List NodeID) (c : Configuration), c.WF →
      (∀ n ∈ c.voters, n ∉ cfg.learners) → (∀ n ∈ c.learners, n ∈ cfg.learners) →
      (ps.foldl (fun c p =>
        if cfg.learners.contains p then { c with learners := insertID c.learners p }
        else { c with voters := insertID c.voters p }) c).WF from
    this cfg.peers {} ⟨.nil, .nil, fun _ h => absurd h (by simp)⟩ (by simp) (by simp)
  intro ps
  induction ps with
  | nil => exact fun c h _ _ => h
  | cons p ps ih =>
    intro c hw hv hl
    rw [foldl_cons]
    split_ifs with hp
    · have hp : p ∈ cfg.learners := by simpa using hp
      have hl' : ∀ n ∈ insertID c.learners p, n ∈ cfg.learners := fun n hn =>
        (mem_insertID.mp hn).elim (fun h => h ▸ hp) (hl n)
      exact ih _ ⟨hw.voters, nodup_insertID p hw.learners, fun n h₁ h₂ => hv n h₁ (hl' n h₂)⟩ hv hl'
    · have hp : p ∉ cfg.learners := by simpa using hp
      have hv' : ∀ n ∈ insertID c.voters p, n ∉ cfg.learners := fun n hn =>
        (mem_insertID.mp hn).elim (fun h => h ▸ hp) (hv n)
      exact ih _ ⟨nodup_insertID p hw.voters, hw.learners, fun n h₁ h₂ => hv' n h₁ (hl n h₂)⟩ hv' hl

theorem fresh_tracks (cfg : Config) : Tracks (fresh cfg) :=
  ⟨rfl, by simp [fresh, Function.comp_def]⟩

theorem recovered_tracks (cfg : Config) (hs : HardState) (snap : SnapshotMeta)
    (entries : List Entry) : Tracks (recovered cfg hs snap entries) := by
  have hrec : Tracks (recomputeConf
      { fresh cfg with
        term := hs.term, vote := hs.vote, snapIndex := snap.index, snapTerm := snap.term
        baseConf := if snap.conf.voters = [] then cfg.conf else snap.conf, log := entries
        commitIndex := snap.index, appliedIdx := snap.index }) := .recompute _
  exact hrec.of_eq rfl rfl rfl rfl

end Rift
