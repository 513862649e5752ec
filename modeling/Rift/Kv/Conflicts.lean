import Rift.Kv.Ownership

/-!
# Transactions on a key take turns

No update is lost: of two transactions that commit on one key, one starts at or after the commit of the
other. A prewrite is refused below the newest commit record of its key, and the lock it leaves keeps
others out until its owner is decided. Reads, resolutions of locks, rollbacks, plain puts and
collections may come in between.
-/

namespace Rift.Kv

open Store

/-- On each key the owner of the lock starts after every other commit, and committed transactions
follow one another. -/
structure InTurn (m : Mint) (g : Ledger) : Prop extends Settled m g where
  dated : g.store.Dated
  owner : ∀ {key l c startTS}, g.store.view.lock key = some l →
    g.store.view.write key c = some (startTS, false) → startTS ≠ l.startTS → c ≤ l.startTS
  follow : ∀ {key c startTS c' startTS'}, g.store.view.write key c = some (startTS, false) →
    g.store.view.write key c' = some (startTS', false) → startTS < startTS' → c ≤ startTS'

variable {m : Mint} {g : Ledger} {st : Step}

theorem InTurn.step (hg : InTurn m g) (hok : m.allows g st) (hneg : st.recordNonneg) :
    InTurn m (g.step st) := by
  have hchange := change_step hg.wf hg.oneMark st
  -- A transaction that commits now has its lock, or has committed before.
  have hnew : ∀ {key c startTS}, (g.step st).store.view.write key c = some (startTS, false) →
      g.store.view.write key c = some (startTS, false) ∨
        ∃ l, g.store.view.lock key = some l ∧ l.startTS = startTS := by
    intro key c startTS hw
    rcases hchange.real hw with hw | hc
    · exact .inl hw
    obtain ⟨hcommit, hpre, hdead⟩ := hok.commit hc
    rcases hg.settled hpre with hl | ⟨c', hw'⟩ | hr
    · exact .inr hl
    · cases hcommit.symm.trans (hg.real hw').2
      exact .inl hw'
    · exact absurd hr hdead
  refine ⟨hg.toSettled.step hok, hg.dated.step hneg, ?_, ?_⟩
  · intro key l c startTS hl hw hne
    rcases hchange.acquire hl with hold | ⟨x, b, rfl, hb⟩
    · rcases hnew hw with hw₀ | ⟨l', hl', rfl⟩
      · exact hg.owner hold hw₀ hne
      · cases hold.symm.trans hl'
        exact absurd rfl hne
    · rcases hnew hw with hw₀ | ⟨l', hl', -⟩
      · -- A commit above its start fences a prewrite off.
        by_contra hlt
        have hfence : g.store.Fenced key l.startTS := .inr (.inr ⟨c, by simp [hw₀], not_le.mp hlt⟩)
        exact hfence.refused hg.wf hg.oneMark hg.dated.nonneg rfl x b hb
      · obtain ⟨⟨-, -, hfree, -⟩, -⟩ := prewriteInto_eq_ok.mp hb
        cases hfree.symm.trans hl'
  · intro key c startTS c' startTS' hw hw' hlt
    rcases hnew hw' with hw₀' | ⟨l', hl', rfl⟩
    · rcases hnew hw with hw₀ | ⟨l, hl, rfl⟩
      · exact hg.follow hw₀ hw₀' hlt
      · -- The other one committed before this lock was taken.
        have hle := (m.lt (hg.real hw₀').2).trans_le (hg.owner hl hw₀' hlt.ne')
        exact absurd hlt hle.not_gt
    · rcases hnew hw with hw₀ | ⟨l, hl, rfl⟩
      · exact hg.owner hl' hw₀ hlt.ne
      · cases hl.symm.trans hl'
        exact absurd hlt (lt_irrefl _)

/-- **No update is lost.** In every run whose transactions keep to their timestamps, the transactions
that have committed on a key are disjoint in time, and one that holds the key's lock has started after
all the others. -/
theorem committed_in_turn {s : Store} {steps : List Step} (hfresh : s.Fresh)
    (h : Follows Ledger.step m.allows { store := s } steps)
    (hneg : ∀ st ∈ steps, st.recordNonneg) :
    let g := steps.foldl Ledger.step { store := s }
    ∀ key c startTS, g.store.view.write key c = some (startTS, false) →
      (∀ c' startTS', g.store.view.write key c' = some (startTS', false) → startTS ≠ startTS' →
        c ≤ startTS' ∨ c' ≤ startTS) ∧
      ∀ l ∈ g.store.lock key, startTS ≠ l.startTS → c ≤ l.startTS := by
  intro g key c startTS hw
  have hg : InTurn m g := by
    refine (h.and_forall hneg).invariant (fun _ _ hg hok => hg.step hok.1 hok.2)
      ⟨hfresh.settled, hfresh.dated, ?_, ?_⟩ <;> simp [hfresh.view]
  refine ⟨fun c' startTS' hw' hne => ?_, fun l hl => hg.owner hl hw⟩
  exact hne.lt_or_gt.imp (hg.follow hw hw') (hg.follow hw' hw)

/-- Two transactions on one key, with a read in between. -/
theorem committed_in_turn_twice :
    let steps := committed ++ [.read someKey { wall := 25 },
      .prewrite someKey { primary := someKey, startTS := { wall := 30 } } [2],
      .commit someKey { wall := 30 } { wall := 40 }]
    let g := steps.foldl Ledger.step { store := { ns := [] } }
    g.store.view.write someKey { wall := 10 } = some ({ wall := 5 }, false) ∧
      ∀ c startTS, g.store.view.write someKey c = some (startTS, false) →
        ({ wall := 5 } : Timestamp) ≠ startTS → ({ wall := 10 } : Timestamp) ≤ startTS ∨ c ≤ { wall := 5 } := by
  intro steps g
  have hfirst : g.store.view.write someKey { wall := 10 } = some ({ wall := 5 }, false) := by
    decide +kernel
  have hfollows : Follows Ledger.step committedMint.allows { store := { ns := [] } } steps := by
    decide +kernel
  have hneg : ∀ st ∈ steps, st.recordNonneg := by
    simp [steps, committed, Step.recordNonneg, Step.ends, Timestamp.Nonneg]
  exact ⟨hfirst, (committed_in_turn (fresh_empty []) hfollows hneg _ _ _ hfirst).1⟩

end Rift.Kv
