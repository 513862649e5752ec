import Mathlib.Logic.Basic

/-!
# Runs

A computation of several parts succeeds when each of them does. A machine takes steps, and whoever drives
it promises to take a step only where it is allowed: a disciplined run keeps what every allowed step
keeps.

## Main definitions

* `Follows` — every step of a list is allowed in the state it is taken in

## Main results

* `bind_eq_ok` — the parts of a computation that succeeds
* `follows_append` — a run is disciplined when its parts are
* `Follows.invariant` — what every allowed step keeps holds after a disciplined run
-/

namespace Rift

theorem bind_eq_ok {ε α β : Type} {x : Except ε α} {f : α → Except ε β} {b : β} :
    x >>= f = .ok b ↔ ∃ a, x = .ok a ∧ f a = .ok b := by
  cases x with
  | error e => simp [bind, Except.bind]
  | ok a => simp [bind, Except.bind]

variable {σ α : Type*} {step : σ → α → σ} {ok ok' : σ → α → Prop} {s : σ} {as bs : List α}

/-- Every step is allowed in the state it is taken in. -/
def Follows (step : σ → α → σ) (ok : σ → α → Prop) : σ → List α → Prop
  | _, [] => True
  | s, a :: as => ok s a ∧ Follows step ok (step s a) as

instance Follows.decidable [∀ s a, Decidable (ok s a)] :
    ∀ (s : σ) (as : List α), Decidable (Follows step ok s as)
  | _, [] => inferInstanceAs (Decidable True)
  | s, a :: as =>
    have := Follows.decidable (step s a) as
    inferInstanceAs (Decidable (ok s a ∧ Follows step ok (step s a) as))

theorem follows_append :
    Follows step ok s (as ++ bs) ↔ Follows step ok s as ∧ Follows step ok (as.foldl step s) bs := by
  induction as generalizing s with
  | nil => simp [Follows]
  | cons a as ih => simp only [List.cons_append, Follows, List.foldl_cons, ih, and_assoc]

theorem Follows.and (h : Follows step ok s as) (h' : Follows step ok' s as) :
    Follows step (fun s a => ok s a ∧ ok' s a) s as := by
  induction as generalizing s with
  | nil => trivial
  | cons a as ih => exact ⟨⟨h.1, h'.1⟩, ih h.2 h'.2⟩

theorem Follows.and_forall {p : α → Prop} (h : Follows step ok s as) (hp : ∀ a ∈ as, p a) :
    Follows step (fun s a => ok s a ∧ p a) s as := by
  induction as generalizing s with
  | nil => trivial
  | cons a as ih =>
    exact ⟨⟨h.1, hp a (by simp)⟩, ih h.2 fun b hb => hp b (by simp [hb])⟩

theorem Follows.invariant {P : σ → Prop} (hstep : ∀ s a, P s → ok s a → P (step s a)) (hs : P s)
    (h : Follows step ok s as) : P (as.foldl step s) := by
  induction as generalizing s with
  | nil => exact hs
  | cons a as ih => exact ih (hstep s a hs h.1) h.2

end Rift
