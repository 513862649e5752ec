import Mathlib.Data.List.Basic

/-!
# Programs that may stop anywhere

A program is a list of steps, each of which may fail. The states that the steps lead to are those that
a crash can find.

## Main definitions

* `Steps.run` — the state after a program
* `Steps.andThen` — go on with a program that depends on the state reached
* `Steps.Along` — a relation between the states before and after every step

## Main results

* `Steps.Along.append`, `Steps.Along.andThen` — how the relation composes
* `Steps.along_of_forall` — a relation that every step keeps
-/

namespace Rift.Steps

variable {σ μ : Type*} {step : σ → μ → Option σ}

/-- Run a program. -/
def run (step : σ → μ → Option σ) (s : σ) (ms : List μ) : Option σ := ms.foldlM step s

/-- One program, and then another that depends on the state reached. -/
def andThen (step : σ → μ → Option σ) (p q : σ → List μ) (s : σ) : List μ :=
  p s ++ ((run step s (p s)).map q).getD []

@[simp] theorem run_nil (s : σ) : run step s [] = some s := rfl

theorem run_cons (s : σ) (m : μ) (ms : List μ) :
    run step s (m :: ms) = (step s m).bind fun s' => run step s' ms := List.foldlM_cons

theorem run_append (s : σ) (a b : List μ) :
    run step s (a ++ b) = (run step s a).bind fun s' => run step s' b := List.foldlM_append

theorem run_andThen {p q : σ → List μ} {s s' : σ} :
    run step s (andThen step p q s) = some s' ↔
      ∃ s₁, run step s (p s) = some s₁ ∧ run step s₁ (q s₁) = some s' := by
  unfold andThen
  rw [run_append, Option.bind_eq_some_iff]
  refine exists_congr fun s₁ => and_congr_right fun h => ?_
  rw [h]
  rfl

/-! ### Steps that are related -/

/-- Every step of a program relates the state before it to the state after it. -/
def Along (step : σ → μ → Option σ) (R : σ → σ → Prop) : σ → List μ → Prop
  | _, [] => True
  | s, m :: ms => ∀ s', step s m = some s' → R s s' ∧ Along step R s' ms

section

variable {R : σ → σ → Prop} {s : σ}

theorem Along.append {a b : List μ} (ha : Along step R s a)
    (hb : ∀ s', run step s a = some s' → Along step R s' b) : Along step R s (a ++ b) := by
  induction a generalizing s with
  | nil => exact hb s rfl
  | cons m a ih =>
    refine fun s' hs' => ⟨(ha s' hs').1, ih (ha s' hs').2 fun t ht => hb t ?_⟩
    rw [run_cons, hs']
    exact ht

theorem Along.andThen {p q : σ → List μ} (hp : Along step R s (p s))
    (hq : ∀ s', run step s (p s) = some s' → Along step R s' (q s')) :
    Along step R s (andThen step p q s) := by
  refine hp.append fun s' hs' => ?_
  rw [hs']
  exact hq s' hs'

theorem along_of_forall {ms : List μ} (h : ∀ m ∈ ms, ∀ s s', step s m = some s' → R s s') :
    Along step R s ms := by
  induction ms generalizing s with
  | nil => trivial
  | cons m ms ih =>
    exact fun s' hs' => ⟨h m List.mem_cons_self s s' hs',
      ih fun m' hm => h m' (List.mem_cons_of_mem _ hm)⟩

end

end Rift.Steps
