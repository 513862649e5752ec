import Mathlib.Data.Set.Card
import Mathlib.Order.Interval.Finset.Nat

/-!
# Bounded draws

`internal/rng/rand.go`: a word below a bound from words below `2 ^ 64`, by a multiplication and
rejection, and the shuffles made of such draws. What the generator puts out is a list of words; a draw
takes words off its front, and does not finish if they run out.
-/

namespace Rift.Rng

/-- A 64 bit word. -/
abbrev Word := Fin (2 ^ 64)

/-- Why a draw returns nothing: a panic, or too few words. -/
inductive DrawError
  | zeroBound
  | negative
  | outOfRange
  | exhausted
  deriving DecidableEq, Repr

/-- `bits.Mul64`: the high and the low half of a product. -/
def mul64 (x y : Word) : Word × Word :=
  (⟨x * y / 2 ^ 64, Nat.div_lt_of_lt_mul (Nat.mul_lt_mul'' x.2 y.2)⟩, x * y)

/-- Draw again while the low half is below the threshold. -/
def redraw (n threshold : Word) (p : Word × Word) (ws : List Word) :
    Except DrawError (Word × List Word) :=
  if p.2 < threshold then
    match ws with
    | [] => .error .exhausted
    | w :: ws => redraw n threshold (mul64 w n) ws
  else .ok (p.1, ws)

def uint64N (n : Word) (ws : List Word) : Except DrawError (Word × List Word) :=
  if n = 0 then .error .zeroBound
  else
    match ws with
    | [] => .error .exhausted
    | w :: ws =>
      let p := mul64 w n
      if p.2 < n then redraw n (-n % n) p ws else .ok (p.1, ws)

/-- Swap the places `i`, `i - 1`, down to 1 with drawn ones below or at them. -/
def shuffleFrom {σ : Type} (swap : ℕ → ℕ → σ → Except DrawError σ) :
    ℕ → σ → List Word → Except DrawError (σ × List Word)
  | 0, s, ws => .ok (s, ws)
  | i + 1, s, ws => do
    let (j, ws) ← uint64N (Fin.ofNat _ (i + 2)) ws
    let s ← swap (i + 1) j s
    shuffleFrom swap i s ws

def shuffle {σ : Type} (n : ℤ) (swap : ℕ → ℕ → σ → Except DrawError σ) (s : σ) (ws : List Word) :
    Except DrawError (σ × List Word) :=
  if n < 0 then .error .negative else shuffleFrom swap (n - 1).toNat s ws

/-- Swap two places of a slice. -/
def swapAt {α : Type} (i j : ℕ) (a : Array α) : Except DrawError (Array α) :=
  if h : i < a.size ∧ j < a.size then .ok (a.swap i j h.1 h.2) else .error .outOfRange

def perm (n : ℤ) (ws : List Word) : Except DrawError (Array ℕ × List Word) :=
  if n < 0 then .error .negative else shuffle n swapAt (Array.range n.toNat) ws

/-! ### One draw -/

variable {n v w : Word} {ws rest : List Word}

theorem val_threshold (hn : n ≠ 0) : (-n % n : Word).val = 2 ^ 64 % n.val := by
  have hpos : 0 < n.val := Nat.pos_of_ne_zero fun h => hn (Fin.ext h)
  rw [Fin.val_mod, Fin.val_neg, if_neg hn, Nat.mod_eq_sub_mod n.2.le]

theorem threshold_lt (hn : n ≠ 0) : -n % n < n := by
  rw [Fin.lt_def, val_threshold hn]
  exact Nat.mod_lt _ (Nat.pos_of_ne_zero fun h => hn (Fin.ext h))

theorem uint64N_cons (hn : n ≠ 0) (w : Word) (ws : List Word) : uint64N n (w :: ws) =
    if (mul64 w n).2 < -n % n then uint64N n ws else .ok ((mul64 w n).1, ws) := by
  have hredraw : ∀ w ws, uint64N n (w :: ws) = redraw n (-n % n) (mul64 w n) ws := by
    intro w ws
    rw [uint64N, if_neg hn]
    dsimp only
    split_ifs with hlo
    · rfl
    · rw [redraw.eq_def, if_neg fun h => hlo (h.trans (threshold_lt hn))]
  rw [hredraw, redraw.eq_def]
  cases ws with
  | nil => simp only [uint64N, if_neg hn]
  | cons w' ws => rw [hredraw w' ws]

/-- A draw returns what the first word gives that is not rejected. -/
theorem uint64N_cases (hn : n ≠ 0) (ws : List Word) :
    uint64N n ws = .error .exhausted ∨
      ∃ rejected w rest, ws = rejected ++ w :: rest ∧ uint64N n ws = .ok ((mul64 w n).1, rest) ∧
        -n % n ≤ (mul64 w n).2 ∧ ∀ u ∈ rejected, (mul64 u n).2 < -n % n := by
  induction ws with
  | nil => exact .inl (if_neg hn)
  | cons w ws ih =>
    rw [uint64N_cons hn]
    split_ifs with hlo
    · refine ih.imp_right ?_
      rintro ⟨rejected, u, rest, rfl, h, hu, hrejected⟩
      exact ⟨w :: rejected, u, rest, rfl, h, hu, List.forall_mem_cons.mpr ⟨hlo, hrejected⟩⟩
    · exact .inr ⟨[], w, ws, rfl, rfl, not_lt.mp hlo, fun u hu => absurd hu List.not_mem_nil⟩

theorem mul64_lt (hn : n ≠ 0) (w : Word) : (mul64 w n).1 < n := by
  refine Nat.div_lt_of_lt_mul (Nat.mul_lt_mul_of_pos_right w.2 ?_)
  exact Nat.pos_of_ne_zero fun h => hn (Fin.ext h)

/-- The products of the bound `n` that fall into the accepted part of the `v`th interval. The part is as
long as a multiple of `n`, so that it does not matter where it begins. -/
theorem accepted_iff {n v w : ℕ} (hn : 0 < n) :
    w * n / 2 ^ 64 = v ∧ 2 ^ 64 % n ≤ w * n % 2 ^ 64 ↔
      (v * 2 ^ 64 + 2 ^ 64 % n + (n - 1)) / n ≤ w ∧
        w < (v * 2 ^ 64 + 2 ^ 64 % n + (n - 1)) / n + 2 ^ 64 / n := by
  have hle : ∀ a, (a + (n - 1)) / n ≤ w ↔ a ≤ w * n := fun a => by
    rw [Nat.div_le_iff_le_mul_add_pred hn, mul_comm n]
    omega
  have hsplit := Nat.mod_add_div' (2 ^ 64) n
  rw [hle, ← not_le, ← Nat.add_mul_div_right _ _ hn, add_right_comm, hle]
  omega

theorem ncard_gives (hn : n ≠ 0) (hv : v < n) :
    Set.ncard {w | uint64N n [w] = .ok (v, [])} = 2 ^ 64 / n.val := by
  have hpos : 0 < n.val := Nat.pos_of_ne_zero fun h => hn (Fin.ext h)
  have hgives : ∀ w : Word, uint64N n [w] = .ok (v, []) ↔
      w.val * n.val / 2 ^ 64 = v.val ∧ 2 ^ 64 % n.val ≤ w.val * n.val % 2 ^ 64 := by
    intro w
    have hlo : (mul64 w n).2 < -n % n ↔ w.val * n.val % 2 ^ 64 < 2 ^ 64 % n.val := by
      rw [Fin.lt_def, val_threshold hn]
      rfl
    rw [uint64N_cons hn, ← not_lt, ← hlo]
    split_ifs with h
    · simp [h, uint64N, hn]
    · rw [and_iff_left h]
      simp [mul64, Fin.ext_iff]
  have himage : Fin.val '' {w | uint64N n [w] = .ok (v, [])} =
      Finset.Ico ((v.val * 2 ^ 64 + 2 ^ 64 % n.val + (n.val - 1)) / n.val)
        ((v.val * 2 ^ 64 + 2 ^ 64 % n.val + (n.val - 1)) / n.val + 2 ^ 64 / n.val) := by
    ext x
    rw [Finset.coe_Ico, Set.mem_Ico, ← accepted_iff hpos]
    constructor
    · rintro ⟨w, h, rfl⟩
      exact (hgives w).mp h
    · intro h
      have hlt : x * n.val < n.val * 2 ^ 64 := (Nat.div_lt_iff_lt_mul (by decide)).mp (h.1 ▸ hv)
      have hx : x < 2 ^ 64 := Nat.lt_of_mul_lt_mul_right (mul_comm n.val _ ▸ hlt)
      exact ⟨⟨x, hx⟩, (hgives _).mpr h, rfl⟩
  rw [← Set.ncard_image_of_injective _ Fin.val_injective, himage, Set.ncard_coe_finset,
    Nat.card_Ico, Nat.add_sub_cancel_left]

/-! ### Shuffles -/

theorem shuffleFrom_cases {α : Type} {i : ℕ} {a : Array α} (hi : i < a.size ∨ i = 0)
    (ha : a.size < 2 ^ 64) (ws : List Word) :
    shuffleFrom swapAt i a ws = .error .exhausted ∨
      ∃ b rest, shuffleFrom swapAt i a ws = .ok (b, rest) ∧ b.Perm a := by
  induction i generalizing a ws with
  | zero => exact .inr ⟨a, ws, rfl, .refl _⟩
  | succ i ih =>
    have hval : (Fin.ofNat (2 ^ 64) (i + 2)).val = i + 2 := Nat.mod_eq_of_lt (by omega)
    rw [shuffleFrom]
    generalize Fin.ofNat (2 ^ 64) (i + 2) = n at hval ⊢
    have hn : n ≠ 0 := fun h => by simp [h] at hval
    rcases uint64N_cases hn ws with h | ⟨rejected, w, rest, -, h, -⟩
    · exact .inl (by rw [h]; rfl)
    · have hj : (mul64 w n).1.val < i + 2 := hval ▸ mul64_lt hn w
      have hswap : swapAt (i + 1) (mul64 w n).1 a = .ok (a.swap (i + 1) (mul64 w n).1) :=
        dif_pos ⟨by omega, by omega⟩
      simp only [h, hswap, bind, Except.bind]
      refine (ih (by simp; omega) (by simpa using ha) rest).imp_right ?_
      rintro ⟨b, rest', hb, hperm⟩
      exact ⟨b, rest', hb, hperm.trans (Array.swap_perm _ _)⟩

/-- Bounded draws are exactly uniform: a draw returns what the first word gives that is not rejected,
it is below the bound, and as many words give one value as another. Shuffles that finish permute. -/
theorem draws_uniform :
    (∀ n : Word, n ≠ 0 →
      (∀ ws v rest, uint64N n ws = .ok (v, rest) → v < n ∧ ∃ rejected w,
        ws = rejected ++ w :: rest ∧ uint64N n [w] = .ok (v, []) ∧
          ∀ u ∈ rejected, uint64N n [u] = .error .exhausted) ∧
      ∀ v < n, Set.ncard {w | uint64N n [w] = .ok (v, [])} = 2 ^ 64 / n.val) ∧
    (∀ {α : Type} (a : Array α), a.size < 2 ^ 63 → ∀ ws,
      shuffle a.size swapAt a ws ≠ .error .exhausted →
        ∃ b rest, shuffle a.size swapAt a ws = .ok (b, rest) ∧ b.Perm a) ∧
    ∀ n : ℤ, 0 ≤ n → n < 2 ^ 63 → ∀ ws, perm n ws ≠ .error .exhausted →
      ∃ out rest, perm n ws = .ok (out, rest) ∧ out.Perm (Array.range n.toNat) := by
  have hshuffle : ∀ {α : Type} (a : Array α), a.size < 2 ^ 63 → ∀ ws,
      shuffle a.size swapAt a ws ≠ .error .exhausted →
        ∃ b rest, shuffle a.size swapAt a ws = .ok (b, rest) ∧ b.Perm a := by
    intro α a ha ws h
    rw [shuffle, if_neg (by omega)] at h ⊢
    exact (shuffleFrom_cases (by omega) (by omega) ws).resolve_left h
  refine ⟨fun n hn => ⟨fun ws v rest h => ?_, fun v hv => ncard_gives hn hv⟩, hshuffle,
    fun n hn hlt ws h => ?_⟩
  · rcases uint64N_cases hn ws with h' | ⟨rejected, w, rest', rfl, h', hw, hrejected⟩
    · rw [h'] at h
      cases h
    · cases h'.symm.trans h
      refine ⟨mul64_lt hn w, rejected, w, rfl, ?_, fun u hu => ?_⟩
      · rw [uint64N_cons hn, if_neg hw.not_gt]
      · rw [uint64N_cons hn, if_pos (hrejected u hu)]
        exact if_neg hn
  · obtain ⟨k, rfl⟩ := Int.eq_ofNat_of_zero_le hn
    have hrange := hshuffle (Array.range k) (by rw [Array.size_range]; omega) ws
    rw [Array.size_range] at hrange
    rw [perm, if_neg hn.not_gt] at h ⊢
    exact hrange h

/-- The first word is rejected, the second one swaps the ends, and the third one changes nothing. -/
def sampleWords : List Word := [0, 1, 2 ^ 63]

theorem draws_uniform_sample : Set.ncard {w | uint64N 3 [w] = .ok (2, [])} = 2 ^ 64 / 3 ∧
    ∃ out rest, perm 3 sampleWords = .ok (out, rest) ∧ out.Perm #[0, 1, 2] :=
  ⟨(draws_uniform.1 3 (by decide)).2 2 (by decide),
    draws_uniform.2.2 3 (by decide) (by decide) sampleWords (by decide +kernel)⟩

end Rift.Rng
