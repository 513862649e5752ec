import Mathlib.Data.List.Lex
import Mathlib.Data.List.Sort
import Mathlib.Tactic.Linarith
import Mathlib.Tactic.Positivity
import Mathlib.Tactic.Ring

/-!
# Byte strings

Byte strings in the order of `bytes.Compare` and `memcmp`, which is the lexicographic order of lists,
and big-endian integers of a fixed width, whose byte order is the order of the numbers.

## Main definitions

* `putBE`, `getBE`, `takeBE` — big-endian integers
* `putBytes`, `takeBytes` — byte strings behind a four-byte length

## Main results

* `append_lt_append_iff` — a common prefix does not matter to the order
* `putBE_lt_putBE` — big-endian integers are ordered as the numbers
* `takeBE_putBE`, `takeBytes_putBytes` — reading back what was put
-/

namespace Rift

open List Nat

/-- Byte strings. -/
abbrev Bytes := List UInt8

instance linearOrderUInt8 : LinearOrder UInt8 where
  le_refl := UInt8.le_refl
  le_trans _ _ _ := UInt8.le_trans
  le_antisymm _ _ := UInt8.le_antisymm
  le_total := UInt8.le_total
  lt_iff_le_not_ge a b := by
    simp only [UInt8.lt_iff_toNat_lt, UInt8.le_iff_toNat_le]
    omega
  toDecidableLE := inferInstance
  toDecidableLT := inferInstance
  toDecidableEq := inferInstance

theorem append_lt_append_iff {α : Type*} [LinearOrder α] {p a b : List α} :
    p ++ a < p ++ b ↔ a < b := by
  induction p with
  | nil => rfl
  | cons x p ih => simp [ih]

/-! ### Big-endian integers -/

/-- The `w` low bytes of a number, most significant first. -/
def putBE : ℕ → ℕ → Bytes
  | 0, _ => []
  | w + 1, n => UInt8.ofNat (n / 256 ^ w) :: putBE w n

/-- Fold bytes back into a number. -/
def getBE (b : Bytes) : ℕ := b.foldl (fun n x => n * 256 + x.toNat) 0

/-- Read a number of `w` bytes. -/
def takeBE (w : ℕ) (b : Bytes) : Option (ℕ × Bytes) :=
  if b.length < w then none else some (getBE (b.take w), b.drop w)

@[simp] theorem length_putBE (w n : ℕ) : (putBE w n).length = w := by
  induction w with
  | zero => rfl
  | succ w ih => simp [putBE, ih]

theorem putBE_mod (w n : ℕ) : putBE w (n % 256 ^ w) = putBE w n := by
  have h : ∀ v ≤ w, putBE v (n % 256 ^ w) = putBE v n := by
    intro v hv
    induction v with
    | zero => rfl
    | succ v ih =>
      have hpow : 256 ^ w = 256 ^ v * 256 ^ (w - v) := by rw [← pow_add]; congr 1; omega
      have hdvd : 256 ∣ 256 ^ (w - v) := dvd_pow_self _ (by omega)
      simp only [putBE, ih (by omega), cons.injEq, and_true]
      apply UInt8.toNat_inj.mp
      simp only [UInt8.toNat_ofNat']
      rw [hpow, mod_mul_right_div_self, mod_mod_of_dvd _ hdvd]
  exact h w le_rfl

private theorem getBE_foldl (b : Bytes) (n : ℕ) :
    b.foldl (fun n x => n * 256 + x.toNat) n = n * 256 ^ b.length + getBE b := by
  induction b generalizing n with
  | nil => simp [getBE]
  | cons x b ih =>
    have h := ih (0 * 256 + x.toNat)
    rw [foldl_cons, ih]
    unfold getBE at h ⊢
    rw [foldl_cons, h, length_cons, pow_succ]
    ring

theorem getBE_cons (x : UInt8) (b : Bytes) :
    getBE (x :: b) = x.toNat * 256 ^ b.length + getBE b := by
  rw [getBE, foldl_cons, getBE_foldl]
  simp

theorem getBE_putBE_mod (w n : ℕ) : getBE (putBE w n) = n % 256 ^ w := by
  induction w with
  | zero => simp [putBE, getBE, mod_one]
  | succ w ih =>
    have h : n % (256 ^ w * 256) = n % 256 ^ w + 256 ^ w * (n / 256 ^ w % 256) := mod_mul
    rw [putBE, getBE_cons, ih, length_putBE, UInt8.toNat_ofNat', pow_succ 256 w, h]
    norm_num
    ring

theorem getBE_putBE {w n : ℕ} (h : n < 256 ^ w) : getBE (putBE w n) = n := by
  rw [getBE_putBE_mod, mod_eq_of_lt h]

theorem getBE_lt (b : Bytes) : getBE b < 256 ^ b.length := by
  induction b with
  | nil => simp [getBE]
  | cons x b ih =>
    rw [getBE_cons, length_cons, pow_succ]
    have := x.toNat_lt
    nlinarith

theorem putBE_getBE (b : Bytes) : putBE b.length (getBE b) = b := by
  induction b with
  | nil => rfl
  | cons x b ih =>
    have hlt := getBE_lt b
    rw [length_cons, putBE, getBE_cons]
    congr 1
    · rw [mul_comm, mul_add_div (by positivity), div_eq_of_lt hlt, add_zero]
      exact UInt8.ofNat_toNat
    · rw [← putBE_mod, mul_comm, mul_add_mod, putBE_mod, ih]

theorem putBE_inj {w a b : ℕ} (ha : a < 256 ^ w) (hb : b < 256 ^ w) :
    putBE w a = putBE w b ↔ a = b := by
  constructor
  · intro h
    rw [← getBE_putBE ha, h, getBE_putBE hb]
  · rintro rfl
    rfl

/-- The byte order of big-endian integers of one width is the order of the numbers. -/
theorem putBE_lt_putBE {w a b : ℕ} (ha : a < 256 ^ w) (hb : b < 256 ^ w) :
    putBE w a < putBE w b ↔ a < b := by
  induction w generalizing a b with
  | zero =>
    simp only [pow_zero, lt_one_iff] at ha hb
    simp [putBE, ha, hb]
  | succ w ih =>
    have hpos : 0 < 256 ^ w := by positivity
    have hda : a / 256 ^ w < 256 := Nat.div_lt_of_lt_mul (by rwa [← pow_succ])
    have hdb : b / 256 ^ w < 256 := Nat.div_lt_of_lt_mul (by rwa [← pow_succ])
    have hna : (UInt8.ofNat (a / 256 ^ w)).toNat = a / 256 ^ w := by
      rw [UInt8.toNat_ofNat', mod_eq_of_lt hda]
    have hnb : (UInt8.ofNat (b / 256 ^ w)).toNat = b / 256 ^ w := by
      rw [UInt8.toNat_ofNat', mod_eq_of_lt hdb]
    have hma := mod_lt a hpos
    have hmb := mod_lt b hpos
    rw [putBE, putBE, cons_lt_cons_iff, ← putBE_mod w a, ← putBE_mod w b, ih hma hmb,
      UInt8.lt_iff_toNat_lt, ← UInt8.toNat_inj, hna, hnb]
    -- Both sides compare the quotients first and the remainders second.
    have ea := div_add_mod a (256 ^ w)
    have eb := div_add_mod b (256 ^ w)
    generalize a / 256 ^ w = qa at *
    generalize b / 256 ^ w = qb at *
    generalize a % 256 ^ w = ra at *
    generalize b % 256 ^ w = rb at *
    subst ea eb
    constructor
    · rintro (h | ⟨rfl, h⟩)
      · have : 256 ^ w * (qa + 1) ≤ 256 ^ w * qb := mul_le_mul_left _ h
        rw [mul_add] at this
        omega
      · omega
    · intro h
      rcases lt_trichotomy qa qb with hq | rfl | hq
      · exact .inl hq
      · exact .inr ⟨rfl, by omega⟩
      · have : 256 ^ w * (qb + 1) ≤ 256 ^ w * qa := mul_le_mul_left _ hq
        rw [mul_add] at this
        omega

theorem takeBE_putBE {w n : ℕ} (h : n < 256 ^ w) (r : Bytes) :
    takeBE w (putBE w n ++ r) = some (n, r) := by
  simp [takeBE, getBE_putBE h]

theorem takeBE_eq_some {w n : ℕ} {b r : Bytes} (h : takeBE w b = some (n, r)) :
    b = putBE w n ++ r ∧ n < 256 ^ w := by
  unfold takeBE at h
  split at h
  · cases h
  · next hlen =>
    simp only [Option.some.injEq, Prod.mk.injEq] at h
    have hw : (b.take w).length = w := by simp; omega
    obtain ⟨rfl, rfl⟩ := h
    constructor
    · have hput := putBE_getBE (b.take w)
      rw [hw] at hput
      rw [hput, take_append_drop]
    · simpa [hw] using getBE_lt (b.take w)

/-! ### Length-prefixed byte strings -/

/-- A byte string whose length a four-byte prefix can say. -/
abbrev Str := { b : Bytes // b.length < 256 ^ 4 }

abbrev Str.empty : Str := ⟨[], by decide⟩

theorem length_singleton_lt (b : UInt8) : [b].length < 256 ^ 4 := by simp

/-- A byte string behind its length. A length that does not fit is truncated, as the source's
conversion to `uint32` does. -/
def putBytes (b : Bytes) : Bytes := putBE 4 b.length ++ b

/-- Read a length-prefixed byte string. -/
def takeBytes (b : Bytes) : Option (Str × Bytes) :=
  match h : takeBE 4 b with
  | none => none
  | some (n, r) =>
    if r.length < n then none
    else some (⟨r.take n, by
      have := (takeBE_eq_some h).2
      simp only [length_take]
      omega⟩, r.drop n)

theorem takeBytes_putBytes (s : Str) (r : Bytes) :
    takeBytes (putBytes s.1 ++ r) = some (s, r) := by
  have h : takeBE 4 (putBytes s.1 ++ r) = some (s.1.length, s.1 ++ r) := by
    rw [putBytes, append_assoc, takeBE_putBE s.2]
  unfold takeBytes
  split
  · next h' => simp [h] at h'
  · next n q h' =>
    rw [h] at h'
    cases h'
    simp

/-- Whatever a byte string was read from is the string behind its length, followed by the rest. -/
theorem takeBytes_eq_some {s : Str} {b r : Bytes} (h : takeBytes b = some (s, r)) :
    b = putBytes s.1 ++ r := by
  unfold takeBytes at h
  split at h
  · simp at h
  · next n q hq =>
    split at h
    · simp at h
    · next hlen =>
      cases h
      have hb := (takeBE_eq_some hq).1
      have hn : (q.take n).length = n := by
        rw [length_take]
        omega
      rw [putBytes, hn, append_assoc, take_append_drop, ← hb]

@[simp] theorem length_putBytes (b : Bytes) : (putBytes b).length = 4 + b.length := by
  simp [putBytes]

end Rift
