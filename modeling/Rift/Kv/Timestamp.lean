import Mathlib.Data.Prod.Lex
import Mathlib.Order.Basic
import Rift.Lib.Bytes

/-!
# Hybrid-clock timestamps

`hlc.Timestamp`: a physical reading and a counter that breaks ties. Records are addressed by inverted
timestamps, so that within one key the newest record comes first in byte order. The byte order reads
the wall as an unsigned number, the order of timestamps reads it as a signed one: the two agree on
walls that are not negative, and only there.
-/

namespace Rift

/-- A point in the order of a hybrid clock. The zero timestamp is unset. -/
structure Timestamp where
  wall : Int64 := 0
  logical : UInt32 := 0
  deriving DecidableEq, Repr

variable {t u : Timestamp}

namespace Timestamp

def isSet (t : Timestamp) : Bool := t.wall ≠ 0 || t.logical ≠ 0

def less (t u : Timestamp) : Bool :=
  if t.wall ≠ u.wall then t.wall < u.wall else t.logical < u.logical

def lessEq (t u : Timestamp) : Bool := !u.less t

/-- The two readings as numbers, compared in this order. -/
def reading (t : Timestamp) : ℤ ×ₗ ℕ := toLex (t.wall.toInt, t.logical.toNat)

theorem reading_injective : Function.Injective reading := by
  rintro ⟨w, l⟩ ⟨w', l'⟩ h
  simp only [reading, EmbeddingLike.apply_eq_iff_eq, Prod.mk.injEq] at h
  rw [Int64.toInt_inj.mp h.1, UInt32.toNat_inj.mp h.2]

instance : LinearOrder Timestamp := LinearOrder.lift' reading reading_injective

theorem lt_iff :
    t < u ↔ t.wall.toInt < u.wall.toInt ∨
      t.wall.toInt = u.wall.toInt ∧ t.logical.toNat < u.logical.toNat :=
  Prod.Lex.lt_iff

@[simp] theorem less_iff : t.less u ↔ t < u := by
  rw [lt_iff, less]
  split
  · next h =>
    have hne : t.wall.toInt ≠ u.wall.toInt := fun he => h (Int64.toInt_inj.mp he)
    simp [hne, Int64.lt_iff_toInt_lt]
  · next h =>
    have heq : t.wall = u.wall := by simpa using h
    simp [heq, UInt32.lt_iff_toNat_lt]

@[simp] theorem less_eq_false_iff : t.less u = false ↔ u ≤ t := by
  rw [← not_lt, ← less_iff, Bool.not_eq_true]

@[simp] theorem lessEq_iff : t.lessEq u ↔ t ≤ u := by
  simp [lessEq]

@[simp] theorem lessEq_eq_false_iff : t.lessEq u = false ↔ u < t := by
  simp [lessEq]

/-- The wall as the unsigned number the codecs write, then the counter. -/
def rank (t : Timestamp) : ℕ := t.wall.toUInt64.toNat * 2 ^ 32 + t.logical.toNat

theorem rank_lt (t : Timestamp) : t.rank < 2 ^ 96 := by
  have hw := t.wall.toUInt64.toNat_lt
  have hl := t.logical.toNat_lt
  unfold rank
  omega

theorem rank_injective : Function.Injective rank := by
  rintro ⟨w, l⟩ ⟨w', l'⟩ h
  have hl := l.toNat_lt
  have hl' := l'.toNat_lt
  simp only [rank] at h
  have hw : w.toUInt64 = w'.toUInt64 := UInt64.toNat_inj.mp (by omega)
  have hll : l = l' := UInt32.toNat_inj.mp (by omega)
  rw [hll, ← Int64.toInt64_toUInt64 w, hw, Int64.toInt64_toUInt64]

@[simp] theorem rank_inj : t.rank = u.rank ↔ t = u := rank_injective.eq_iff

/-- The physical reading is not negative. -/
def Nonneg (t : Timestamp) : Prop := 0 ≤ t.wall.toInt

instance (t : Timestamp) : Decidable t.Nonneg := inferInstanceAs (Decidable (0 ≤ t.wall.toInt))

theorem toNat_toUInt64_of_nonneg {w : Int64} (h : 0 ≤ w.toInt) :
    (w.toUInt64.toNat : ℤ) = w.toInt := by
  have hlt : w.toUInt64.toNat < 2 ^ 64 := w.toUInt64.toNat_lt
  have hcond : w.toInt = if 2 * w.toUInt64.toNat < 2 ^ 64 then (w.toUInt64.toNat : ℤ)
      else (w.toUInt64.toNat : ℤ) - (2 ^ 64 : ℕ) := w.toBitVec.toInt_eq_toNat_cond
  split at hcond <;> omega

theorem rank_lt_rank (ht : t.Nonneg) (hu : u.Nonneg) : t.rank < u.rank ↔ t < u := by
  have hwt := toNat_toUInt64_of_nonneg ht
  have hwu := toNat_toUInt64_of_nonneg hu
  have hlt := t.logical.toNat_lt
  have hlu := u.logical.toNat_lt
  rw [lt_iff, rank, rank]
  omega

theorem Nonneg.of_le (ht : t.Nonneg) (h : t ≤ u) : u.Nonneg := by
  have hnot := not_lt.mpr h
  rw [lt_iff] at hnot
  unfold Nonneg at *
  omega

theorem Nonneg.of_rank_le (ht : t.Nonneg) (h : u.rank ≤ t.rank) : u.Nonneg := by
  have hwt := toNat_toUInt64_of_nonneg ht
  have hlt := t.logical.toNat_lt
  have hmax := t.wall.toInt_lt
  have hcond : u.wall.toInt = if 2 * u.wall.toUInt64.toNat < 2 ^ 64 then (u.wall.toUInt64.toNat : ℤ)
      else (u.wall.toUInt64.toNat : ℤ) - (2 ^ 64 : ℕ) := u.wall.toBitVec.toInt_eq_toNat_cond
  unfold rank at h
  unfold Nonneg
  split at hcond <;> omega

theorem nonneg_zero : ({} : Timestamp).Nonneg := by decide

theorem isSet_iff : t.isSet ↔ t ≠ {} := by
  obtain ⟨w, l⟩ := t
  simp only [isSet, Bool.or_eq_true, decide_eq_true_eq, ne_eq, mk.injEq]
  exact not_and_or.symm

/-- A timestamp that is set and has no negative wall is above the zero timestamp. -/
theorem not_le_zero (hset : t.isSet) (hn : t.Nonneg) : ¬ t ≤ {} := by
  intro hle
  have hge : {} ≤ t := by
    have hwall : ({} : Timestamp).wall.toInt = 0 := rfl
    have hlogical : ({} : Timestamp).logical.toNat = 0 := rfl
    unfold Nonneg at hn
    rw [← not_lt, lt_iff]
    omega
  exact isSet_iff.mp hset (le_antisymm hle hge)

end Timestamp

/-! ### Codecs -/

/-- A timestamp in a record's value. -/
def putTS (t : Timestamp) : Bytes := putBE 8 t.wall.toUInt64.toNat ++ putBE 4 t.logical.toNat

def takeTS (b : Bytes) : Option (Timestamp × Bytes) := do
  let (w, b) ← takeBE 8 b
  let (l, b) ← takeBE 4 b
  return ({ wall := (UInt64.ofNat w).toInt64, logical := UInt32.ofNat l }, b)

theorem takeTS_putTS (t : Timestamp) (r : Bytes) : takeTS (putTS t ++ r) = some (t, r) := by
  have hw : t.wall.toUInt64.toNat < 256 ^ 8 := t.wall.toUInt64.toNat_lt
  have hl : t.logical.toNat < 256 ^ 4 := t.logical.toNat_lt
  rw [putTS, List.append_assoc, takeTS, takeBE_putBE hw]
  simp only [Option.bind_eq_bind, Option.bind_some, takeBE_putBE hl]
  rw [UInt64.ofNat_toNat, Int64.toInt64_toUInt64, UInt32.ofNat_toNat]
  rfl

/-- A timestamp in a record's key: complemented, so that newer sorts first. -/
def invertedTS (t : Timestamp) : Bytes :=
  putBE 8 (~~~ t.wall.toUInt64).toNat ++ putBE 4 (~~~ t.logical).toNat

def takeInvertedTS (b : Bytes) : Option (Timestamp × Bytes) := do
  let (w, b) ← takeBE 8 b
  let (l, b) ← takeBE 4 b
  return ({ wall := (~~~ UInt64.ofNat w).toInt64, logical := ~~~ UInt32.ofNat l }, b)

theorem takeInvertedTS_invertedTS (t : Timestamp) (r : Bytes) :
    takeInvertedTS (invertedTS t ++ r) = some (t, r) := by
  have hw : (~~~ t.wall.toUInt64).toNat < 256 ^ 8 := (~~~ t.wall.toUInt64).toNat_lt
  have hl : (~~~ t.logical).toNat < 256 ^ 4 := (~~~ t.logical).toNat_lt
  rw [invertedTS, List.append_assoc, takeInvertedTS, takeBE_putBE hw]
  simp only [Option.bind_eq_bind, Option.bind_some, takeBE_putBE hl]
  rw [UInt64.ofNat_toNat, UInt64.not_not, Int64.toInt64_toUInt64, UInt32.ofNat_toNat,
    UInt32.not_not]
  rfl

/-- Whatever a timestamp was read from is the timestamp followed by the rest. -/
theorem takeInvertedTS_eq_some {b r : Bytes} (h : takeInvertedTS b = some (t, r)) :
    b = invertedTS t ++ r := by
  simp only [takeInvertedTS, Option.bind_eq_bind, Option.bind_eq_some_iff, Prod.exists,
    Option.pure_def, Option.some.injEq, Prod.mk.injEq] at h
  obtain ⟨w, b₁, htake, l, b₂, htake₁, rfl, rfl⟩ := h
  obtain ⟨rfl, hw⟩ := takeBE_eq_some htake
  obtain ⟨rfl, hl⟩ := takeBE_eq_some htake₁
  rw [invertedTS, UInt64.toUInt64_toInt64, UInt64.not_not, UInt32.not_not,
    UInt64.toNat_ofNat_of_lt' hw, UInt32.toNat_ofNat_of_lt' hl, List.append_assoc]

@[simp] theorem length_putTS (t : Timestamp) : (putTS t).length = 12 := by simp [putTS]

@[simp] theorem length_invertedTS (t : Timestamp) : (invertedTS t).length = 12 := by
  simp [invertedTS]

theorem putBE_add (v w n : ℕ) : putBE (v + w) n = putBE v (n / 256 ^ w) ++ putBE w n := by
  induction v with
  | zero => simp [putBE]
  | succ v ih =>
    rw [Nat.succ_add, putBE, ih, putBE, List.cons_append, Nat.div_div_eq_div_mul, ← pow_add,
      Nat.add_comm w v]

theorem invertedTS_eq (t : Timestamp) : invertedTS t = putBE 12 (2 ^ 96 - 1 - t.rank) := by
  have hw := t.wall.toUInt64.toNat_lt
  have hl := t.logical.toNat_lt
  have hnw : (~~~ t.wall.toUInt64).toNat = 2 ^ 64 - 1 - t.wall.toUInt64.toNat := by
    rw [UInt64.toNat_not]; rfl
  have hnl : (~~~ t.logical).toNat = 2 ^ 32 - 1 - t.logical.toNat := by
    rw [UInt32.toNat_not]; rfl
  rw [show (12 : ℕ) = 8 + 4 from rfl, putBE_add, invertedTS, hnw, hnl,
    ← putBE_mod 4 (2 ^ 96 - 1 - t.rank)]
  unfold Timestamp.rank
  congr 2 <;> omega

theorem invertedTS_lt : invertedTS t < invertedTS u ↔ u.rank < t.rank := by
  have ht := t.rank_lt
  have hu := u.rank_lt
  rw [invertedTS_eq, invertedTS_eq, putBE_lt_putBE (by omega) (by omega)]
  omega

theorem invertedTS_injective : Function.Injective invertedTS := by
  intro t u h
  have := takeInvertedTS_invertedTS t []
  rw [h, takeInvertedTS_invertedTS] at this
  simpa using this.symm

end Rift
