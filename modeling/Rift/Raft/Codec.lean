import Mathlib.Tactic
import Rift.Raft.Types

/-!
# The configuration codec

A configuration is put on the wire as two counts of one byte each and eight bytes a member. What is
read back is the configuration that was written; a configuration with more members than a count can
hold is refused.
-/

namespace Rift

open List

/-- One more byte of a node identifier: the identifier without its last `s` bits. -/
theorem decodeNodeID_byte {n a s : NodeID} (hs : s.toNat + 8 ≤ 64)
    (h : a.toNat = n.toNat / 2 ^ (s.toNat + 8)) :
    (a <<< 8 ||| (n >>> s).toUInt8.toUInt64).toNat = n.toNat / 2 ^ s.toNat := by
  have hn := n.toNat_lt
  have hlt : a.toNat * 256 < 2 ^ 64 := by
    rw [h, Nat.pow_add, ← Nat.div_div_eq_div_mul]
    have := Nat.div_mul_le_self (n.toNat / 2 ^ s.toNat) (2 ^ 8)
    have := Nat.div_le_self n.toNat (2 ^ s.toNat)
    omega
  have hbyte : (n >>> s).toUInt8.toUInt64.toNat = n.toNat / 2 ^ s.toNat % 256 := by
    have : s.toNat % 64 = s.toNat := Nat.mod_eq_of_lt (by omega)
    simp [UInt64.toNat_shiftRight, this, Nat.shiftRight_eq_div_pow]
  have hshift : (a <<< 8).toNat = a.toNat <<< 8 := by
    simp only [UInt64.toNat_shiftLeft]
    rw [Nat.mod_eq_of_lt]
    · rfl
    · rw [Nat.shiftLeft_eq]
      exact hlt
  rw [UInt64.toNat_or, hbyte, hshift, ← Nat.shiftLeft_add_eq_or_of_lt (Nat.mod_lt _ (by decide)),
    Nat.shiftLeft_eq, h, Nat.pow_add, ← Nat.div_div_eq_div_mul]
  exact Nat.div_add_mod' _ _

theorem decodeNodeID_encodeNodeID (n : NodeID) : decodeNodeID (encodeNodeID n) = n := by
  have h₀ : (0 : NodeID).toNat = n.toNat / 2 ^ ((56 : NodeID).toNat + 8) :=
    (Nat.div_eq_of_lt n.toNat_lt).symm
  have h := decodeNodeID_byte (s := 0) (by decide) <| decodeNodeID_byte (s := 8) (by decide) <|
    decodeNodeID_byte (s := 16) (by decide) <| decodeNodeID_byte (s := 24) (by decide) <|
    decodeNodeID_byte (s := 32) (by decide) <| decodeNodeID_byte (s := 40) (by decide) <|
    decodeNodeID_byte (s := 48) (by decide) <| decodeNodeID_byte (s := 56) (by decide) h₀
  unfold decodeNodeID encodeNodeID
  simp only [foldl_cons, foldl_nil]
  apply UInt64.toNat_inj.mp
  simpa using h

theorem length_encodeNodeID (n : NodeID) : (encodeNodeID n).length = 8 := rfl

theorem length_flatMap_encodeNodeID (xs : List NodeID) :
    (xs.flatMap encodeNodeID).length = xs.length * 8 := by
  induction xs with
  | nil => rfl
  | cons x xs ih =>
    rw [flatMap_cons, length_append, ih, length_encodeNodeID, length_cons]
    omega

theorem decodeNodeIDs_flatMap (xs : List NodeID) (rest : Bytes) :
    decodeNodeIDs xs.length (xs.flatMap encodeNodeID ++ rest) = xs := by
  induction xs with
  | nil => rfl
  | cons x xs ih =>
    rw [flatMap_cons, append_assoc, length_cons]
    unfold decodeNodeIDs
    rw [take_left' (length_encodeNodeID x), drop_left' (length_encodeNodeID x),
      decodeNodeID_encodeNodeID, ih]

theorem decode_encodeConfiguration {c c' : Configuration}
    (h : decodeConfiguration (encodeConfiguration c) = some c') : c' = c := by
  have hlen : ((c.voters ++ c.learners).flatMap encodeNodeID).length =
      (c.voters.length + c.learners.length) * 8 := by
    rw [length_flatMap_encodeNodeID, length_append]
  have hbyte : ∀ n, (UInt8.ofNat n).toNat = n % 256 := fun n => UInt8.toNat_ofNat'
  unfold encodeConfiguration decodeConfiguration at h
  simp only at h
  split_ifs at h with hne
  rw [not_not, hlen, hbyte, hbyte] at hne
  -- The counts did not overflow, or the length would not add up.
  have hv : c.voters.length % 256 = c.voters.length := by
    have := Nat.mod_le c.voters.length 256
    have := Nat.mod_le c.learners.length 256
    omega
  have hl : c.learners.length % 256 = c.learners.length := by
    have := Nat.mod_le c.learners.length 256
    omega
  have hdrop : ((c.voters ++ c.learners).flatMap encodeNodeID).drop (c.voters.length * 8) =
      c.learners.flatMap encodeNodeID ++ [] := by
    rw [flatMap_append, drop_left' (length_flatMap_encodeNodeID _), append_nil]
  rw [hbyte, hbyte, hv, hl, hdrop, decodeNodeIDs_flatMap, flatMap_append,
    decodeNodeIDs_flatMap] at h
  exact (Option.some.inj h).symm

end Rift
