import Mathlib.Data.List.Destutter
import Rift.Kv.View

/-!
# The keys a store lists

`Keys` lists the user keys a store holds data versions of, each once, in the order of the engine. The
layout puts the length of a user key before its bytes, so that order is not the order of the bytes:
a shorter key is listed first, whatever it begins with.
-/

namespace Rift

open List

variable {α : Type*} {l : List α}

/-- Between lists of one length, what follows does not matter to a strict comparison. -/
theorem append_lt_append_of_lt [LinearOrder α] {a b : List α} (h : a < b)
    (hlen : a.length = b.length) (r s : List α) : a ++ r < b ++ s := by
  induction a generalizing b with
  | nil =>
    obtain rfl : b = [] := length_eq_zero_iff.mp hlen.symm
    exact absurd h (lt_irrefl _)
  | cons x a ih =>
    cases b with
    | nil => cases hlen
    | cons y b =>
      rw [cons_append, cons_append, cons_lt_cons_iff]
      rcases cons_lt_cons_iff.mp h with hxy | ⟨hxy, hab⟩
      · exact .inl hxy
      · exact .inr ⟨hxy, ih hab (by simpa using hlen)⟩

theorem mem_destutter_ne [DecidableEq α] {a : α} : a ∈ l.destutter (· ≠ ·) ↔ a ∈ l := by
  refine ⟨fun h => (destutter_sublist _ _).subset h, fun h => ?_⟩
  have hfrom : ∀ (l : List α) (b : α), a ∈ b :: l → a ∈ l.destutter' (· ≠ ·) b := by
    intro l
    induction l with
    | nil => exact fun b h => h
    | cons c l ih =>
      intro b h
      by_cases hbc : b ≠ c
      · rw [destutter'_cons_pos _ hbc]
        rcases mem_cons.mp h with rfl | h
        · exact mem_cons_self
        · exact mem_cons_of_mem _ (ih c h)
      · obtain rfl := not_not.mp hbc
        rw [destutter'_cons_neg _ hbc]
        rcases mem_cons.mp h with rfl | h
        · exact ih a mem_cons_self
        · exact ih b h
  cases l with
  | nil => cases h
  | cons b l => exact hfrom l b h

theorem pairwise_lt_of_isChain_ne {κ : Type*} [LinearOrder κ] {key : α → κ}
    (hkey : Function.Injective key) (hl : l.Pairwise fun a b => key a ≤ key b)
    (hne : l.IsChain (· ≠ ·)) : l.Pairwise fun a b => key a < key b := by
  have : IsTrans α fun a b => key a < key b := ⟨fun _ _ _ => lt_trans⟩
  rw [← isChain_iff_pairwise]
  refine isChain_iff_getElem.mpr fun i hi => ?_
  have hle := pairwise_iff_getElem.mp hl i (i + 1) (by omega) hi (by omega)
  exact lt_of_le_of_ne hle (hkey.ne (isChain_iff_getElem.mp hne i hi))

namespace Kv

open Model

/-- The place of a key in the order of the engine: by length, and then by bytes. -/
def listed (key : Key) : ℕ ×ₗ Bytes := toLex (key.1.length, key.1)

theorem listed_injective : Function.Injective listed := fun _ _ h =>
  Subtype.ext (congrArg Prod.snd (toLex.injective h))

theorem putBytes_append_lt {a b : Key} (h : listed a < listed b) (r s : Bytes) :
    putBytes a.1 ++ r < putBytes b.1 ++ s := by
  rw [putBytes, putBytes, append_assoc, append_assoc]
  rcases Prod.Lex.toLex_lt_toLex.mp h with hlen | ⟨hlen, hlt⟩
  · have hBE : putBE 4 a.1.length < putBE 4 b.1.length := (putBE_lt_putBE a.2 b.2).mpr hlen
    exact append_lt_append_of_lt hBE (by simp) _ _
  · have hlen : a.1.length = b.1.length := hlen
    rw [hlen, append_lt_append_iff]
    exact append_lt_append_of_lt hlt hlen _ _

namespace Store

variable {s : Store} {key : Key}

/-- The store has a data version of the key. -/
def Holds (s : Store) (key : Key) : Prop := ∃ ts x, s.db.get (encodeKey s.ns key ts) = some x

theorem mem_keys : key ∈ s.keys ↔ s.Holds key := by
  rw [keys, mem_destutter_ne, mem_filterMap]
  constructor
  · rintro ⟨⟨k, x⟩, hmem, hkey⟩
    obtain ⟨⟨key, ts⟩, hdec, rfl⟩ := Option.map_eq_some_iff.mp hkey
    refine ⟨ts, x, ?_⟩
    rw [← eq_encodeKey_of_decodeKey hdec]
    exact (mem_scan.mp hmem).1
  · rintro ⟨ts, x, hget⟩
    have hdec : decodeKey s.ns (encodeKey s.ns key ts) = some (key, ts) := decodeStamped_metaKey ..
    refine ⟨(encodeKey s.ns key ts, x), mem_scan.mpr ⟨hget, ?_⟩, by rw [hdec]; rfl⟩
    rw [dataSpan, encodeKey, metaKey, append_assoc, prefix_append_right_inj]
    exact ⟨_, rfl⟩

theorem keys_listed (s : Store) : s.keys.Pairwise fun a b => listed a < listed b := by
  refine pairwise_lt_of_isChain_ne listed_injective ?_ (isChain_destutter _ _)
  refine List.Pairwise.sublist (destutter_sublist _ _) ?_
  have hsorted : (scan s.db (dataSpan s.ns) (prefixEnd (dataSpan s.ns))).Pairwise
      fun a b => a.1 < b.1 := s.db.sorted.sublist filter_sublist
  refine List.Pairwise.filterMap _ ?_ hsorted
  intro e e' hlt key hkey key' hkey'
  obtain ⟨⟨key, ts⟩, hdec, rfl⟩ := Option.map_eq_some_iff.mp hkey
  obtain ⟨⟨key', ts'⟩, hdec', rfl⟩ := Option.map_eq_some_iff.mp hkey'
  obtain ⟨r, hr⟩ := eq_of_decodeKey hdec
  obtain ⟨r', hr'⟩ := eq_of_decodeKey hdec'
  -- were the second key listed first, its record would come first
  by_contra hnot
  have hswap := putBytes_append_lt (not_le.mp hnot) r' r
  refine lt_asymm hlt ?_
  rw [hr, hr', metaKey, metaKey, append_assoc, append_assoc, append_lt_append_iff,
    cons_append, cons_append, cons_lt_cons_iff]
  exact .inr ⟨rfl, hswap⟩

theorem keys_ne_nil {i : ℕ} (hi : 0 < i) (h : s.keys[i]? = some key) : key.1 ≠ [] := by
  obtain ⟨hlt, rfl⟩ := List.getElem?_eq_some_iff.mp h
  intro hnil
  have hfirst := List.pairwise_iff_getElem.mp s.keys_listed 0 i (by omega) hlt hi
  rcases Prod.Lex.toLex_lt_toLex.mp hfirst with hlen | ⟨-, hlt⟩
  · simp [hnil] at hlen
  · rw [hnil] at hlt
    exact not_lt_nil _ hlt

end Store

end Kv

end Rift
