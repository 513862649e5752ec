import Rift.Model.Iter

/-!
# The entries of the reference engine

`engine/model/model.go` keeps a version as a sorted slice and edits it by index: a binary search finds
the place of a key, and the slice is spliced there. The edits are those of the ordered map.
-/

namespace Rift.Model

open List

/-- The first index whose key is at or after `key`, and whether it holds `key`. -/
def search (entries : List (Bytes × Bytes)) (key : Bytes) : ℕ × Bool :=
  let i := bisect (fun i => entries[i]?.any (·.1 < key)) entries.length
  (i, entries[i]?.any (·.1 = key))

/-- What `get` finds in a version. -/
def lookup (entries : List (Bytes × Bytes)) (key : Bytes) : Option Bytes :=
  let (i, found) := search entries key
  if found then entries[i]?.map (·.2) else none

def set (entries : List (Bytes × Bytes)) (key value : Bytes) : List (Bytes × Bytes) :=
  let (i, found) := search entries key
  if found then entries.modify i fun e => (e.1, value)
  else entries.take i ++ (key, value) :: entries.drop i

def del (entries : List (Bytes × Bytes)) (key : Bytes) : List (Bytes × Bytes) :=
  let (i, found) := search entries key
  if !found then entries else entries.take i ++ entries.drop (i + 1)

/-- Remove `[start, end)`. The search for a nil start, which is the empty key, finds the first index. -/
def delRange (entries : List (Bytes × Bytes)) (start : Bytes) (fin : Option Bytes) :
    List (Bytes × Bytes) :=
  let lo := (search entries start).1
  let hi := fin.elim entries.length fun h => (search entries h).1
  if hi ≤ lo then entries else entries.take lo ++ entries.drop hi

/-- The edit of one operation. -/
def Op.edit (entries : List (Bytes × Bytes)) : Op → List (Bytes × Bytes)
  | .set k x => Model.set entries k x
  | .delete k => del entries k
  | .deleteRange lo hi => delRange entries lo hi

/-- The edits of a batch, in order. -/
def applyEntries (entries : List (Bytes × Bytes)) (b : Batch) : List (Bytes × Bytes) :=
  b.foldl Op.edit entries

/-! ### The edits are those of the map -/

section

variable (v : Version) (k : Bytes) {e : Bytes × Bytes} {x : Bytes}

/-- The key is found exactly when the map holds it, and then at the place of the search. -/
theorem search_snd : (search v.entries k).2 = true ↔ ∃ x, v.entries[v.search k]? = some (k, x) := by
  change v.entries[v.search k]?.any (·.1 = k) = true ↔ _
  simp only [Option.any_eq_true, decide_eq_true_eq]
  constructor
  · rintro ⟨⟨k', x⟩, hx, rfl⟩
    exact ⟨x, hx⟩
  · rintro ⟨x, hx⟩
    exact ⟨(k, x), hx, rfl⟩

theorem getElem?_search (h : v.get k = some x) : v.entries[v.search k]? = some (k, x) := by
  obtain ⟨j, hj⟩ := mem_iff_getElem?.mp ((v.mem_entries).mpr h)
  have hspec := (v.search_spec k).2
  have hge : v.search k ≤ j := not_lt.mp fun hlt => lt_irrefl _ ((hspec j _ hj).mpr hlt)
  -- nothing stands between the end of the search and the key
  have hle : j ≤ v.search k := by
    by_contra hlt
    have hp := getElem?_eq_getElem
      (show v.search k < v.entries.length from
        (not_le.mp hlt).trans (List.getElem?_eq_some_iff.mp hj).1)
    have hk := key_lt_of_getElem? v.sorted (not_le.mp hlt) hp hj
    exact lt_irrefl _ (((hspec _ _ hp).mp hk))
  rwa [le_antisymm hle hge] at hj

theorem lookup_entries : lookup v.entries k = v.get k := by
  change (if (search v.entries k).2 then v.entries[v.search k]?.map (·.2) else none) = _
  cases hg : v.get k with
  | none =>
    refine if_neg fun h => ?_
    obtain ⟨x, hx⟩ := (search_snd v k).mp h
    exact v.get_eq_none.mp hg x (mem_of_getElem? hx)
  | some x =>
    have hx := getElem?_search v k hg
    rw [if_pos ((search_snd v k).mpr ⟨x, hx⟩), hx]
    rfl

theorem lt_of_mem_take_search (h : e ∈ v.entries.take (v.search k)) : e.1 < k := by
  obtain ⟨j, hj⟩ := mem_iff_getElem?.mp h
  rw [getElem?_take] at hj
  split_ifs at hj with hlt
  exact ((v.search_spec k).2 j e hj).mpr hlt

theorem lt_of_mem_drop_found (hx : v.entries[v.search k]? = some (k, x))
    (h : e ∈ v.entries.drop (v.search k + 1)) : k < e.1 := by
  obtain ⟨j, hj⟩ := mem_iff_getElem?.mp h
  rw [getElem?_drop] at hj
  exact key_lt_of_getElem? v.sorted (show v.search k < v.search k + 1 + j by omega) hx hj

theorem lt_of_mem_drop_not_found (hf : ¬ (search v.entries k).2)
    (h : e ∈ v.entries.drop (v.search k)) : k < e.1 := by
  obtain ⟨j, hj⟩ := mem_iff_getElem?.mp h
  rw [getElem?_drop] at hj
  have hle : k ≤ e.1 := not_lt.mp fun hlt => by
    have := ((v.search_spec k).2 _ e hj).mp hlt
    omega
  refine lt_of_le_of_ne hle ?_
  rintro rfl
  have hget := v.mem_entries.mp (mem_of_getElem? hj)
  exact hf ((search_snd v _).mpr ⟨e.2, getElem?_search v _ hget⟩)

theorem split_found (hx : v.entries[v.search k]? = some (k, x)) :
    v.entries = v.entries.take (v.search k) ++ [(k, x)] ++ v.entries.drop (v.search k + 1) := by
  obtain ⟨hlt, hget⟩ := List.getElem?_eq_some_iff.mp hx
  rw [List.append_assoc, List.singleton_append, ← hget, ← List.drop_eq_getElem_cons hlt,
    List.take_append_drop]

theorem set_entries (x : Bytes) : Model.set v.entries k x = (v.set k x).entries := by
  change (if (search v.entries k).2 then v.entries.modify (v.search k) fun e => (e.1, x)
    else v.entries.take (v.search k) ++ (k, x) :: v.entries.drop (v.search k)) = _
  by_cases hf : (search v.entries k).2
  · obtain ⟨y, hy⟩ := (search_snd v k).mp hf
    obtain ⟨hlt, hget⟩ := List.getElem?_eq_some_iff.mp hy
    rw [if_pos hf, List.modify_eq_take_cons_drop hlt, hget]
    exact (OrderedMap.entries_set_of_split _ (split_found v k hy)
      (fun e => lt_of_mem_take_search v k) (by simp) (fun e => lt_of_mem_drop_found v k hy) x).symm
  · rw [if_neg hf]
    exact (OrderedMap.entries_set_of_split [] (by simp)
      (fun e => lt_of_mem_take_search v k) (by simp)
      (fun e => lt_of_mem_drop_not_found v k hf) x).symm

theorem del_entries : del v.entries k = (v.erase k).entries := by
  change (if !(search v.entries k).2 then v.entries
    else v.entries.take (v.search k) ++ v.entries.drop (v.search k + 1)) = _
  by_cases hf : (search v.entries k).2
  · obtain ⟨y, hy⟩ := (search_snd v k).mp hf
    rw [if_neg (by simp [hf])]
    exact (OrderedMap.entries_erase_of_split _ (split_found v k hy)
      (fun e => lt_of_mem_take_search v k) (by simp)
      (fun e => lt_of_mem_drop_found v k hy)).symm
  · rw [if_pos (by simpa using hf)]
    have herase := OrderedMap.entries_erase_of_split []
      (by rw [append_nil, take_append_drop]) (fun e => lt_of_mem_take_search v k)
      (by simp) (fun e => lt_of_mem_drop_not_found v k hf)
    rw [herase, take_append_drop]

theorem delRange_entries (lo : Bytes) (hi : Option Bytes) :
    delRange v.entries lo hi = (v.eraseIf (inRange lo hi)).entries := by
  change (if hi.elim v.entries.length v.search ≤ v.search lo then v.entries
    else v.entries.take (v.search lo) ++ v.entries.drop (hi.elim v.entries.length v.search)) =
      v.entries.filter fun e => !inRange lo hi e.1
  have hidx : ∀ (j : ℕ) (e : Bytes × Bytes), v.entries[j]? = some e →
      (inRange lo hi e.1 = true ↔ v.search lo ≤ j ∧ j < hi.elim v.entries.length v.search) := by
    intro j e he
    have hlo := (v.search_spec lo).2 j e he
    rw [inRange_iff, ← not_lt, hlo, not_lt]
    refine and_congr_right fun _ => ?_
    cases hi with
    | none => simpa using (List.getElem?_eq_some_iff.mp he).1
    | some h => simpa using (v.search_spec h).2 j e he
  split_ifs with hle
  · refine (filter_eq_self.mpr fun e he => ?_).symm
    obtain ⟨j, hj⟩ := mem_iff_getElem?.mp he
    rw [Bool.not_eq_true', Bool.eq_false_iff]
    exact fun h => by
      have := (hidx j e hj).mp h
      omega
  · exact (filter_not_eq_splice (not_le.mp hle).le hidx).symm

end

theorem edit_entries (v : Version) (op : Op) : op.edit v.entries = (op.apply v).entries := by
  cases op with
  | set k x => exact set_entries v k x
  | delete k => exact del_entries v k
  | deleteRange lo hi => exact delRange_entries v lo hi

/-- The edits of a batch give the entries of the map with the batch applied. -/
theorem applyEntries_eq (v : Version) (b : Batch) :
    applyEntries v.entries b = (applyTo v b).entries := by
  induction b generalizing v with
  | nil => rfl
  | cons op b ih =>
    change applyEntries (op.edit v.entries) b = _
    rw [edit_entries]
    exact ih (op.apply v)

end Rift.Model
