import Rift.Lib.Sorted

/-!
# Cursors

A cursor stands on an element or on nothing, and is moved by five calls. Whatever a cursor is made of,
it is as good as a place in a sorted list if every call leaves it on the first or the last element that
the call asks for.

## Main definitions

* `Cursor`, `Cursor.calls` — a cursor and the calls on it
* `listCursor` — the cursor over a sorted list
* `Cursor.Follows` — where the calls leave a cursor

## Main results

* `follows_listCursor` — the cursor over a list follows the list
* `Cursor.Follows.calls_eq` — a cursor that follows a list cannot be told from the cursor over it
-/

namespace Rift

/-- A cursor by what it stands on and how it moves. A move that fails an assertion is `none`. -/
structure Cursor (κ α σ : Type*) where
  entry : σ → Option α
  seek : κ → σ → Option σ
  seekToFirst : σ → Option σ
  seekToLast : σ → Option σ
  next : σ → Option σ
  prev : σ → Option σ

inductive CursorCall (κ : Type*)
  | seek (target : κ)
  | seekToFirst
  | seekToLast
  | next
  | prev
  deriving DecidableEq, Repr

variable {κ α σ : Type*}

namespace Cursor

variable (c : Cursor κ α σ)

/-- One call. A step is made only from an element. -/
def call (s : σ) : CursorCall κ → Option σ
  | .seek target => c.seek target s
  | .seekToFirst => c.seekToFirst s
  | .seekToLast => c.seekToLast s
  | .next => if (c.entry s).isSome then c.next s else none
  | .prev => if (c.entry s).isSome then c.prev s else none

/-- One call after the other. -/
def calls (s : σ) (cs : List (CursorCall κ)) : Option σ := cs.foldlM c.call s

theorem calls_cons (s : σ) (a : CursorCall κ) (cs : List (CursorCall κ)) :
    c.calls s (a :: cs) = (c.call s a).bind fun s' => c.calls s' cs :=
  List.foldlM_cons

end Cursor

variable [LinearOrder κ]

/-- The cursor over a list: a place in it. -/
def listCursor (key : α → κ) (l : List α) : Cursor κ α ℕ where
  entry i := l[i]?
  seek target _ := some (l.findIdx fun e => !(key e < target))
  seekToFirst _ := some 0
  seekToLast _ := some (l.length - 1)
  next i := some (i + 1)
  prev i := some (if i = 0 then l.length else i - 1)

/-- From states with `P` on, every call leaves a cursor where it would be left in the list. -/
structure Cursor.Follows (c : Cursor κ α σ) (key : α → κ) (l : List α) (P : σ → Prop) : Prop where
  seek : ∀ {s}, P s → ∀ target, ∃ s', c.seek target s = some s' ∧ P s' ∧
    IsFirst key (fun x => x ∈ l ∧ target ≤ key x) (c.entry s')
  seekToFirst : ∀ {s}, P s → ∃ s', c.seekToFirst s = some s' ∧ P s' ∧
    IsFirst key (· ∈ l) (c.entry s')
  seekToLast : ∀ {s}, P s → ∃ s', c.seekToLast s = some s' ∧ P s' ∧ IsLast key (· ∈ l) (c.entry s')
  next : ∀ {s}, P s → ∀ {e}, c.entry s = some e → ∃ s', c.next s = some s' ∧ P s' ∧
    IsFirst key (fun x => x ∈ l ∧ key e < key x) (c.entry s')
  prev : ∀ {s}, P s → ∀ {e}, c.entry s = some e → ∃ s', c.prev s = some s' ∧ P s' ∧
    IsLast key (fun x => x ∈ l ∧ key x < key e) (c.entry s')

variable {key : α → κ} {l : List α}

/-! ### Where the moves in a list end -/

section

variable (hs : l.Pairwise (key · < key ·))
include hs

theorem isFirst_findIdx (target : κ) :
    IsFirst key (fun x => x ∈ l ∧ target ≤ key x) l[l.findIdx fun e => !(key e < target)]? := by
  refine isFirst_getElem hs fun j x hj => ?_
  rw [← not_lt]
  have := le_findIdx_iff (p := fun e => key e < target) (fun a b hab hb => by
    simp only [decide_eq_true_eq] at hb ⊢
    exact hab.trans_lt hb) hs hj
  simpa using this

theorem isFirst_zero : IsFirst key (· ∈ l) l[0]? :=
  (isFirst_getElem hs (P := fun _ => True) fun j _ _ => by simp).congr fun _ => and_iff_left trivial

theorem isLast_length : IsLast key (· ∈ l) l[l.length - 1]? := by
  rcases l.eq_nil_or_concat with rfl | ⟨l', e, rfl⟩
  · simp [isLast_none]
  · refine (isLast_getElem hs (P := fun _ => True) (by simp) fun j x hj => ?_).congr
      fun _ => and_iff_left trivial
    have := (List.getElem?_eq_some_iff.mp hj).1
    simpa using Nat.le_sub_one_of_lt this

variable {i : ℕ} {e : α} (he : l[i]? = some e)
include he

theorem isFirst_succ : IsFirst key (fun x => x ∈ l ∧ key e < key x) l[i + 1]? :=
  isFirst_getElem hs fun _ _ hj => lt_iff_of_getElem? hs he hj

theorem isLast_pred :
    IsLast key (fun x => x ∈ l ∧ key x < key e) l[if i = 0 then l.length else i - 1]? := by
  have hlen := (List.getElem?_eq_some_iff.mp he).1
  split_ifs with h0
  · -- nothing stands before the first element
    rw [List.getElem?_eq_none le_rfl, isLast_none]
    rintro x ⟨hx, hlt⟩
    obtain ⟨j, hj⟩ := List.mem_iff_getElem?.mp hx
    have := (lt_iff_of_getElem? hs hj he).mp hlt
    omega
  · refine isLast_getElem hs (by omega) fun j x hj => ?_
    rw [lt_iff_of_getElem? hs hj he]
    omega

end

theorem follows_listCursor (hs : l.Pairwise (key · < key ·)) :
    (listCursor key l).Follows key l fun _ => True where
  seek _ target := ⟨_, rfl, trivial, isFirst_findIdx hs target⟩
  seekToFirst _ := ⟨_, rfl, trivial, isFirst_zero hs⟩
  seekToLast _ := ⟨_, rfl, trivial, isLast_length hs⟩
  next _ _ he := ⟨_, rfl, trivial, isFirst_succ hs he⟩
  prev _ _ he := ⟨_, rfl, trivial, isLast_pred hs he⟩

namespace Cursor

variable {τ : Type*} {c : Cursor κ α σ} {d : Cursor κ α τ} {P : σ → Prop} {Q : τ → Prop}

/-- Of two cursors that follow a sorted list, one call leaves both on the same element. -/
theorem Follows.call_eq (hs : l.Pairwise (key · < key ·)) (hc : c.Follows key l P)
    (hd : d.Follows key l Q) {s : σ} {t : τ} (hP : P s) (hQ : Q t) (h : c.entry s = d.entry t)
    (a : CursorCall κ) : (c.call s a = none ∧ d.call t a = none) ∨
      ∃ s' t', c.call s a = some s' ∧ d.call t a = some t' ∧ P s' ∧ Q t' ∧
        c.entry s' = d.entry t' := by
  have hinj : ∀ x y, x ∈ l → y ∈ l → key x = key y → x = y := fun x y hx hy => by
    have hnodup : (l.map key).Nodup := List.pairwise_map.mpr (hs.imp ne_of_lt)
    exact List.inj_on_of_nodup_map hnodup hx hy
  cases a with
  | seek target =>
    obtain ⟨s', hs', hP', hfirst⟩ := hc.seek hP target
    obtain ⟨t', ht', hQ', hfirst'⟩ := hd.seek hQ target
    exact .inr ⟨s', t', hs', ht', hP', hQ',
      hfirst.unique (fun x y hx hy => hinj x y hx.1 hy.1) hfirst'⟩
  | seekToFirst =>
    obtain ⟨s', hs', hP', hfirst⟩ := hc.seekToFirst hP
    obtain ⟨t', ht', hQ', hfirst'⟩ := hd.seekToFirst hQ
    exact .inr ⟨s', t', hs', ht', hP', hQ', hfirst.unique hinj hfirst'⟩
  | seekToLast =>
    obtain ⟨s', hs', hP', hlast⟩ := hc.seekToLast hP
    obtain ⟨t', ht', hQ', hlast'⟩ := hd.seekToLast hQ
    exact .inr ⟨s', t', hs', ht', hP', hQ', IsLast.unique hinj hlast hlast'⟩
  | next =>
    unfold Cursor.call
    dsimp only
    cases he : c.entry s with
    | none => exact .inl ⟨by simp, by simp [← h, he]⟩
    | some e =>
      obtain ⟨s', hs', hP', hfirst⟩ := hc.next hP he
      obtain ⟨t', ht', hQ', hfirst'⟩ := hd.next hQ (h ▸ he)
      exact .inr ⟨s', t', by simp [hs'], by simp [← h, he, ht'], hP', hQ',
        hfirst.unique (fun x y hx hy => hinj x y hx.1 hy.1) hfirst'⟩
  | prev =>
    unfold Cursor.call
    dsimp only
    cases he : c.entry s with
    | none => exact .inl ⟨by simp, by simp [← h, he]⟩
    | some e =>
      obtain ⟨s', hs', hP', hlast⟩ := hc.prev hP he
      obtain ⟨t', ht', hQ', hlast'⟩ := hd.prev hQ (h ▸ he)
      exact .inr ⟨s', t', by simp [hs'], by simp [← h, he, ht'], hP', hQ',
        IsLast.unique (fun x y hx hy => hinj x y hx.1 hy.1) hlast hlast'⟩

/-- A cursor that follows a sorted list stands where the cursor over the list stands, after any
calls. -/
theorem Follows.calls_eq (hs : l.Pairwise (key · < key ·)) (hc : c.Follows key l P) {s : σ} {i : ℕ}
    (hP : P s) (h : c.entry s = l[i]?) (cs : List (CursorCall κ)) :
    (c.calls s cs).map c.entry =
      ((listCursor key l).calls i cs).map (listCursor key l).entry := by
  induction cs generalizing s i with
  | nil => exact congrArg some h
  | cons a cs ih =>
    rw [calls_cons, calls_cons]
    rcases hc.call_eq hs (follows_listCursor hs) hP trivial h a with
      ⟨hs', ht'⟩ | ⟨s', t', hs', ht', hP', -, h'⟩
    · rw [hs', ht']
      rfl
    · rw [hs', ht', Option.bind_some, Option.bind_some]
      exact ih hP' h'

end Cursor

end Rift
