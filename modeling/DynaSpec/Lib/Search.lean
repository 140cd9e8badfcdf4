/-
  DynaSpec.Lib.Search — the places at which a word occurs in a text.

  `find` gives the leftmost one (`find_eq_some`). An occurrence in a text that was cut in two
  ends in the first part, or its start is a proper start of the word that ends the first part
  (`Occurs.append_cases`).
-/

import Mathlib.Data.List.Infix

namespace DynaSpec.Lib

open List Nat Option

variable {α : Type}

/-- The word `p` occurs in `w` at position `i`. -/
def Occurs (w p : List α) (i : Nat) : Prop := p <+: w.drop i

namespace Occurs

variable {w x p : List α} {i : Nat}

theorem add_le (h : Occurs w p i) (hp : p ≠ []) : i + p.length ≤ w.length := by
  have hle := h.length_le
  have hpos := length_pos_iff.mpr hp
  rw [length_drop] at hle
  omega

theorem append (h : Occurs w p i) (hp : p ≠ []) (x : List α) : Occurs (w ++ x) p i := by
  have := h.add_le hp
  unfold Occurs
  rw [drop_append_of_le_length (by omega)]
  exact h.trans (prefix_append _ _)

theorem append_left_iff (u : List α) : Occurs (u ++ w) p (u.length + i) ↔ Occurs w p i := by
  unfold Occurs
  rw [drop_append, drop_eq_nil_of_le (Nat.le_add_right _ _), nil_append, Nat.add_sub_cancel_left]

theorem of_append (h : Occurs (w ++ x) p i) (hle : i + p.length ≤ w.length) : Occurs w p i := by
  unfold Occurs at *
  rw [drop_append_of_le_length (by omega)] at h
  exact prefix_of_prefix_length_le h (prefix_append _ _) (by rw [length_drop]; omega)

/-- An occurrence in two parts ends in the first, or starts in it with a proper start of the
    word, or lies in the second. -/
theorem append_cases (h : Occurs (w ++ x) p i) :
    i + p.length ≤ w.length ∨ (i < w.length ∧ w.drop i <+: p ∧ (w.drop i).length < p.length) ∨ w.length ≤ i := by
  rcases lt_or_ge i w.length with hlt | hge
  · rcases lt_or_ge w.length (i + p.length) with hlong | hshort
    · refine .inr (.inl ⟨hlt, ?_, by rw [length_drop]; omega⟩)
      unfold Occurs at h
      rw [drop_append_of_le_length (by omega)] at h
      exact prefix_of_prefix_length_le (prefix_append _ _) h (by rw [length_drop]; omega)
    · exact .inl hshort
  · exact .inr (.inr hge)

theorem take (h : Occurs w p i) {k : Nat} (hk : i + p.length ≤ k) : Occurs (w.take k) p i := by
  unfold Occurs
  rw [drop_take]
  exact prefix_take_iff.mpr ⟨h, by omega⟩

theorem of_take {k : Nat} (h : Occurs (w.take k) p i) : Occurs w p i := by
  unfold Occurs at *
  rw [drop_take] at h
  exact h.trans ( take_prefix _ _)

end Occurs

theorem infix_iff_occurs {w p : List α} : p <:+: w ↔ ∃ i, Occurs w p i := by
  constructor
  · intro h
    obtain ⟨u, v, rfl⟩ := h
    refine ⟨u.length, ?_⟩
    unfold Occurs
    rw [append_assoc, drop_left]
    exact prefix_append _ _
  · intro h
    obtain ⟨i, hi⟩ := h
    exact hi.isInfix.trans (drop_suffix i w).isInfix

/-- Neither word contains the other, and no end of one starts the other. -/
def Apart (k k' : List α) : Prop :=
  ¬ k <:+: k' ∧ ¬ k' <:+: k ∧ ∀ u, u ≠ [] → ¬ (u <:+ k ∧ u <+: k') ∧ ¬ (u <:+ k' ∧ u <+: k)

/-- An occurrence of one does not begin inside an occurrence of the other. -/
theorem Apart.le_of_le {w k k' : List α} (h : Apart k k') {i j : Nat} (hi : Occurs w k i) (hj : Occurs w k' j) (hij : i ≤ j) :
    i + k.length ≤ j := by
  by_contra hlt
  -- both words start with what lies between `j` and the end of the first
  have hk : k = (w.drop i).take k.length := prefix_iff_eq_take.mp hi
  have hkd : k.drop (j - i) <+: w.drop j := by
    rw [hk, drop_take, drop_drop, Nat.add_sub_cancel' hij]
    exact take_prefix _ _
  have hlen : (k.drop (j - i)).length = i + k.length - j := by
    rw [length_drop]
    omega
  have hne : k.drop (j - i) ≠ [] := ne_nil_of_length_pos (by omega)
  rcases le_total (k.drop (j - i)).length k'.length with hle | hle
  · exact (h.2.2 _ hne).1 ⟨drop_suffix _ _, prefix_of_prefix_length_le hkd hj hle⟩
  · have hin : k' <+: k.drop (j - i) := prefix_of_prefix_length_le hj hkd hle
    exact h.2.1 (hin.isInfix.trans (drop_suffix _ _).isInfix)

variable [DecidableEq α]

/-- The position of the leftmost occurrence. -/
def find (p : List α) : List α → Option Nat
  | [] => if p = [] then some 0 else none
  | a :: w => if p.isPrefixOf (a :: w) then some 0 else (find p w).map (· + 1)

theorem find_spec (p w : List α) : (∃ i, find p w = some i ∧ Occurs w p i ∧ ∀ j < i, ¬ Occurs w p j) ∨
    (find p w = none ∧ ∀ j, ¬ Occurs w p j) := by
  induction w with
  | nil =>
    by_cases hp : p = []
    · exact .inl ⟨0, by simp [find, hp], by simp [Occurs, hp], fun j hj => absurd hj (not_lt_zero j)⟩
    · exact .inr ⟨by simp [find, hp], fun j => by simp [Occurs, hp]⟩
  | cons a w ih =>
    by_cases hpre : p <+: a :: w
    · refine .inl ⟨0, ?_, hpre, fun j hj => absurd hj (not_lt_zero j)⟩
      rw [find, if_pos ( isPrefixOf_iff_prefix.mpr hpre)]
    have hrun : find p (a :: w) = (find p w).map (· + 1) := by
      rw [find, if_neg (fun h => hpre ( isPrefixOf_iff_prefix.mp h))]
    rcases ih with ⟨i, hi, hocc, hleft⟩ | ⟨hnone, hno⟩
    · refine .inl ⟨i + 1, by rw [hrun, hi, map_some], hocc, fun j hj => ?_⟩
      cases j with
      | zero => exact hpre
      | succ j => exact hleft j (lt_of_succ_lt_succ hj)
    refine .inr ⟨by rw [hrun, hnone, map_none], fun j => ?_⟩
    cases j with
    | zero => exact hpre
    | succ j => exact hno j

theorem find_eq_some {p w : List α} {i : Nat} : find p w = some i ↔ Occurs w p i ∧ ∀ j < i, ¬ Occurs w p j := by
  rcases find_spec p w with ⟨k, hk, hocc, hleft⟩ | ⟨hnone, hno⟩
  · rw [hk, Option.some.injEq]
    constructor
    · intro he
      exact he ▸ ⟨hocc, hleft⟩
    · intro h
      rcases lt_trichotomy k i with hlt | heq | hgt
      · exact absurd hocc (h.2 k hlt)
      · exact heq
      · exact absurd h.1 (hleft i hgt)
  · rw [hnone]
    exact ⟨nofun, fun h => absurd h.1 (hno i)⟩

theorem find_eq_none {p w : List α} : find p w = none ↔ ∀ j, ¬ Occurs w p j := by
  rcases find_spec p w with ⟨k, hk, hocc, -⟩ | ⟨hnone, hno⟩
  · rw [hk]
    exact ⟨nofun, fun h => absurd hocc (h k)⟩
  · exact ⟨fun _ => hno, fun _ => hnone⟩

theorem find_isSome {p w : List α} : (find p w).isSome ↔ p <:+: w := by
  rw [infix_iff_occurs, isSome_iff_ne_none, ne_eq, find_eq_none]
  simp

/-- What is found in a text is found at the same place in every text that starts with it. -/
theorem find_append_of_some {w p : List α} {i : Nat} (h : find p w = some i) (x : List α) : find p (w ++ x) = some i := by
  by_cases hp : p = []
  · rw [hp] at h ⊢
    have hzero : ∀ v : List α, find ([] : List α) v = some 0 :=
      fun v => find_eq_some.mpr ⟨ nil_prefix, fun j hj => absurd hj (not_lt_zero j)⟩
    rw [hzero] at h ⊢
    exact h
  · obtain ⟨hocc, hleft⟩ := find_eq_some.mp h
    have hle := hocc.add_le hp
    exact find_eq_some.mpr ⟨hocc.append hp x, fun j hj hjocc => hleft j hj (hjocc.of_append (by omega))⟩

theorem find_add_le {w p : List α} {i : Nat} (h : find p w = some i) : i + p.length ≤ w.length := by
  obtain ⟨hocc, hleft⟩ := find_eq_some.mp h
  by_cases hp : p = []
  · subst hp
    have hi : i = 0 := Nat.eq_zero_of_not_pos fun hpos => hleft 0 hpos nil_prefix
    rw [hi]
    exact zero_le _
  · exact hocc.add_le hp

/-- A word whose occurrences all lie in the second part is found there. -/
theorem find_append {u w p : List α} (h : ∀ i, Occurs (u ++ w) p i → u.length ≤ i) :
    find p (u ++ w) = (find p w).map (u.length + ·) := by
  rcases find_spec p w with ⟨i, hi, hocc, hleft⟩ | ⟨hnone, hno⟩
  · rw [hi, map_some, find_eq_some]
    refine ⟨(Occurs.append_left_iff u).mpr hocc, fun j hj hjocc => ?_⟩
    obtain ⟨k, rfl⟩ := Nat.exists_eq_add_of_le (h j hjocc)
    exact hleft k (by omega) ((Occurs.append_left_iff u).mp hjocc)
  rw [hnone, map_none, find_eq_none]
  intro j hjocc
  obtain ⟨k, rfl⟩ := Nat.exists_eq_add_of_le (h j hjocc)
  exact hno k ((Occurs.append_left_iff u).mp hjocc)

end DynaSpec.Lib
