/-
  DynaSpec.Lib.Gather — a tensor's rows taken by a list of indices.

  `gather l idx` is `l[idx]`: the rows in the order of the indices, `none` when one of
  them is out of range. `indicesWhere p l` are the indices of the rows that satisfy `p`;
  gathering them filters the list (`gather_indicesWhere`), and a list computed row by
  row from another is gathered as that one is (`gather_map`). `gather_lasts` picks the last
  row of each block of a tensor that holds blocks one after the other.
-/

import DynaSpec.Lib.Grid
import Mathlib.Data.List.Perm.Subperm

namespace DynaSpec.Lib

open List Nat
open List.Forall₂ (cons nil)
open Option (bind_eq_some_iff)

variable {α β : Type} {idx : List Nat}

def gather (l : List α) : List Nat → Option (List α)
  | [] => some []
  | i :: idx => do
    let a ← l[i]?
    let rest ← gather l idx
    some (a :: rest)

/-- The rows by indices that are known to be in range, so that the default stands for no row. -/
abbrev gatherD (d : α) (l : List α) (idx : List Nat) : List α := idx.map fun i => l.getD i d

def indicesWhere (p : α → Bool) (l : List α) : List Nat := (List.range l.length).filter fun i => (l[i]?).any p

theorem gather_map (f : α → β) (l : List α) (idx : List Nat) : gather (l.map f) idx = (gather l idx).map (map f) := by
  induction idx with
  | nil => rfl
  | cons i idx ih =>
    simp only [gather, ih, getElem?_map]
    cases l[i]? with
    | none => rfl
    | some a => cases gather l idx <;> rfl

variable {l : List α} {m : List β}

theorem gather_iff {l' : List α} : gather l idx = some l' ↔ List.Forall₂ (fun i a => l[i]? = some a) idx l' := by
  induction idx generalizing l' with
  | nil => simp [gather, eq_comm]
  | cons i idx ih => simp [gather, bind_eq_some_iff, ih, forall₂_cons_left_iff, @eq_comm _ _ l']

theorem gather_length {l' : List α} (h : gather l idx = some l') : l'.length = idx.length := (gather_iff.mp h).length_eq.symm

/-- What relates two lists row by row relates the rows taken from them. -/
theorem gather_forall₂ {R : α → β → Prop} (h : List.Forall₂ R l m) {l' : List α} (hl : gather l idx = some l') :
    ∃ m', gather m idx = some m' ∧ List.Forall₂ R l' m' := by
  induction gather_iff.mp hl with
  | nil => exact ⟨[], rfl, nil⟩
  | @cons i _ _ _ ha hrest ih =>
    obtain ⟨m', hm', hR⟩ := ih (gather_iff.mpr hrest)
    obtain ⟨hlt, rfl⟩ := List.getElem?_eq_some_iff.mp ha
    have hlt' : i < m.length := h.length_eq ▸ hlt
    refine ⟨m[i] :: m', ?_, cons ((forall₂_iff_get.mp h).2 i hlt hlt') hR⟩
    simp [gather, getElem?_eq_getElem hlt', hm']

theorem gather_mem {l' : List α} (h : gather l idx = some l') {a : α} (ha : a ∈ l') : a ∈ l := by
  induction gather_iff.mp h with
  | nil => cases ha
  | cons hb hrest ih =>
    rcases mem_cons.mp ha with rfl | ha
    · exact mem_of_getElem? hb
    · exact ih (gather_iff.mpr hrest) ha

theorem gather_of_getElem? {f : Nat → α} (h : ∀ i ∈ idx, l[i]? = some (f i)) : gather l idx = some (idx.map f) :=
  gather_iff.mpr (forall₂_map_right_iff.mpr (forall₂_same.mpr h))

theorem gather_cons_map_succ (a : α) (l : List α) (idx : List Nat) : gather (a :: l) (idx.map succ) = gather l idx := by
  induction idx with
  | nil => rfl
  | cons i idx ih => simp [gather, getElem?_cons_succ, ih]

theorem indicesWhere_cons (p : α → Bool) (a : α) (l : List α) :
    indicesWhere p (a :: l) = (if p a then [0] else []) ++ (indicesWhere p l).map succ := by
  have hcomp : ((fun i => ((a :: l)[i]?).any p) ∘ succ) = fun i => (l[i]?).any p := by
    funext i
    simp
  simp only [indicesWhere, length_cons, range_succ_eq_map, filter_cons, getElem?_cons_zero, Option.any_some, filter_map, hcomp]
  cases p a <;> rfl

theorem length_indicesWhere (p : α → Bool) (l : List α) : (indicesWhere p l).length = l.countP p := by
  induction l with
  | nil => rfl
  | cons a l ih =>
    rw [indicesWhere_cons, length_append, length_map, ih, countP_cons, add_comm]
    split <;> rfl

theorem mem_indicesWhere {p : α → Bool} {i : Nat} : i ∈ indicesWhere p l ↔ ∃ a, l[i]? = some a ∧ p a := by
  rw [indicesWhere, mem_filter, mem_range, Option.any_eq_true]
  refine and_iff_right_of_imp fun h => ?_
  obtain ⟨a, ha, -⟩ := h
  exact (List.getElem?_eq_some_iff.mp ha).1

theorem gather_indicesWhere (p : α → Bool) (l : List α) : gather l (indicesWhere p l) = some (l.filter p) := by
  induction l with
  | nil => rfl
  | cons a l ih =>
    rw [indicesWhere_cons]
    cases ha : p a <;> simp [gather, gather_cons_map_succ, ih, ha]

theorem gather_range (l : List α) : ∀ k ≤ l.length, gather l (range k) = some (l.take k) := by
  induction l with
  | nil =>
    intro k hk
    obtain rfl : k = 0 := by simpa using hk
    rfl
  | cons a l ih =>
    intro k hk
    cases k with
    | zero => rfl
    | succ k => simp [range_succ_eq_map, gather, gather_cons_map_succ, ih k (by simpa using hk)]

theorem gather_eq_gatherD (d : α) (l : List α) (h : ∀ i ∈ idx, i < l.length) : gather l idx = some (gatherD d l idx) :=
  gather_of_getElem? fun i hi => by rw [getElem?_eq_getElem (h i hi), getD_eq_getElem _ _ (h i hi)]

theorem gatherD_range (d : α) (l : List α) : gatherD d l (range l.length) = l := by
  apply ext_getElem
  · simp
  · intro i h1 h2
    rw [getElem_map, getElem_range, getD_eq_getElem _ _ h2]

theorem gather_append_right (l m : List α) (idx : List Nat) : gather (l ++ m) (idx.map (l.length + ·)) = gather m idx := by
  induction idx with
  | nil => rfl
  | cons i idx ih => simp [gather, getElem?_append_right (le_add_right _ _), ih]

theorem gather_lasts (ls : List (List α)) : (∀ l ∈ ls, l ≠ []) → ∃ v, gather ls.flatten ((range ls.length).map fun i =>
        offset (fun j => (ls.map length).getD j 0) i + (ls.map length).getD i 0 - 1) = some v ∧
      v.map some = ls.map getLast? := by
  induction ls with
  | nil => intro _; exact ⟨[], rfl, rfl⟩
  | cons l ls ih =>
    intro hne
    obtain ⟨v, hv, hvl⟩ := ih fun m hm => hne m (mem_cons_of_mem l hm)
    have hl : 0 < l.length := length_pos_iff.mpr (hne l mem_cons_self)
    -- the blocks after the first start one block later
    have hshift : (range ls.length).map ((fun i => offset (fun j => ((l :: ls).map length).getD j 0) i +
        ((l :: ls).map length).getD i 0 - 1) ∘ succ) = ((range ls.length).map fun i =>
        offset (fun j => (ls.map length).getD j 0) i + (ls.map length).getD i 0 - 1).map (l.length + ·) := by
      rw [map_map]
      apply map_congr_left
      intro i hi
      have hi : i < ls.length := mem_range.mp hi
      have hpos : 0 < (ls.map length).getD i 0 := by
        rw [getD_eq_getElem?_getD, getElem?_map, getElem?_eq_getElem hi]
        exact length_pos_iff.mpr (hne _ (mem_cons_of_mem l (getElem_mem hi)))
      simp only [Function.comp_apply, succ_eq_add_one, offset_succ_left, map_cons, getD_cons_succ, getD_cons_zero]
      omega
    refine ⟨l.getLast (hne l mem_cons_self) :: v, ?_, by simp [hvl, getLast?_eq_getLast_of_ne_nil, hne l]⟩
    rw [length_cons, range_succ_eq_map, map_cons, map_map, hshift]
    simp only [gather, flatten_cons, gather_append_right, hv]
    simp [offset, getElem?_append_left (show l.length - 1 < l.length by omega), ← getLast?_eq_getElem?,
      getLast?_eq_getLast_of_ne_nil (hne l mem_cons_self)]

/-! ## Loops that may fail -/

theorem mapM_forall₂ {f : α → Option β} {l : List α} {l' : List β} (h : l.mapM f = some l') :
    List.Forall₂ (fun a b => f a = some b) l l' := by
  induction l generalizing l' with
  | nil =>
    cases h
    exact nil
  | cons a l ih =>
    simp only [mapM_cons, Option.bind_eq_bind, bind_eq_some_iff, Option.pure_def, Option.some.injEq] at h
    obtain ⟨b, hb, rest, hrest, rfl⟩ := h
    exact cons hb (ih hrest)

theorem mapM_exists {γ : Type} {f : β → Option γ} {P : α → β → Prop} {R : α → γ → Prop}
    (step : ∀ a b, P a b → ∃ c, f b = some c ∧ R a c)
    (h : List.Forall₂ P l m) : ∃ l', m.mapM f = some l' ∧ List.Forall₂ R l l' := by
  induction h with
  | nil => exact ⟨[], rfl, nil⟩
  | cons hab _ ih =>
    obtain ⟨c, hc, hr⟩ := step _ _ hab
    obtain ⟨l', hl', hrs⟩ := ih
    exact ⟨c :: l', by simp [mapM_cons, hc, hl'], cons hr hrs⟩

/-- Rows of one length, laid end to end. -/
theorem getElem?_flatten_rows {size k : Nat} (hk : k < size) {rows : List (List α)} (r : Nat)
    (h : ∀ l ∈ rows, l.length = size) : rows.flatten[r * size + k]? = rows[r]?.bind fun l => l[k]? := by
  induction rows generalizing r with
  | nil => simp
  | cons row rows ih =>
    have hrow := h row mem_cons_self
    rw [flatten_cons]
    cases r with
    | zero => rw [getElem?_append_left (by omega)]; simp
    | succ r =>
      have hlen : (r + 1) * size + k - row.length = r * size + k := by rw [succ_mul]; omega
      rw [getElem?_append_right (by rw [succ_mul]; omega), hlen, getElem?_cons_succ]
      exact ih r fun l hl => h l (mem_cons_of_mem row hl)

theorem foldl_pick_mem (f : α → α → Bool) (l : List α) (a : α) :
    l.foldl (fun best x => if f x best then x else best) a ∈ a :: l := by
  induction l generalizing a with
  | nil => exact mem_singleton_self a
  | cons x l ih =>
    rw [foldl_cons]
    split
    · exact mem_cons_of_mem a (ih x)
    rcases mem_cons.mp (ih a) with h | h
    · exact mem_cons.mpr (.inl h)
    · exact mem_cons_of_mem a (mem_cons_of_mem x h)

/-! ## What is left of a list -/

theorem nodup_of_subperm {l l' : List α} (h : l.Nodup) (hsub : l'.Subperm l) : l'.Nodup := by
  obtain ⟨k, hperm, hk⟩ := hsub
  exact hperm.nodup_iff.mp (h.sublist hk)

/-- Some of a list and, of the others, each once. -/
theorem filter_append_subperm {l k : List α} {p : α → Bool} (hk : k.Nodup) (hsub : ∀ a ∈ k, a ∈ l ∧ p a = false) :
    (l.filter p ++ k).Subperm l := by
  have hrest : k.Subperm (l.filter fun a => !p a) :=
    hk.subperm fun a ha => mem_filter.mpr ⟨(hsub a ha).1, by simp [(hsub a ha).2]⟩
  exact ((Subperm.refl _).append hrest).trans (filter_append_perm p l).subperm

end DynaSpec.Lib
