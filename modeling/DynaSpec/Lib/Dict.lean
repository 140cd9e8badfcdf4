/-
  DynaSpec.Lib.Dict — a dictionary that keeps its keys in the order they were first set.

  Setting a key that is there replaces its value in place; a new key goes to the end. The
  keys are distinct by construction, so an entry is what a lookup of its key gives
  (`get?_eq_some`).
-/

import Mathlib.Data.List.Nodup
import Mathlib.Data.List.Perm.Basic

namespace DynaSpec.Lib

open List
open Prod (fst snd)

structure Dict (κ ν : Type) where
  items : List (κ × ν)
  nodup : (items.map fst).Nodup

namespace Dict

variable {κ ν : Type} [DecidableEq κ]

def empty : Dict κ ν := ⟨[], List.nodup_nil⟩

def values (d : Dict κ ν) : List ν := d.items.map snd

variable (d : Dict κ ν) (k : κ)

def get? : Option ν := (d.items.find? fun e => e.1 = k).map snd

def setItems : List (κ × ν) → κ → ν → List (κ × ν)
  | [], k, v => [(k, v)]
  | e :: items, k, v => if e.1 = k then (k, v) :: items else e :: setItems items k v

theorem fst_setItems (k : κ) (v : ν) (items : List (κ × ν)) :
    (setItems items k v).map fst = if k ∈ items.map fst then items.map fst else items.map fst ++ [k] := by
  induction items with
  | nil => rfl
  | cons e items ih =>
    unfold setItems
    by_cases he : e.1 = k
    · simp [he]
    · simp only [he, if_false, map_cons, ih, mem_cons, Ne.symm he, false_or]
      split <;> rfl

def set (v : ν) : Dict κ ν where
  items := setItems d.items k v
  nodup := by
    rw [fst_setItems]
    split
    · exact d.nodup
    rename_i hk
    exact List.nodup_append.mpr ⟨d.nodup, List.nodup_singleton k, by
      rintro a ha b hb rfl
      exact hk (List.mem_singleton.mp hb ▸ ha)⟩

def erase : Dict κ ν where
  items := d.items.filter fun e => e.1 ≠ k
  nodup := d.nodup.sublist (List.filter_sublist.map fst)

variable {d : Dict κ ν} {k : κ} {v : ν}

omit [DecidableEq κ] in
theorem unique {v w : ν} (hv : (k, v) ∈ d.items) (hw : (k, w) ∈ d.items) : v = w :=
  congrArg snd (inj_on_of_nodup_map d.nodup hv hw rfl)

omit [DecidableEq κ] in
@[simp] theorem items_empty : (empty : Dict κ ν).items = [] := rfl

@[simp] theorem get?_eq_some : d.get? k = some v ↔ (k, v) ∈ d.items := by
  unfold get?
  constructor
  · intro h
    obtain ⟨e, he, rfl⟩ := Option.map_eq_some_iff.mp h
    have hk : e.1 = k := by simpa using find?_some he
    exact hk ▸ mem_of_find?_eq_some he
  · intro h
    have hsome : (d.items.find? fun e => e.1 = k).isSome := find?_isSome.mpr ⟨(k, v), h, by simp⟩
    obtain ⟨e, he⟩ := Option.isSome_iff_exists.mp hsome
    have hk : e.1 = k := by simpa using find?_some he
    have hmem : (k, e.2) ∈ d.items := hk ▸ mem_of_find?_eq_some he
    rw [he, Option.map_some, unique hmem h]

theorem get?_eq_none : d.get? k = none ↔ ∀ v, (k, v) ∉ d.items := by
  rw [Option.eq_none_iff_forall_ne_some]
  exact forall_congr' fun v => not_congr get?_eq_some

theorem items_eq_nil : d.items = [] ↔ ∀ k, d.get? k = none := by
  simp [get?_eq_none, eq_nil_iff_forall_not_mem, Prod.forall]

omit [DecidableEq κ] in
@[simp] theorem values_eq_nil : d.values = [] ↔ d.items = [] := map_eq_nil_iff

theorem mem_setItems {items : List (κ × ν)} (hnd : (items.map fst).Nodup) {k k' : κ} {v v' : ν} :
    (k', v') ∈ setItems items k v ↔ (k' = k ∧ v' = v) ∨ (k' ≠ k ∧ (k', v') ∈ items) := by
  induction items with
  | nil =>
    simp [setItems]
  | cons e items ih =>
    obtain ⟨hfresh, hnd'⟩ := nodup_cons.mp hnd
    unfold setItems
    by_cases he : e.1 = k
    · have hne : (k', v') ∈ items → k' ≠ k := fun hm hk => hfresh (he ▸ hk ▸ mem_map_of_mem hm)
      simp only [he, if_true, mem_cons, Prod.mk.injEq]
      constructor
      · rintro (h | h)
        · exact .inl h
        · exact .inr ⟨hne h, .inr h⟩
      · rintro (h | ⟨hk, rfl | h⟩)
        · exact .inl h
        · exact absurd he hk
        · exact .inr h
    simp only [he, if_false, mem_cons, ih hnd']
    constructor
    · rintro (rfl | h | ⟨hk, h⟩)
      · exact .inr ⟨he, .inl rfl⟩
      · exact .inl h
      · exact .inr ⟨hk, .inr h⟩
    · rintro (h | ⟨hk, rfl | h⟩)
      · exact .inr (.inl h)
      · exact .inl rfl
      · exact .inr (.inr ⟨hk, h⟩)

@[simp] theorem mem_set {k k' : κ} {v v' : ν} : (k', v') ∈ (d.set k v).items ↔ (k' = k ∧ v' = v) ∨
    (k' ≠ k ∧ (k', v') ∈ d.items) :=
  mem_setItems d.nodup

@[simp] theorem mem_erase {k k' : κ} {v' : ν} : (k', v') ∈ (d.erase k).items ↔ k' ≠ k ∧ (k', v') ∈ d.items := by
  simp [erase, and_comm]

omit [DecidableEq κ] in
theorem mem_values : v ∈ d.values ↔ ∃ k, (k, v) ∈ d.items := by
  simp [values]

@[simp] theorem get?_empty (k : κ) : (empty : Dict κ ν).get? k = none := rfl

theorem get?_set (d : Dict κ ν) (k k' : κ) (v : ν) : (d.set k v).get? k' = if k' = k then some v else d.get? k' := by
  ext w
  split
  · rename_i he
    rw [get?_eq_some, mem_set]
    simp [he, eq_comm]
  · rename_i hne
    simp [hne]

theorem get?_erase (d : Dict κ ν) (k k' : κ) : (d.erase k).get? k' = if k' = k then none else d.get? k' := by
  ext w
  split
  · rename_i he
    simp [he]
  · rename_i hne
    simp [hne]

theorem get?_erase_eq_some {k k' : κ} : (d.erase k).get? k' = some v ↔ k' ≠ k ∧ d.get? k' = some v := by
  rw [get?_eq_some, mem_erase, get?_eq_some]

theorem items_set_ne_nil (d : Dict κ ν) (k : κ) (v : ν) : (d.set k v).items ≠ [] := by
  have hmem : (k, v) ∈ (d.set k v).items := get?_eq_some.mp (by rw [get?_set, if_pos rfl])
  exact ne_nil_of_mem hmem

omit [DecidableEq κ] in
theorem items_nodup (d : Dict κ ν) : d.items.Nodup := List.Nodup.of_map _ d.nodup

/-- A value that only one key has is found at that key. -/
theorem find_value [DecidableEq ν] (h : d.get? k = some v) (huniq : ∀ k', d.get? k' = some v → k' = k) :
    d.items.find? (fun e => decide (e.2 = v)) = some (k, v) := by
  obtain ⟨⟨k', v'⟩, he⟩ : ∃ e, d.items.find? (fun e => decide (e.2 = v)) = some e :=
    Option.isSome_iff_exists.mp (find?_isSome.mpr ⟨_, get?_eq_some.mp h, by simp⟩)
  obtain rfl : v' = v := by simpa using find?_some he
  rw [he, huniq k' (get?_eq_some.mpr (mem_of_find?_eq_some he))]

theorem values_nodup (hinj : ∀ k k' v, d.get? k = some v → d.get? k' = some v → k = k') : d.values.Nodup := by
  refine (nodup_map_iff_inj_on d.items_nodup).mpr fun a ha b hb hab => ?_
  obtain ⟨k, v⟩ := a
  obtain ⟨k', v'⟩ := b
  obtain rfl : v = v' := hab
  rw [hinj k k' v (get?_eq_some.mpr ha) (get?_eq_some.mpr hb)]

theorem values_erase_perm (h : d.get? k = some v) : d.values.Perm (v :: (d.erase k).values) := by
  have hitems : d.items.Perm ((k, v) :: (d.erase k).items) := by
    refine (perm_ext_iff_of_nodup d.items_nodup (nodup_cons.mpr ⟨?_, (d.erase k).items_nodup⟩)).mpr fun e => ?_
    · simp
    obtain ⟨k', v'⟩ := e
    rw [mem_cons, mem_erase, Prod.mk.injEq]
    constructor
    · intro he
      by_cases hk : k' = k
      · subst hk
        exact .inl ⟨rfl, unique he (get?_eq_some.mp h)⟩
      · exact .inr ⟨hk, he⟩
    · intro he
      rcases he with ⟨rfl, rfl⟩ | he
      · exact get?_eq_some.mp h
      · exact he.2
  exact hitems.map snd

theorem values_set_perm (v : ν) (h : d.get? k = none) : (d.set k v).values.Perm (v :: d.values) := by
  have hitems : (d.set k v).items.Perm ((k, v) :: d.items) := by
    refine (perm_ext_iff_of_nodup (d.set k v).items_nodup (nodup_cons.mpr ⟨get?_eq_none.mp h v, d.items_nodup⟩)).mpr fun e => ?_
    obtain ⟨k', v'⟩ := e
    rw [mem_cons, mem_set, Prod.mk.injEq]
    refine or_congr Iff.rfl ⟨fun he => he.2, fun he => ⟨fun hk => ?_, he⟩⟩
    rw [hk] at he
    exact get?_eq_none.mp h v' he
  exact hitems.map snd

end Dict

end DynaSpec.Lib
