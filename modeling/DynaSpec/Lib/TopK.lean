/-
  DynaSpec.Lib.TopK — the indices of the `k` largest entries of a list.

  Which of several equal entries is returned, and in which order, is left open; a
  `TopK` is any choice. `stable` is one: equal entries by increasing index. Of two equal
  entries every choice that has the one has the other just when the cut is not among the
  entries equal to them (`forall_mem_iff`).
-/

import DynaSpec.Lib.Gather
import Mathlib.Data.Finset.Sort

namespace DynaSpec.Lib

open Finset (insert_subset mem_erase mem_sort)

structure TopK (σ : Type) [LinearOrder σ] where
  run : List σ → Nat → List Nat
  length : ∀ l k, k ≤ l.length → (run l k).length = k
  nodup : ∀ l k, (run l k).Nodup
  lt : ∀ l k, ∀ i ∈ run l k, i < l.length
  best : ∀ l k i j (hi : i < l.length) (hj : j < l.length), i ∈ run l k → j ∉ run l k → l.get ⟨j, hj⟩ ≤ l.get ⟨i, hi⟩

namespace TopK

variable {σ : Type} [LinearOrder σ]

/-- The indices of `l` from its largest entry down. -/
def ranked (l : List σ) : List Nat :=
  ((List.finRange l.length).insertionSort (fun i j => l.get j ≤ l.get i)).map Fin.val

theorem ranked_perm (l : List σ) : (ranked l).Perm (List.range l.length) := by
  have h := (List.perm_insertionSort (fun i j => l.get j ≤ l.get i) (List.finRange l.length)).map Fin.val
  simpa [ranked] using h

theorem ranked_sorted (l : List σ) : (ranked l).Pairwise
    (fun i j => ∀ (hi : i < l.length) (hj : j < l.length), l.get ⟨j, hj⟩ ≤ l.get ⟨i, hi⟩) := by
  refine List.pairwise_map.mpr ((List.pairwise_insertionSort (fun i j => l.get j ≤ l.get i) _).imp ?_)
  intro i j hij _ _
  exact hij

def stable : TopK σ where
  run := fun l k => (ranked l).take k
  length := by
    intro l k hk
    have := (ranked_perm l).length_eq
    simp only [List.length_range] at this
    rw [List.length_take]
    omega
  nodup := fun l k => (List.take_sublist k _).nodup ((ranked_perm l).nodup_iff.mpr List.nodup_range)
  lt := fun l k i hi => List.mem_range.mp ((ranked_perm l).mem_iff.mp (List.mem_of_mem_take hi))
  best := by
    intro l k i j hi hj hik hjk
    have hsort := ranked_sorted l
    rw [← List.take_append_drop k (ranked l)] at hsort
    have hjd : j ∈ (ranked l).drop k := by
      have hmem := (ranked_perm l).mem_iff.mpr (List.mem_range.mpr hj)
      rw [← List.take_append_drop k (ranked l)] at hmem
      exact (List.mem_append.mp hmem).resolve_left hjk
    exact (List.pairwise_append.mp hsort).2.2 i hik j hjd hi hj

variable {l : List σ} {v : σ} {i j k : Nat}

theorem le_of_notMem (T : TopK σ) {x y : σ} (hi : l[i]? = some x) (hj : l[j]? = some y) (him : i ∈ T.run l k)
    (hjm : j ∉ T.run l k) :
    y ≤ x := by
  obtain ⟨hi', rfl⟩ := List.getElem?_eq_some_iff.mp hi
  obtain ⟨hj', rfl⟩ := List.getElem?_eq_some_iff.mp hj
  exact T.best l k i j hi' hj' him hjm

/-- Any set with no entry below one that is left out is a choice. -/
theorem exists_run {S : Finset Nat} (hin : ∀ i ∈ S, ∃ x, l[i]? = some x ∧ v ≤ x) (hout : ∀ j x, l[j]? = some x → v < x → j ∈ S) :
    ∃ T : TopK σ, ∀ i, i ∈ T.run l S.card ↔ i ∈ S := by
  refine ⟨⟨fun l' k => if l' = l ∧ k = S.card then S.sort (· ≤ ·) else stable.run l' k, fun l' k hk => ?_, fun l' k => ?_,
    fun l' k i hi => ?_, fun l' k i j hi hj him hjm => ?_⟩, fun i => ?_⟩
  · split
    · rename_i h
      rw [Finset.length_sort, h.2]
    · exact stable.length l' k hk
  · split
    · exact Finset.sort_nodup _ _
    · exact stable.nodup l' k
  · split at hi
    · rename_i h
      obtain ⟨x, hx, -⟩ := hin i ((mem_sort _).mp hi)
      rw [h.1]
      exact (List.getElem?_eq_some_iff.mp hx).1
    · exact stable.lt l' k i hi
  · split at him
    · rename_i h
      obtain ⟨rfl, rfl⟩ := h
      rw [if_pos ⟨rfl, rfl⟩, mem_sort] at hjm
      obtain ⟨x, hx, hle⟩ := hin i ((mem_sort _).mp him)
      obtain ⟨_, rfl⟩ := List.getElem?_eq_some_iff.mp hx
      exact le_trans (le_of_not_gt fun hlt => hjm (hout j _ (List.getElem?_eq_getElem hj) hlt)) hle
    · rename_i h
      rw [if_neg h] at hjm
      exact stable.best l' k i j hi hj him hjm
  · dsimp only
    rw [if_pos ⟨rfl, rfl⟩, mem_sort]

omit [LinearOrder σ] in
theorem mem_where {p : σ → Prop} [DecidablePred p] : i ∈ (indicesWhere (p ·) l).toFinset ↔ ∃ x, l[i]? = some x ∧ p x := by
  simp [List.mem_toFinset, mem_indicesWhere]

omit [LinearOrder σ] in
theorem card_where (p : σ → Bool) (l : List σ) : (indicesWhere p l).toFinset.card = l.countP p := by
  rw [← length_indicesWhere]
  exact List.toFinset_card_of_nodup (List.nodup_range.filter _)

theorem forall_mem_iff (hk : k ≤ l.length) (hij : i ≠ j) (hi : l[i]? = some v) (hj : l[j]? = some v) :
    (∀ T : TopK σ, i ∈ T.run l k → j ∈ T.run l k) ↔ k ≤ l.countP (v < ·) ∨ l.countP (v ≤ ·) ≤ k := by
  rw [← card_where, ← card_where]
  have hni : i ∉ (indicesWhere (v < ·) l).toFinset := by
    intro hm
    obtain ⟨x, hx, hlt⟩ := mem_where.mp hm
    exact (Option.some.inj (hi.symm.trans hx) ▸ hlt).false
  constructor
  · intro h
    by_contra hno
    -- a choice that takes `i` with what is above it, and leaves `j`
    have hsub : insert i (indicesWhere (v < ·) l).toFinset ⊆ (indicesWhere (v ≤ ·) l).toFinset.erase j := by
      refine insert_subset (mem_erase.mpr ⟨hij, mem_where.mpr ⟨v, hi, le_rfl⟩⟩) fun g hg => ?_
      obtain ⟨x, hx, hlt⟩ := mem_where.mp hg
      refine mem_erase.mpr ⟨?_, mem_where.mpr ⟨x, hx, hlt.le⟩⟩
      rintro rfl
      exact (Option.some.inj (hj.symm.trans hx) ▸ hlt).false
    have hle := Finset.card_insert_of_notMem hni
    have hge := Finset.card_erase_of_mem (mem_where.mpr ⟨v, hj, le_rfl⟩)
    obtain ⟨S, hS1, hS2, rfl⟩ := Finset.exists_subsuperset_card_eq hsub (n := k) (by omega) (by omega)
    obtain ⟨T, hT⟩ := exists_run (fun g hg => mem_where.mp (Finset.mem_of_mem_erase (hS2 hg)))
      fun g x hx hlt => hS1 (Finset.mem_insert_of_mem (mem_where.mpr ⟨x, hx, hlt⟩))
    exact Finset.ne_of_mem_erase (hS2 ((hT j).mp (h T ((hT i).mpr (hS1 (Finset.mem_insert_self i _)))))) rfl
  · intro h T him
    by_contra hjm
    have hcard : (T.run l k).toFinset.card = k := by rw [List.toFinset_card_of_nodup (T.nodup l k), T.length l k hk]
    rcases h with hlo | hhi
    · have hsub : insert i (indicesWhere (v < ·) l).toFinset ⊆ (T.run l k).toFinset := by
        refine insert_subset (List.mem_toFinset.mpr him) fun g hg => ?_
        obtain ⟨x, hx, hlt⟩ := mem_where.mp hg
        by_contra hno
        exact (T.le_of_notMem hi hx him (mt List.mem_toFinset.mpr hno)).not_gt hlt
      have hle := Finset.card_le_card hsub
      rw [Finset.card_insert_of_notMem hni, hcard] at hle
      omega
    have hsub : insert j (T.run l k).toFinset ⊆ (indicesWhere (v ≤ ·) l).toFinset := by
      refine insert_subset (mem_where.mpr ⟨v, hj, le_rfl⟩) fun g hg => ?_
      have hg := List.mem_toFinset.mp hg
      have hx := List.getElem?_eq_getElem (T.lt l k g hg)
      exact mem_where.mpr ⟨_, hx, T.le_of_notMem hx hj hg hjm⟩
    have hle := Finset.card_le_card hsub
    rw [Finset.card_insert_of_notMem (mt List.mem_toFinset.mp hjm), hcard] at hle
    omega

end TopK

end DynaSpec.Lib
