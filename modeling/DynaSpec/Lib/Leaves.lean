/-
  DynaSpec.Lib.Leaves — the leaves of a tree, collected with a stack.

  A turn takes the last node from the stack: a leaf is kept when it is free, and the children
  of any other node go on the stack. In a tree (`Rooted`) each node is on the stack once
  (`Walked.step`), so the loop ends, and it has kept exactly the free leaves below the root
  (`collectLeaves_spec`).
-/

import DynaSpec.Lib.While
import Mathlib.Data.List.Nodup
import Mathlib.Data.List.Perm.Subperm

namespace DynaSpec.Lib

open List

variable {ι ε : Type}

section
variable (empty out : ε) (children : ι → List ι) (free : ι → Bool)

/-- One turn on the stack, its top last, and the leaves found. -/
def collectStep (w : List ι × List ι) : Except ε (List ι × List ι) :=
  match w.1.getLast? with
  | none => .error empty
  | some cur =>
    let stack := w.1.dropLast
    if children cur = [] then .ok (stack, if free cur then w.2 ++ [cur] else w.2)
    else .ok (stack ++ children cur, w.2)

def collectLeaves (turns : Nat) (root : ι) : Except ε (List ι) := do
  let w ← whileLoop out (fun w => decide (w.1 ≠ [])) (collectStep empty children free) turns (children root, [])
  return w.2

end

/-- The live nodes are a tree below the root, in which nodes know their parents. -/
structure Rooted (live : ι → Prop) (root : ι) (parent : ι → Option ι) (children : ι → List ι) : Prop where
  root_live : live root
  nodup : ∀ p, live p → (children p).Nodup
  mem : ∀ p, live p → ∀ c, c ∈ children p ↔ live c ∧ c ≠ root ∧ parent c = some p
  climb : ∀ P : ι → Prop, P root → (∀ n p, live n → n ≠ root → parent n = some p → P p → P n) → ∀ n, live n → P n

variable {live : ι → Prop} {root : ι} {parent : ι → Option ι} {children : ι → List ι} {seen stack : List ι}

/-- The nodes of `seen` were taken; the stack holds the children of these and of the root
    that were not. -/
structure Walked (live : ι → Prop) (root : ι) (parent : ι → Option ι) (seen stack : List ι) : Prop where
  nodup : (seen ++ stack).Nodup
  mem : ∀ n, n ∈ seen ++ stack ↔ live n ∧ n ≠ root ∧ ∃ p, (p = root ∨ p ∈ seen) ∧ parent n = some p

theorem Walked.start (h : Rooted live root parent children) : Walked live root parent [] (children root) := by
  refine ⟨h.nodup root h.root_live, fun n => ?_⟩
  simp [h.mem root h.root_live]

theorem Walked.step (h : Rooted live root parent children) {cur : ι} (w : Walked live root parent seen (stack ++ [cur])) :
    Walked live root parent (seen ++ [cur]) (stack ++ children cur) := by
  have hperm : (seen ++ [cur] ++ (stack ++ children cur)).Perm (seen ++ (stack ++ [cur]) ++ children cur) := by
    simp only [append_assoc]
    refine .append_left seen ?_
    rw [← append_assoc, ← append_assoc]
    exact perm_append_comm.append_right _
  obtain ⟨hlive, hroot, -⟩ := (w.mem cur).mp (by simp)
  have hfresh : cur ∉ seen := fun hs => (nodup_append.mp w.nodup).2.2 cur hs cur (by simp) rfl
  refine ⟨hperm.nodup_iff.mpr (nodup_append.mpr ⟨w.nodup, h.nodup cur hlive, ?_⟩), fun n => ?_⟩
  · -- the parent of a child is `cur`, which was not taken before
    rintro n hn _ hc rfl
    obtain ⟨-, -, p, hp, hparent⟩ := (w.mem n).mp hn
    obtain rfl := Option.some.inj (hparent.symm.trans ((h.mem cur hlive n).mp hc).2.2)
    exact hp.elim hroot hfresh
  · rw [hperm.mem_iff, mem_append, w.mem, h.mem cur hlive, ← and_or_left, ← and_or_left]
    simp only [mem_append, mem_singleton, ← or_assoc, or_and_right, exists_or, exists_eq_left]

theorem length_le_of_lt {l : List Nat} {n : Nat} (hl : l.Nodup) (hlt : ∀ a ∈ l, a < n) : l.length ≤ n := by
  simpa using (subperm_of_subset hl fun a ha => mem_range.mpr (hlt a ha)).length_le

/-- A bound that no list of distinct live nodes exceeds is enough. -/
theorem collectLeaves_spec (empty out : ε) (free : ι → Bool) (h : Rooted live root parent children) {turns : Nat}
    (hturns : ∀ l : List ι, l.Nodup → (∀ n ∈ l, live n) → l.length ≤ turns) :
    ∃ l, collectLeaves empty out children free turns root = .ok l ∧ l.Nodup ∧
      ∀ n, n ∈ l ↔ live n ∧ n ≠ root ∧ children n = [] ∧ free n = true := by
  obtain ⟨st, m, hrun, ⟨seen, w, hfound, -⟩, hend⟩ := whileLoop_bound out
    (fun w : List ι × List ι => decide (w.1 ≠ [])) (collectStep empty children free)
    (fun st m => ∃ seen, Walked live root parent seen st.1 ∧
      st.2 = seen.filter (fun n => decide (children n = []) && free n) ∧ seen.length + m = turns)
    (by
      rintro ⟨stack, found⟩ m ⟨seen, w, hfound, hm⟩ hgo
      obtain ⟨cur, hcur⟩ : ∃ cur, stack.getLast? = some cur := ⟨_, getLast?_eq_some_getLast (by simpa using hgo)⟩
      dsimp only at w hfound
      rw [← dropLast_append_getLast? cur hcur] at w
      have hlen := hturns _ w.nodup fun n hn => ((w.mem n).mp hn).1
      simp only [length_append, length_singleton] at hlen
      have w' := w.step h
      unfold collectStep
      simp only [hcur]
      by_cases hleaf : children cur = []
      · rw [hleaf, append_nil] at w'
        refine ⟨_, m - 1, if_pos hleaf, ⟨_, w', ?_, by simp; omega⟩, by omega⟩
        cases hfree : free cur <;> simp [hfound, hleaf, hfree]
      · exact ⟨_, m - 1, if_neg hleaf, ⟨_, w', by simp [hfound, hleaf], by simp; omega⟩, by omega⟩)
    turns (children root, []) turns ⟨[], Walked.start h, rfl, Nat.zero_add turns⟩ (Nat.le_refl turns)
  have hnil : st.1 = [] := by simpa using hend
  have hmem := w.mem
  have hnodup := w.nodup
  rw [hnil, append_nil] at hmem hnodup
  have hall : ∀ n, live n → n = root ∨ n ∈ seen := by
    refine h.climb _ (.inl rfl) fun n p hn hr hp ih => .inr ?_
    exact (hmem n).mpr ⟨hn, hr, p, ih, hp⟩
  refine ⟨st.2, by rw [collectLeaves, hrun]; rfl, hfound ▸ hnodup.filter _, fun n => ?_⟩
  rw [hfound, mem_filter, Bool.and_eq_true, decide_eq_true_eq]
  constructor
  · rintro ⟨hn, hleaf⟩
    obtain ⟨hlive, hr, -⟩ := (hmem n).mp hn
    exact ⟨hlive, hr, hleaf⟩
  · rintro ⟨hlive, hr, hleaf⟩
    exact ⟨(hall n hlive).resolve_left hr, hleaf⟩

end DynaSpec.Lib
