/-
  DynaSpec.Lib.Heapq — the binary heap of Python's `heapq`, on a list.

  `lt` is the comparison of the items and need not be an order. Whatever it answers, the
  operations only move items: `heapify_perm`, `heappush_perm` and `heappop_perm`.
-/

import Mathlib.Data.List.Perm.Basic

namespace DynaSpec.Lib.Heapq

open List
open List.Perm (cons refl)

variable {α : Type} (lt : α → α → Bool)

/-- Move the hole at `pos` up while `newitem` is below the parent. The position drops at
    every turn, so `pos` turns are enough. -/
def siftdownLoop (newitem : α) (startpos : Nat) : Nat → List α → Nat → List α
  | 0, heap, pos => heap.set pos newitem
  | turns + 1, heap, pos =>
    if startpos < pos then
      let parentpos := (pos - 1) / 2
      let parent := heap.getD parentpos newitem
      if lt newitem parent then siftdownLoop newitem startpos turns (heap.set pos parent) parentpos
      else heap.set pos newitem
    else heap.set pos newitem

def siftdown (heap : List α) (startpos pos : Nat) (newitem : α) : List α :=
  siftdownLoop lt newitem startpos pos heap pos

/-- Move the hole at `pos` down to a leaf, always to the smaller child. -/
def siftupLoop (newitem : α) : Nat → List α → Nat → List α × Nat
  | 0, heap, pos => (heap, pos)
  | turns + 1, heap, pos =>
    let childpos := 2 * pos + 1
    let rightpos := childpos + 1
    if childpos < heap.length then
      let childpos :=
        if rightpos < heap.length ∧ lt (heap.getD childpos newitem) (heap.getD rightpos newitem) = false then rightpos
        else childpos
      siftupLoop newitem turns (heap.set pos (heap.getD childpos newitem)) childpos
    else (heap, pos)

def siftup (heap : List α) (pos : Nat) (newitem : α) : List α :=
  let (heap', leaf) := siftupLoop lt newitem heap.length heap pos
  siftdown lt heap' pos leaf newitem

def heapify (heap : List α) : List α :=
  (List.range (heap.length / 2)).reverse.foldl
    (fun h i => match h[i]? with
      | some newitem => siftup lt h i newitem
      | none => h) heap

def heappush (heap : List α) (item : α) : List α := siftdown lt (heap ++ [item]) 0 heap.length item

def heappop (heap : List α) : Option (α × List α) :=
  match heap.getLast? with
  | none => none
  | some lastelt =>
    match heap.dropLast with
    | [] => some (lastelt, [])
    | returnitem :: rest => some (returnitem, siftup lt (lastelt :: rest) 0 lastelt)

/-! ## The operations only move items -/

variable {heap : List α}

theorem set_set_perm_set {i j : Nat} (x : α) (hi : i < heap.length) (hj : j < heap.length) (hne : i ≠ j) :
    ((heap.set i (heap.getD j x)).set j x).Perm (heap.set i x) := by
  have hi' : i < (heap.set i x).length := by simpa using hi
  have hj' : j < (heap.set i x).length := by simpa using hj
  have h := set_set_perm hi' hj'
  rw [getElem_set_self, getElem_set_of_ne hne, set_set] at h
  rwa [getD_eq_getElem?_getD, getElem?_eq_getElem hj, Option.getD_some]

theorem siftdownLoop_perm (newitem : α) (startpos turns : Nat) (heap : List α) (pos : Nat) (hpos : pos < heap.length) :
    (siftdownLoop lt newitem startpos turns heap pos).Perm (heap.set pos newitem) := by
  induction turns generalizing heap pos with
  | zero => exact refl _
  | succ turns ih =>
    simp only [siftdownLoop]
    split
    · split
      · have hparent : (pos - 1) / 2 < heap.length := by omega
        refine (ih _ _ (by simpa using hparent)).trans ?_
        exact set_set_perm_set newitem hpos hparent (by omega)
      · exact refl _
    · exact refl _

theorem siftupLoop_perm (newitem : α) (turns : Nat) (heap : List α) (pos : Nat) (hpos : pos < heap.length) :
    (siftupLoop lt newitem turns heap pos).2 < (siftupLoop lt newitem turns heap pos).1.length ∧
    ((siftupLoop lt newitem turns heap pos).1.set (siftupLoop lt newitem turns heap pos).2 newitem).Perm
      (heap.set pos newitem) := by
  induction turns generalizing heap pos with
  | zero => exact ⟨hpos, refl _⟩
  | succ turns ih =>
    simp only [siftupLoop]
    split
    · rename_i hchild
      generalize hc : (if 2 * pos + 1 + 1 < heap.length ∧
        lt (heap.getD (2 * pos + 1) newitem) (heap.getD (2 * pos + 1 + 1) newitem) = false then 2 * pos + 1 + 1
        else 2 * pos + 1) = child
      have hlt : child < heap.length ∧ pos < child := by
        rw [← hc]
        split <;> omega
      obtain ⟨h1, h2⟩ := ih (heap.set pos (heap.getD child newitem)) child (by simpa using hlt.1)
      refine ⟨h1, h2.trans ?_⟩
      exact set_set_perm_set newitem hpos hlt.1 (by omega)
    · exact ⟨hpos, refl _⟩

theorem siftup_perm {pos : Nat} (hpos : pos < heap.length) (newitem : α) :
    (siftup lt heap pos newitem).Perm (heap.set pos newitem) := by
  obtain ⟨h1, h2⟩ := siftupLoop_perm lt newitem heap.length heap pos hpos
  exact (siftdownLoop_perm lt newitem pos _ _ _ h1).trans h2

theorem heapify_perm (heap : List α) : (heapify lt heap).Perm heap := by
  unfold heapify
  generalize (range (heap.length / 2)).reverse = order
  suffices h : ∀ h : List α, h.Perm heap → (order.foldl (fun h i => match h[i]? with
      | some newitem => siftup lt h i newitem
      | none => h) h).Perm heap from h heap (refl _)
  induction order with
  | nil => intro h hp; exact hp
  | cons i order ih =>
    intro h hp
    apply ih
    dsimp only
    split
    · rename_i newitem hi
      obtain ⟨hlt, he⟩ := List.getElem?_eq_some_iff.mp hi
      have := siftup_perm lt hlt newitem
      rw [← he, set_getElem_self] at this
      exact (he ▸ this).trans hp
    · exact hp

theorem heappush_perm (heap : List α) (item : α) : (heappush lt heap item).Perm (item :: heap) := by
  have h := siftdownLoop_perm lt item 0 heap.length (heap ++ [item]) heap.length (by simp)
  rw [set_append_right _ _ (Nat.le_refl _), Nat.sub_self] at h
  exact h.trans (perm_append_singleton item heap)

theorem heappop_perm {rest : List α} {x : α} (h : heappop lt heap = some (x, rest)) : (x :: rest).Perm heap := by
  unfold heappop at h
  split at h
  · cases h
  rename_i lastelt hlast
  have hsplit : heap.dropLast ++ [lastelt] = heap := dropLast_append_getLast? lastelt hlast
  split at h
  · rename_i hd
    cases h
    rw [hd] at hsplit
    rw [← hsplit]
    exact refl _
  rename_i returnitem rest' hd
  have hzero : 0 < (lastelt :: rest').length := Nat.succ_pos _
  simp only [Option.some.injEq, Prod.mk.injEq] at h
  obtain ⟨rfl, rfl⟩ := h
  rw [hd] at hsplit
  rw [← hsplit]
  refine (cons returnitem (siftup_perm lt hzero lastelt)).trans ?_
  exact cons returnitem (perm_append_singleton lastelt rest').symm

theorem heappop_isSome (h : heap ≠ []) : ∃ x rest, heappop lt heap = some (x, rest) := by
  unfold heappop
  rw [getLast?_eq_some_getLast h]
  dsimp only
  split
  · exact ⟨_, _, rfl⟩
  · exact ⟨_, _, rfl⟩

end DynaSpec.Lib.Heapq
