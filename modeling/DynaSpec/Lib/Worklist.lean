/-
  DynaSpec.Lib.Worklist — a list of pending items in which an item is replaced by any
  finite number of smaller ones.

  The items have a size; a turn takes one item out, wherever it stands, and puts smaller
  ones in (`shrinks_of_perm`). Such turns cannot go on for ever (`shrinks_wf`), although the
  list may grow at each of them: this is the multiset order.
-/

import Mathlib.Data.Multiset.DershowitzManna

namespace DynaSpec.Lib

open Multiset

variable {α : Type} {size : α → Nat}

def Shrinks (size : α → Nat) (l' l : List α) : Prop :=
  Multiset.IsDershowitzMannaLT (l'.map size : Multiset Nat) (l.map size : Multiset Nat)

theorem shrinks_wf (size : α → Nat) : WellFounded (Shrinks size) :=
  InvImage.wf (fun l : List α => (l.map size : Multiset Nat)) wellFounded_isDershowitzMannaLT

theorem shrinks_of_perm {l l' rest new : List α} {e : α} (hl : l.Perm (e :: rest)) (hl' : l'.Perm (rest ++ new))
    (hnew : ∀ x ∈ new, size x < size e) : Shrinks size l' l := by
  refine ⟨rest.map size, new.map size, {size e}, singleton_ne_zero _, ?_, ?_, ?_⟩
  · rw [coe_add, ← List.map_append]
    exact coe_eq_coe.mpr (hl'.map size)
  · rw [coe_eq_coe.mpr (hl.map size), List.map_cons, ← cons_coe, add_comm, singleton_add]
  · intro y hy
    obtain ⟨x, hx, rfl⟩ := List.mem_map.mp (mem_coe.mp hy)
    exact ⟨size e, mem_singleton_self _, hnew x hx⟩

end DynaSpec.Lib
