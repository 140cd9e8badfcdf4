/-
  DynaSpec.MemCache.RadixEvict — locks and eviction, as changes of the tree.

  `incLockRef` and `decLockRef` change the lock of every node on the way to the root and
  nothing else of the tree (`incLockRef_spec`, `decLockRef_spec`). `evict` takes out
  unlocked leaves one by one (`Evicts`), and stops early only when there is none left
  (`evict_spec`).
-/

import DynaSpec.MemCache.RadixWalk
import Mathlib.Data.Finset.Card

namespace DynaSpec.MemCache

open DynaSpec.Lib List Heapq
open Prod (snd)
open Finset (mem_erase)

variable {n p : NodeId}

namespace RadixCache

variable {cfg : Config} {s s' : RadixCache} {t t' : View} {pageSize : Nat}

/-! ## Locks -/

/-- One turn of `inc_lock_ref`. -/
def incOne (s : RadixCache) (n : NodeId) : RadixCache :=
  (if (s.node n).lockRef = 0 then s.protect (s.node n).key.len else s).addLock n 1

/-- One turn of `dec_lock_ref`. -/
def decOne (s : RadixCache) (n : NodeId) : RadixCache :=
  (if (s.node n).lockRef = 1 then s.protect (-(s.node n).key.len) else s).addLock n (-1)

theorem addLock_node (s : RadixCache) (n : NodeId) (d : Int) (m : NodeId) :
    (s.addLock n d).node m = if m = n then { s.node m with lockRef := (s.node m).lockRef + d } else s.node m := by
  unfold addLock modify
  by_cases h : m = n
  · simp [h]
  · simp [h]

theorem addLock_sameTree (s : RadixCache) (hn : n ≠ s.rootNode) (d : Int) : SameTree s (s.addLock n d) := by
  refine ⟨rfl, rfl, fun m => ?_, fun m => ?_, fun m => ?_, fun m => ?_, ?_⟩
  iterate 4
    rw [addLock_node]
    split <;> rfl
  rw [addLock_node, if_neg (Ne.symm hn)]

theorem protect_sameTree (s : RadixCache) (size : Int) : SameTree s (s.protect size) :=
  ⟨rfl, rfl, fun _ => rfl, fun _ => rfl, fun _ => rfl, fun _ => rfl, rfl⟩

theorem incOne_sameTree (hn : n ≠ s.rootNode) : SameTree s (incOne s n) := by
  unfold incOne
  split
  · exact (protect_sameTree s _).trans (addLock_sameTree (s.protect _) hn 1)
  · exact addLock_sameTree s hn 1

theorem decOne_sameTree (hn : n ≠ s.rootNode) : SameTree s (decOne s n) := by
  unfold decOne
  split
  · exact (protect_sameTree s _).trans (addLock_sameTree (s.protect _) hn (-1))
  · exact addLock_sameTree s hn (-1)

theorem incOne_lock (s : RadixCache) (n m : NodeId) :
    ((incOne s n).node m).lockRef = (s.node m).lockRef + if m = n then 1 else 0 := by
  unfold incOne
  rw [addLock_node]
  split <;> split <;> simp [protect]

theorem decOne_lock (s : RadixCache) (n m : NodeId) :
    ((decOne s n).node m).lockRef = (s.node m).lockRef + if m = n then -1 else 0 := by
  unfold decOne
  rw [addLock_node]
  split <;> split <;> simp [protect]

/-- A walk up from a known node takes it and what is above it, and ends at the root. -/
theorem lockLoop (step : LockWalk → Except PyError LockWalk) (one : RadixCache → NodeId → RadixCache)
    (htree : ∀ s n, n ≠ s.rootNode → SameTree s (one s n)) (hstep : ∀ s n p d, n ≠ s.rootNode → (s.node n).parent = some p →
      ∃ d', step { cache := s, node := some n, delta := d } = .ok { cache := one s n, node := some p, delta := d' })
    (l : List NodeId) (s : RadixCache) (n : NodeId) (d : Int) (turns : Nat) (w : Wf pageSize s t) (hn : s.Known n)
    (hl : t.ups n = l) (hturns : l.length ≤ turns) :
    ∃ d' m, whileLoop PyError.outOfFuel (LockWalk.goesOn s.rootNode) step turns { cache := s, node := some n, delta := d } =
        .ok { cache := l.foldl one s, node := m, delta := d' } := by
  induction l generalizing s n d turns with
  | nil =>
    have hr : n = s.rootNode := by
      by_contra hr
      obtain ⟨p, hp⟩ := w.hangs n hn hr
      rw [hp.ups] at hl
      cases hl
    refine ⟨d, some n, ?_⟩
    have hend : LockWalk.goesOn s.rootNode { cache := s, node := some n, delta := d } = false := by simp [LockWalk.goesOn, hr]
    cases turns <;> simp [whileLoop, hend]
  | cons x l ih =>
    have hr : n ≠ s.rootNode := by
      rintro rfl
      rw [w.root_ups] at hl
      cases hl
    obtain ⟨p, hp⟩ := w.hangs n hn hr
    rw [hp.ups] at hl
    obtain ⟨rfl, htail⟩ := cons.inj hl
    have hsame := htree s n hr
    obtain ⟨turns, rfl⟩ : ∃ k, turns = k + 1 := ⟨turns - 1, by simp at hturns; omega⟩
    obtain ⟨d', hd'⟩ := hstep s n p d hr hp.parent
    obtain ⟨d'', m, hloop⟩ := ih (one s n) p d' turns (w.sameTree hsame) (hsame.known.mpr hp.known) htail
      (by simpa using hturns)
    refine ⟨d'', m, ?_⟩
    have hgo : LockWalk.goesOn s.rootNode { cache := s, node := some n, delta := d } = true := by simp [LockWalk.goesOn, hr]
    rw [whileLoop, if_pos hgo, hd', ok_bind, ← hsame.root, hloop]
    rfl

theorem Wf.ups_length (w : Wf pageSize s t) (hn : s.Known n) : (t.ups n).length ≤ s.counter :=
  length_le_of_lt (w.ups_nodup n hn) fun m hm => (w.mem_ups n hn m hm).1.2

theorem foldl_sameTree {one : RadixCache → NodeId → RadixCache} (htree : ∀ s n, n ≠ s.rootNode → SameTree s (one s n))
    {l : List NodeId} :
    (∀ n ∈ l, n ≠ s.rootNode) → SameTree s (l.foldl one s) := by
  induction l generalizing s with
  | nil => intro _; exact SameTree.refl s
  | cons n l ih =>
    intro hl
    have hsame := htree s n (hl n mem_cons_self)
    exact hsame.trans (ih fun m hm => hsame.root.symm ▸ hl m (mem_cons_of_mem n hm))

/-- A node on the way of a lock walk is not the root. -/
theorem Wf.ups_ne_root (w : Wf pageSize s t) (hn : s.Known n) : ∀ m ∈ t.ups n, m ≠ s.rootNode :=
  fun m hm => (w.mem_ups n hn m hm).2.1

theorem incLockRef_spec (hd : cfg.disable = false) (w : Wf pageSize s t) (hn : s.Known n) :
    ∃ d, incLockRef cfg s n = .ok ((t.ups n).foldl incOne s, d) ∧ SameTree s ((t.ups n).foldl incOne s) := by
  obtain ⟨d, m, h⟩ := lockLoop incStep incOne (fun _ _ => incOne_sameTree)
    (by
      intro s n p d _ hp
      unfold incStep incOne
      by_cases h0 : (s.node n).lockRef = 0
      · simp only [h0, if_true, hp]
        exact ⟨_, rfl⟩
      · simp only [h0, if_false, hp]
        exact ⟨_, rfl⟩)
    (t.ups n) s n 0 s.counter w hn rfl (w.ups_length hn)
  refine ⟨d, ?_, foldl_sameTree (fun _ _ => incOne_sameTree) (w.ups_ne_root hn)⟩
  unfold incLockRef
  simp only [hd, Bool.false_eq_true, if_false]
  rw [h]
  rfl

theorem decLockRef_spec (hd : cfg.disable = false) (w : Wf pageSize s t) (hn : s.Known n) :
    ∃ d, decLockRef cfg s n = .ok ((t.ups n).foldl decOne s, d) ∧ SameTree s ((t.ups n).foldl decOne s) := by
  obtain ⟨d, m, h⟩ := lockLoop decStep decOne (fun _ _ => decOne_sameTree)
    (by
      intro s n p d _ hp
      unfold decStep decOne
      by_cases h0 : (s.node n).lockRef = 1
      · simp only [h0, if_true, hp]
        exact ⟨_, rfl⟩
      · simp only [h0, if_false, hp]
        exact ⟨_, rfl⟩)
    (t.ups n) s n 0 s.counter w hn rfl (w.ups_length hn)
  refine ⟨d, ?_, foldl_sameTree (fun _ _ => decOne_sameTree) (w.ups_ne_root hn)⟩
  unfold decLockRef
  simp only [hd, Bool.false_eq_true, if_false]
  rw [h]
  rfl

/-! ## The leaves that may go -/

structure EvictableLeaf (s : RadixCache) (t : View) (n : NodeId) : Prop where
  live : n ∈ t.live
  not_root : n ≠ s.rootNode
  leaf : (s.node n).children.items = []
  unlocked : (s.node n).lockRef = 0

section
variable (w : Wf pageSize s t)
include w

theorem Wf.mem_values (hp : p ∈ t.live) {c : NodeId} :
    c ∈ (s.node p).children.values ↔ c ∈ t.live ∧ c ≠ s.rootNode ∧ (s.node c).parent = some p := by
  rw [Dict.mem_values]
  constructor
  · rintro ⟨k, hk⟩
    obtain ⟨h1, h2, h3, -⟩ := (w.child_iff p hp k c).mp hk
    exact ⟨h1, h2, h3⟩
  · rintro ⟨h1, h2, h3⟩
    have hpos := (w.parent_hangs (w.live_known c h1) h2 h3).key_pos
    obtain ⟨k, hk⟩ := getChildKey_ok pageSize (length_pos_iff.mp hpos)
    exact ⟨k, (w.child_iff p hp k c).mpr ⟨h1, h2, h3, hk⟩⟩

theorem Wf.values_nodup (hp : p ∈ t.live) : (s.node p).children.values.Nodup := by
  refine List.Nodup.map_on ?_ (List.Nodup.of_map _ (s.node p).children.nodup)
  rintro ⟨k, c⟩ hx ⟨k', c'⟩ hy (rfl : c = c')
  have h1 := ((w.child_iff p hp k c).mp hx).2.2.2
  have h2 := ((w.child_iff p hp k' c).mp hy).2.2.2
  rw [h1] at h2
  rw [Except.ok.inj h2]

theorem Wf.rooted : Rooted (· ∈ t.live) s.rootNode (fun n => (s.node n).parent) fun n => (s.node n).children.values where
  root_live := w.root_live
  nodup _ := w.values_nodup
  mem _ hp _ := w.mem_values hp
  climb P hroot hstep n hn := by
    have hclimb : ∀ n, s.Known n → n ∈ t.live → P n := by
      refine w.climb (fun _ => hroot) fun n p _ hr hp ih hlive => ?_
      exact hstep n p hlive hr hp.parent (ih (w.parent_live n hlive hr p hp.parent))
    exact hclimb n (w.live_known n hn) hn

theorem collectLeaves_leaves : ∃ l, collectLeaves s = .ok l ∧ l.Nodup ∧ ∀ n, n ∈ l ↔ EvictableLeaf s t n := by
  obtain ⟨l, hl, hnodup, hmem⟩ := collectLeaves_spec PyError.indexError .outOfFuel
    (fun n => decide ((s.node n).lockRef = 0)) w.rooted fun _ hl hlive =>
      length_le_of_lt hl fun n hn => (w.live_known n (hlive n hn)).2
  refine ⟨l, hl, hnodup, fun n => (hmem n).trans ?_⟩
  rw [decide_eq_true_eq, Dict.values_eq_nil]
  exact ⟨fun ⟨h1, h2, h3, h4⟩ => ⟨h1, h2, h3, h4⟩, fun h => ⟨h.live, h.not_root, h.leaf, h.unlocked⟩⟩

end

/-! ## `evict` -/

/-- From `s` with view `t`, the nodes of `xs` were taken out in this order, each of them an
    unlocked leaf when its turn came. -/
inductive Evicts (s : RadixCache) (t : View) : List NodeId → RadixCache → View → Prop where
  | refl : Evicts s t [] s t
  | prune {xs s1 t1 s2 s3 x p k} : Evicts s t xs s1 t1 → EvictableLeaf s1 t1 x → (s1.node x).parent = some p →
      Pruned s1 s2 x p k → SameTree s2 s3 → SameLocks s2 s3 → Evicts s t (xs ++ [x]) s3 (t1.prune x)

namespace Evicts

variable {xs : List NodeId}

section
variable (h : Evicts s t xs s' t')
include h

theorem root : s'.rootNode = s.rootNode := by
  induction h with
  | refl => rfl
  | prune _ _ _ hp hsame _ ih => rw [hsame.root, hp.root, ih]

theorem wf (w : Wf pageSize s t) : Wf pageSize s' t' := by
  induction h with
  | refl => exact w
  | prune _ hx hxp hp hsame _ ih => exact (ih.prune hp hx.live hx.not_root hxp hx.leaf).sameTree hsame

theorem counter : s'.counter = s.counter := by
  induction h with
  | refl => rfl
  | prune _ _ _ hp hsame _ ih => rw [hsame.counter, hp.counter, ih]

/-- An eviction leaves the keys, slots, parents and locks of all nodes alone. -/
theorem node_eq (n : NodeId) :
    (s'.node n).key = (s.node n).key ∧ (s'.node n).value = (s.node n).value ∧ (s'.node n).parent = (s.node n).parent ∧
      (s'.node n).lockRef = (s.node n).lockRef := by
  induction h with
  | refl => exact ⟨rfl, rfl, rfl, rfl⟩
  | prune _ _ _ hp hsame hlocks ih =>
    rw [hsame.key, hp.key, hsame.value, hp.value, hsame.parent, hp.parent, hlocks.lock, hp.lock]
    exact ih

theorem view_eq : t'.path = t.path ∧ t'.slots = t.slots ∧ t'.ups = t.ups ∧ t'.live = t.live.filter (· ∉ xs) := by
  induction h with
  | refl =>
    refine ⟨rfl, rfl, rfl, ?_⟩
    rw [Finset.filter_true_of_mem fun n _ => not_mem_nil]
  | prune _ _ _ _ _ _ ih =>
    refine ⟨ih.1, ih.2.1, ih.2.2.1, ?_⟩
    ext n
    simp only [View.prune, mem_erase, ih.2.2.2, Finset.mem_filter, mem_append, mem_singleton, not_or]
    tauto

theorem sizes :
    s'.evictableSize = s.evictableSize - (xs.map fun x => ((s.node x).key.len : Int)).sum ∧
    s'.protectedSize = s.protectedSize := by
  induction h with
  | refl => simp
  | @prune _ _ _ _ _ x _ _ h1 _ _ hp hsame hlocks ih =>
    rw [hlocks.evictable, hp.evictable, ih.1, hlocks.protected_, hp.protected_, ih.2, (h1.node_eq x).1]
    refine ⟨?_, rfl⟩
    simp only [map_append, map_cons, map_nil, sum_append, sum_cons, sum_nil]
    omega

/-- What is taken out was an unlocked node of the tree below the root, and nothing is taken
    out twice. -/
theorem mem : xs.Nodup ∧ ∀ x ∈ xs, x ∈ t.live ∧ x ≠ s.rootNode ∧ (s.node x).lockRef = 0 := by
  induction h with
  | refl => exact ⟨nodup_nil, by simp⟩
  | @prune _ _ _ _ _ x _ _ h1 hx _ _ _ _ ih =>
    have hlive := hx.live
    rw [h1.view_eq.2.2.2, Finset.mem_filter] at hlive
    refine ⟨nodup_append.mpr ⟨ih.1, nodup_singleton _, ?_⟩, ?_⟩
    · rintro a ha b hb rfl
      obtain rfl := mem_singleton.mp hb
      exact hlive.2 ha
    · intro y hy
      rcases mem_append.mp hy with hy | hy
      · exact ih.2 y hy
      · obtain rfl := mem_singleton.mp hy
        exact ⟨hlive.1, h1.root ▸ hx.not_root, (h1.node_eq y).2.2.2 ▸ hx.unlocked⟩

end

end Evicts

/-- The invariant of the loop of `evict`: the heap holds every leaf that may go, once. -/
structure Evicting (s : RadixCache) (t : View) (l : EvictLoop) (xs : List NodeId) (t' : View) : Prop where
  evicts : Evicts s t xs l.cache t'
  heap_nodup : (l.heap.map snd).Nodup
  heap : ∀ n, n ∈ l.heap.map snd ↔ EvictableLeaf l.cache t' n
  freed : l.freed = xs.map fun x => (s.node x).value
  numEvicted : l.numEvicted = (xs.map fun x => ((s.node x).value.length : Int)).sum

/-- The leaves that may go once `x` is out: those of before, and its parent if that is one
    now. -/
theorem EvictableLeaf.pruned {x : NodeId} {k : ChildKey} (w : Wf pageSize s t) (hx : EvictableLeaf s t x)
    (hxp : (s.node x).parent = some p) (h : Pruned s s' x p k) (n : NodeId) : EvictableLeaf s' (t.prune x) n ↔
      (EvictableLeaf s t n ∧ n ≠ x) ∨ (n = p ∧ (s'.node p).children.items = [] ∧ (s'.node p).lockRef = 0) := by
  have hplive := w.parent_live x hx.live hx.not_root p hxp
  have hpx : p ≠ x := by
    rintro rfl
    exact lt_irrefl _ (w.parent_hangs (w.live_known p hx.live) hx.not_root hxp).path_lt
  constructor
  · rintro ⟨hlive, hroot, hleaf, hlock⟩
    obtain ⟨hnx, hlive⟩ := mem_erase.mp hlive
    by_cases hnp : n = p
    · subst hnp
      exact .inr ⟨rfl, hleaf, hlock⟩
    · refine .inl ⟨⟨hlive, h.root ▸ hroot, h.children n hnp ▸ hleaf, h.lock n ▸ hlock⟩, hnx⟩
  · rintro (⟨⟨hlive, hroot, hleaf, hlock⟩, hnx⟩ | ⟨rfl, hleaf, hlock⟩)
    · have hnp : n ≠ p := by
        rintro rfl
        have := h.entry
        rw [hleaf] at this
        cases this
      exact ⟨mem_erase.mpr ⟨hnx, hlive⟩, h.root.symm ▸ hroot, (h.children n hnp).symm ▸ hleaf, (h.lock n).symm ▸ hlock⟩
    · refine ⟨mem_erase.mpr ⟨hpx, hplive⟩, ?_, hleaf, hlock⟩
      rw [h.root]
      rintro rfl
      rw [h.lock, w.root_lock] at hlock
      cases hlock

theorem evictStep_spec (w : Wf pageSize s t) {l : EvictLoop} {xs : List NodeId} (h : Evicting s t l xs t')
    (hne : l.heap ≠ []) : ∃ l' x, evictStep cfg l = .ok l' ∧ Evicting s t l' (xs ++ [x]) (t'.prune x) ∧ x ∈ t'.live := by
  have w' := h.evicts.wf w
  obtain ⟨⟨prio, x⟩, rest, hpop⟩ := heappop_isSome l.cache.entryLt hne
  have hperm := (heappop_perm l.cache.entryLt hpop).map snd
  rw [map_cons] at hperm
  have hnodup := hperm.nodup_iff.mpr h.heap_nodup
  obtain ⟨hxrest, hrest⟩ := nodup_cons.mp hnodup
  have hx : EvictableLeaf l.cache t' x := (h.heap x).mp (hperm.mem_iff.mp mem_cons_self)
  obtain ⟨p, hp⟩ := w'.hangs x (w'.live_known x hx.live) hx.not_root
  have hplive := w'.parent_live x hx.live hx.not_root p hp.parent
  obtain ⟨k, hk⟩ := getChildKey_ok pageSize (length_pos_iff.mp hp.key_pos)
  have hentry := (w'.child_iff p hplive k x).mpr ⟨hx.live, hx.not_root, hp.parent, hk⟩
  obtain ⟨s1, hs1, hpruned⟩ := deleteLeaf_spec hp.parent hentry (by
    intro k' hk'
    have := ((w'.child_iff p hplive k' x).mp hk').2.2.2
    rw [hk] at this
    exact (Except.ok.inj this).symm)
  have hsame : SameTree s1 (recordRemoveEvent cfg s1 x) := by
    rw [recordRemoveEvent_eq]
    exact ⟨rfl, rfl, fun _ => rfl, fun _ => rfl, fun _ => rfl, fun _ => rfl, rfl⟩
  have hlocks : SameLocks s1 (recordRemoveEvent cfg s1 x) := by
    rw [recordRemoveEvent_eq]
    exact ⟨rfl, rfl, fun _ => rfl⟩
  have hleaf : ∀ n, EvictableLeaf (recordRemoveEvent cfg s1 x) (t'.prune x) n ↔ EvictableLeaf s1 (t'.prune x) n := by
    intro n
    rw [recordRemoveEvent_eq]
    exact ⟨fun h => ⟨h.live, h.not_root, h.leaf, h.unlocked⟩, fun h => ⟨h.live, h.not_root, h.leaf, h.unlocked⟩⟩
  unfold evictStep
  rw [hpop]
  simp only [hs1, ok_bind, hpruned.parent, hp.parent]
  refine ⟨_, x, rfl, ⟨.prune h.evicts hx hp.parent hpruned hsame hlocks, ?_, ?_, ?_, ?_⟩, hx.live⟩
  · dsimp only
    split
    · rename_i hpush
      have hpush' := (heappush_perm s1.entryLt rest (heapEntry cfg s1 p)).map snd
      refine hpush'.nodup_iff.mpr (nodup_cons.mpr ⟨fun hmem => ?_, hrest⟩)
      -- `p` was no leaf before
      have hpl := (h.heap p).mp (hperm.mem_iff.mp (mem_cons_of_mem x hmem))
      rw [hpl.leaf] at hentry
      cases hentry
    · exact hrest
  · intro n
    rw [hleaf, EvictableLeaf.pruned w' hx hp.parent hpruned, ← h.heap, ← hperm.mem_iff, mem_cons]
    have hrestx : n ∈ rest.map snd → n ≠ x := fun hm e => hxrest (e ▸ hm)
    split
    · rename_i hpush
      have hpush' := (heappush_perm s1.entryLt rest (heapEntry cfg s1 p)).map snd
      rw [hpush'.mem_iff, map_cons, mem_cons]
      constructor
      · rintro (rfl | hm)
        · exact .inr ⟨rfl, hpush⟩
        · exact .inl ⟨.inr hm, hrestx hm⟩
      · rintro (⟨rfl | hm, hnx⟩ | ⟨rfl, -⟩)
        · exact absurd rfl hnx
        · exact .inr hm
        · exact .inl rfl
    rename_i hpush
    constructor
    · intro hm
      exact .inl ⟨.inr hm, hrestx hm⟩
    · rintro (⟨rfl | hm, hnx⟩ | ⟨rfl, h'⟩)
      · exact absurd rfl hnx
      · exact hm
      · exact absurd h' hpush
  · simp [h.freed, (h.evicts.node_eq x).2.1]
  · simp [h.numEvicted, (h.evicts.node_eq x).2.1]

theorem evict_spec (hd : cfg.disable = false) (w : Wf pageSize s t) (numTokens : Int) :
    ∃ s' t' xs, evict cfg s numTokens = .ok (s', xs.map fun x => (s.node x).value) ∧ Evicts s t xs s' t' ∧
      (numTokens ≤ (xs.map fun x => ((s.node x).value.length : Int)).sum ∨ ∀ n, ¬ EvictableLeaf s' t' n) := by
  obtain ⟨leaves, hleaves, hnodup, hmem⟩ := collectLeaves_leaves w
  have hperm := (heapify_perm s.entryLt (leaves.map (heapEntry cfg s))).map snd
  have hsnd : (leaves.map (heapEntry cfg s)).map snd = leaves := by
    rw [map_map]
    exact map_id leaves
  rw [hsnd] at hperm
  have hstart : Evicting s t { cache := s, heap := heapify s.entryLt (leaves.map (heapEntry cfg s)) } [] t :=
    ⟨.refl, hperm.nodup_iff.mpr hnodup, fun n => by rw [hperm.mem_iff, hmem], rfl, rfl⟩
  have hcard : t.live.card ≤ s.counter := by
    have hsub : t.live ⊆ Finset.range s.counter := fun n hn => Finset.mem_range.mpr (w.live_known n hn).2
    simpa using Finset.card_le_card hsub
  obtain ⟨l, m, hrun, ⟨xs, t', h, -⟩, hend⟩ := whileLoop_bound PyError.outOfFuel (EvictLoop.goesOn numTokens) (evictStep cfg)
    (fun l m => ∃ xs t', Evicting s t l xs t' ∧ m = t'.live.card)
    (by
      rintro l m ⟨xs, t', h, rfl⟩ hc
      have hne : l.heap ≠ [] := (of_decide_eq_true hc).2
      obtain ⟨l', x, hl', h', hx⟩ := evictStep_spec w h hne
      exact ⟨l', _, hl', ⟨_, _, h', rfl⟩, Finset.card_erase_lt_of_mem hx⟩)
    s.counter _ _ ⟨[], t, hstart, rfl⟩ hcard
  refine ⟨l.cache, t', xs, ?_, h.evicts, ?_⟩
  · unfold evict
    simp only [hd, Bool.false_eq_true, if_false, hleaves, ok_bind]
    rw [hrun, ← h.freed]
    rfl
  have hstop := of_decide_eq_false hend
  by_cases hlt : l.numEvicted < numTokens
  · right
    intro n hn
    have hnil : l.heap = [] := by
      by_contra hne
      exact hstop ⟨hlt, hne⟩
    have := (h.heap n).mpr hn
    rw [hnil] at this
    cases this
  · left
    rw [← h.numEvicted]
    omega

/-! ## `reset` -/

def View.fresh (root : NodeId) : View := ⟨{root}, fun _ => [], fun _ => [], fun _ => []⟩

theorem reset_eq (cfg : Config) (s : RadixCache) :
    (reset cfg s).rootNode = s.counter ∧ (reset cfg s).counter = s.counter + 1 ∧ (reset cfg s).evictableSize = 0 ∧
      (reset cfg s).protectedSize = 0 ∧ ((reset cfg s).node s.counter).children.items = [] ∧
      ((reset cfg s).node s.counter).lockRef = 1 := by
  unfold reset recordAllClearedEvent
  simp only [newTreeNode, modify, upd_same]
  split <;> simp

theorem reset_known (h : (reset cfg s).Known n) : n = (reset cfg s).rootNode := by
  unfold Known at h
  rw [(reset_eq cfg s).1, (reset_eq cfg s).2.1] at *
  exact le_antisymm (Nat.lt_succ_iff.mp h.2) h.1

theorem reset_wf (cfg : Config) (s : RadixCache) : Wf pageSize (reset cfg s) (View.fresh (reset cfg s).rootNode) := by
  obtain ⟨hroot, hcounter, -, -, hchildren, hlock⟩ := reset_eq cfg s
  have hlive : ∀ n ∈ (View.fresh (reset cfg s).rootNode).live, n = (reset cfg s).rootNode := fun n => Finset.mem_singleton.mp
  refine ⟨⟨?_, rfl, rfl, rfl, ?_, Finset.mem_singleton_self _⟩, ?_, ?_, ?_, ?_, ?_⟩
  · rw [hroot, hcounter]
    exact Nat.lt_succ_self _
  · rw [hroot]
    exact hlock
  · intro n hn hr
    exact absurd (reset_known hn) hr
  · intro n hn
    rw [hlive n hn]
    exact ⟨le_refl _, by rw [hroot, hcounter]; exact Nat.lt_succ_self _⟩
  · intro n hn hr
    exact absurd (hlive n hn) hr
  · intro p hp k c
    rw [hlive p hp, hroot, hchildren]
    constructor
    · nofun
    · rintro ⟨hc, hr, -⟩
      exact absurd (Finset.mem_singleton.mp hc) hr
  · intro c hc hr
    exact absurd (hlive c hc) hr

end RadixCache

end DynaSpec.MemCache
