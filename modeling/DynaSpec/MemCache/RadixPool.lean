/-
  DynaSpec.MemCache.RadixPool — a radix cache and the allocator whose slots it holds
  (radix_cache.py, allocator.py), and the allocation that evicts from the one into the other
  (`alloc_token_slots`, `alloc_paged_token_slots_extend` of mem_cache/common.py).

  Pages are free, held by nodes of the tree, or handed out. An eviction takes pages of
  unlocked nodes until there are enough or there is no unlocked node left
  (`Ready.evictFromTreeCache`), so an allocation fails only when the free pages and those of
  the unlocked nodes together are too few.

  - `alloc_exact`: when the two functions raise, and where the slots that they return come
    from, after every run of calls in which callers insert and free only what they were
    handed.
  - `extend_fills_partial_page`: an extend also returns the slots of the last page of a
    sequence that is filled in part, a page that is neither free nor in the tree.
-/

import DynaSpec.MemCache.RadixHolds
import Mathlib.Algebra.Order.BigOperators.Group.Finset
import Mathlib.Tactic.Abel

namespace DynaSpec.MemCache

open DynaSpec.Lib Allocator List RadixCache Nat
open RadixCache.View (fresh)
open Multiset (card_add coe_add coe_card coe_eq_coe coe_nodup disjoint_left mem_add mem_coe nodup_add)

structure Pool where
  cache : RadixCache
  allocator : Allocator

inductive AllocError where
  | python (e : PyError)
  | runtimeError (msg : String)
  | notImplementedError (msg : String)

namespace Pool

section
variable (cfg : Config)

variable (s : Pool)

def free (freeIndex : List Nat) : Pool := { s with allocator := s.allocator.free freeIndex }

/-- `evict`, with the calls of `free` that it makes. -/
def evict (numTokens : Int) : Except PyError Pool := do
  let (cache, freed) ← s.cache.evict cfg numTokens
  return { cache, allocator := freed.foldl Allocator.free s.allocator }

def evictFromTreeCache (numTokens : Nat) : Except PyError Pool :=
  if s.allocator.availableSize < numTokens then s.evict cfg numTokens else .ok s

def availableAndEvictableStr : String :=
  "Available tokens: " ++ toString (s.allocator.availableSize + s.cache.evictableSize) ++ " (available_size=" ++
    toString s.allocator.availableSize ++ " + evictable_size=" ++ toString s.cache.evictableSize ++ ")\n"

def allocTokenSlots (numTokens : Nat) : Except AllocError (Pool × List Nat) :=
  match s.evictFromTreeCache cfg numTokens with
  | .error e => .error (.python e)
  | .ok s =>
    match if s.allocator.pageSize = 1 then s.allocator.alloc numTokens else s.allocator.allocPaged numTokens with
    | (_, none) =>
      .error (.runtimeError ("Out of memory. Try to lower your batch size.\nTry to allocate " ++ toString numTokens ++
        " tokens.\n" ++ s.availableAndEvictableStr))
    | (allocator, some outCacheLoc) => .ok ({ s with allocator }, outCacheLoc)

def allocPagedTokenSlotsExtend (sched : Schedule) (s : Pool) (bs : Nat) (prefixLens seqLens : Nat → Nat) (lastLoc : Nat → Int)
    (extendNumTokens : Nat) : Except AllocError (Pool × (Nat → Nat)) :=
  -- over estimate the number of tokens: assume each request needs a new page
  match s.evictFromTreeCache cfg (extendNumTokens + bs * s.allocator.pageSize) with
  | .error e => .error (.python e)
  | .ok s =>
    if s.allocator.pageSize = 1 then .error (.notImplementedError "alloc_extend is only for paged allocator")
    else match s.allocator.allocExtend sched bs prefixLens seqLens lastLoc extendNumTokens with
      | (_, none) => .error (.runtimeError ("Prefill out of memory. Try to lower your batch size.\nTry to allocate " ++
          toString extendNumTokens ++ " tokens.\n" ++ s.availableAndEvictableStr))
      | (allocator, some outCacheLoc) => .ok ({ s with allocator }, outCacheLoc)

end

/-! ## What holds of a cache and its allocator -/

/-- An allocator outside of a free group. -/
structure Usable (pageSize : Nat) (a : Allocator) : Prop where
  pageSize : a.pageSize = pageSize
  notInFreeGroup : a.isNotInFreeGroup = true
  merged : a.Merged

structure Ready (cfg : Config) (s : Pool) (t : View) (held : List NodeId) : Prop extends Usable cfg.pageSize s.allocator where
  wf : Wf cfg.pageSize s.cache t
  aligned : AlignedTree cfg.pageSize s.cache
  locked : Locked s.cache t held
  whole : WholeTree cfg.pageSize s.cache (t.live.erase s.cache.rootNode)
  disabled : cfg.disable = true → t.live = {s.cache.rootNode}

variable {cfg : Config} {s s' : Pool} {t t' : View} {held : List NodeId}

/-- The pages that are free or in the tree. -/
def pages (pageSize : Nat) (s : Pool) (t : View) : Multiset Nat :=
  (s.allocator.allFree : Multiset Nat) + pagesAt pageSize s.cache (t.live.erase s.cache.rootNode)

theorem availableSize_eq (a : Allocator) : a.availableSize = a.allFree.length * a.pageSize := by
  rw [availableSize, allFree, length_append]

variable {pool : List Nat} {held' : List NodeId} {c : RadixCache} {a : Allocator} {n : NodeId}

variable {pageSize : Nat}

theorem Usable.free (h : Usable pageSize a) (l : List Nat) : Usable pageSize (a.free l) :=
  ⟨(free_pageSize a l).trans h.pageSize, (free_isNotInFreeGroup a l).trans h.notInFreeGroup, free_merged h.merged l⟩

/-- What a row of calls of `free` adds. -/
theorem Usable.foldl_free (h : Usable pageSize a) (ls : List (List Nat)) : Usable pageSize (ls.foldl Allocator.free a) ∧
    ((ls.foldl Allocator.free a).allFree : Multiset Nat) =
      (ls.map fun l => (pagesOf pageSize l : Multiset Nat)).sum + (a.allFree : Multiset Nat) := by
  induction ls generalizing a with
  | nil => exact ⟨h, by simp⟩
  | cons l ls ih =>
    obtain ⟨husable, hfree⟩ := ih (h.free l)
    refine ⟨husable, ?_⟩
    rw [foldl_cons, hfree, map_cons, sum_cons, coe_eq_coe.mpr (free_perm h.notInFreeGroup l), h.pageSize, ← coe_add]
    abel

/-- What stays in the tree: the nodes that are locked, and no node is new. -/
structure Spared (pageSize : Nat) (c : RadixCache) (t : View) (c' : RadixCache) (t' : View) : Prop where
  locked : ∀ n ∈ t.live.erase c.rootNode, (c.node n).lockRef ≠ 0 → n ∈ t'.live.erase c'.rootNode ∧
    nodePages pageSize c' n = nodePages pageSize c n
  root : c'.rootNode = c.rootNode
  stays : ∀ n ∈ t'.live, Stays c t c' t' n

/-- What an eviction did: pages went from unlocked nodes of the tree to the allocator. -/
structure Evicted (pageSize : Nat) (s : Pool) (t : View) (s' : Pool) (t' : View) :
    Prop extends Spared pageSize s.cache t s'.cache t' where
  pages : s'.pages pageSize t' = s.pages pageSize t
  size : (s'.allocator.availableSize : Int) + s'.cache.evictableSize = s.allocator.availableSize + s.cache.evictableSize
  source : ∀ p ∈ s'.allocator.allFree, p ∈ s.allocator.allFree ∨ ∃ n ∈ t.live.erase s.cache.rootNode,
    (s.cache.node n).lockRef = 0 ∧ p ∈ nodePages pageSize s.cache n

theorem Evicted.refl (pageSize : Nat) (s : Pool) (t : View) : Evicted pageSize s t s t :=
  ⟨⟨fun _ hn _ => ⟨hn, rfl⟩, rfl, fun _ hn => .refl hn⟩, rfl, rfl, fun _ hp => .inl hp⟩

section
variable (h : Ready cfg s t held)
include h

theorem Ready.evictable_nonneg : 0 ≤ s.cache.evictableSize := by
  rw [h.locked.sized.evictable]
  refine Finset.sum_nonneg fun n _ => ?_
  unfold evictablePart
  split <;> omega

/-- Nothing may go from the tree of a disabled cache. -/
theorem Ready.evict_cases (numTokens : Int) : ∃ c t' xs,
    s.cache.evict cfg numTokens = .ok (c, xs.map fun x => (s.cache.node x).value) ∧
      Evicts s.cache t xs c t' ∧
      (numTokens ≤ (xs.map fun x => ((s.cache.node x).value.length : Int)).sum ∨ ∀ n, ¬ EvictableLeaf c t' n) := by
  cases hd : cfg.disable with
  | false => exact evict_spec hd h.wf numTokens
  | true =>
    refine ⟨s.cache, t, [], by simp [RadixCache.evict, hd], .refl, .inr fun n hn => hn.not_root ?_⟩
    have := hn.live
    rw [h.disabled hd] at this
    exact Finset.mem_singleton.mp this

theorem Ready.evict (hps : 0 < cfg.pageSize) (numTokens : Int) :
    ∃ s' t', s.evict cfg numTokens = .ok s' ∧ Ready cfg s' t' held ∧ Evicted cfg.pageSize s t s' t' ∧
      (s.allocator.availableSize + min numTokens s.cache.evictableSize : Int) ≤ s'.allocator.availableSize := by
  obtain ⟨c, t', xs, hrun, hev, hstop⟩ := h.evict_cases numTokens
  obtain ⟨hwhole, hpages⟩ := h.whole.evicts hev
  obtain ⟨husable, hfree⟩ := h.foldl_free (xs.map fun x => (s.cache.node x).value)
  set freed := (xs.map fun x => (s.cache.node x).value).foldl Allocator.free s.allocator
  have hsum := hev.sum_value h.wf
  have henough := h.locked.evicted_enough h.wf hev hstop
  have hxs : ∀ x ∈ xs, x ∈ t.live.erase s.cache.rootNode := fun x hx =>
    Finset.mem_erase.mpr ⟨(hev.mem.2 x hx).2.1, (hev.mem.2 x hx).1⟩
  rw [map_map] at hfree
  have hnodes : (xs.map ((fun l => (pagesOf cfg.pageSize l : Multiset Nat)) ∘ fun x => (s.cache.node x).value)) =
      xs.map (nodePages cfg.pageSize s.cache) := rfl
  rw [hnodes] at hfree
  -- the slots of the removed nodes are as many as the slots of their pages
  have hcount : ∀ ys : List NodeId, (∀ x ∈ ys, x ∈ t.live.erase s.cache.rootNode) →
      (((ys.map (nodePages cfg.pageSize s.cache)).sum.card * cfg.pageSize : Nat) : Int) =
        (ys.map fun x => ((s.cache.node x).value.length : Int)).sum := by
    intro ys
    induction ys with
    | nil => intro _; simp
    | cons y ys ih =>
      intro hys
      have hy := card_nodePages hps (h.whole y (hys y mem_cons_self))
      rw [map_cons, sum_cons, map_cons, sum_cons, card_add, add_mul, hy, cast_add,
        ih fun x hx => hys x (mem_cons_of_mem y hx)]
  have hcount := hcount xs hxs
  have havail : (freed.availableSize : Int) = s.allocator.availableSize +
    (xs.map fun x => ((s.cache.node x).value.length : Int)).sum := by
    rw [availableSize_eq, availableSize_eq, husable.pageSize, h.pageSize, ← coe_card, hfree, card_add, coe_card,
      ← hcount, add_mul]
    omega
  refine ⟨⟨c, freed⟩, t', ?_, ?_, ?_, ?_⟩
  · rw [Pool.evict, hrun]
    rfl
  · refine ⟨husable, hev.wf h.wf, h.aligned.evicts hev, h.locked.evicts h.wf hev, hwhole, fun hd => ?_⟩
    have hlive := hev.view_eq.2.2.2
    rw [h.disabled hd] at hlive
    have hroot := (hev.wf h.wf).root_live
    rw [hev.root] at hroot ⊢
    rw [hlive] at hroot ⊢
    exact Finset.filter_true_of_mem fun n hn => by
      rw [Finset.mem_singleton.mp hn]
      exact (Finset.mem_filter.mp hroot).2
  · refine ⟨⟨?_, hev.root, fun n hn => hev.stays hn⟩, ?_, ?_, ?_⟩
    · intro n hn hlock
      refine ⟨?_, by rw [nodePages, nodePages, (hev.node_eq n).2.1]⟩
      rw [hev.root, hev.view_eq.2.2.2, Finset.mem_erase, Finset.mem_filter]
      exact ⟨Finset.ne_of_mem_erase hn, Finset.mem_of_mem_erase hn, fun hx => hlock (hev.mem.2 n hx).2.2⟩
    · unfold pages
      rw [hfree, hpages]
      abel
    · show (freed.availableSize : Int) + c.evictableSize = _
      rw [havail, hsum]
      omega
    · intro p hp
      have hp : p ∈ (xs.map (nodePages cfg.pageSize s.cache)).sum + (s.allocator.allFree : Multiset Nat) :=
        hfree ▸ mem_coe.mpr hp
      rcases mem_add.mp hp with hp | hp
      · rw [← Multiset.sum_coe] at hp
        obtain ⟨m, hm, hpm⟩ := Multiset.mem_join.mp hp
        obtain ⟨x, hx, rfl⟩ := mem_map.mp (mem_coe.mp hm)
        exact .inr ⟨x, hxs x hx, (hev.mem.2 x hx).2.2, hpm⟩
      · exact .inl (mem_coe.mp hp)
  · show _ ≤ (freed.availableSize : Int)
    rw [havail]
    omega

/-- An over-estimate of what is needed does not make an allocation fail. -/
theorem Ready.evictFromTreeCache (hps : 0 < cfg.pageSize) (numTokens : Nat) :
    ∃ s' t', s.evictFromTreeCache cfg numTokens = .ok s' ∧ Ready cfg s' t' held ∧ Evicted cfg.pageSize s t s' t' ∧
      ∀ need ≤ numTokens, s'.allocator.availableSize < need ↔
      s.allocator.availableSize + s.cache.evictableSize < (need : Int) := by
  unfold Pool.evictFromTreeCache
  split
  · obtain ⟨s', t', hrun, h', hev, hmin⟩ := h.evict hps numTokens
    refine ⟨s', t', hrun, h', hev, fun need hneed => ?_⟩
    have := hev.size
    have := h'.evictable_nonneg
    omega
  · refine ⟨s, t, rfl, h, Evicted.refl _ _ _, fun need hneed => ?_⟩
    have := h.evictable_nonneg
    omega

end

/-! ## Allocation -/

/-- What an allocation did: after an eviction, `n` pages were taken from the free ones. -/
structure Allocated (cfg : Config) (s : Pool) (t : View) (held : List NodeId) (n : Nat) (pool : List Nat) (s' : Pool)
    (t' : View) : Prop extends Spared cfg.pageSize s.cache t s'.cache t' where
  ready : Ready cfg s' t' held
  pages : (pool.take n : Multiset Nat) + s'.pages cfg.pageSize t' = s.pages cfg.pageSize t
  le : n ≤ pool.length
  source : ∀ p ∈ pool, p ∈ s.allocator.allFree ∨ ∃ n ∈ t.live.erase s.cache.rootNode, (s.cache.node n).lockRef = 0 ∧
    p ∈ nodePages cfg.pageSize s.cache n

theorem Evicted.allocated {s1 : Pool} {n : Nat} (hev : Evicted cfg.pageSize s t s1 t')
    (h : Ready cfg s1 t' held) (htook : Took s1.allocator a n pool) (hm : a.Merged) :
    Allocated cfg s t held n pool { s1 with allocator := a } t' where
  toSpared := hev.toSpared
  ready := ⟨⟨htook.pageSize.trans h.pageSize, htook.isNotInFreeGroup.trans h.notInFreeGroup, hm⟩, h.wf, h.aligned, h.locked,
    h.whole, h.disabled⟩
  pages := by
    rw [← hev.pages]
    unfold Pool.pages
    rw [← add_assoc, coe_add, coe_eq_coe.mpr htook.allFree_perm]
  le := htook.le
  source p hp := hev.source p (htook.perm.mem_iff.mp (mem_append_left _ hp))

/-- The allocation of both kinds of allocator. -/
theorem alloc_cases (hm : a.Merged) (hps : 0 < a.pageSize) (n : Nat) :
    (∃ a', (if a.pageSize = 1 then a.alloc n else a.allocPaged n) = (a', none) ∧ a.availableSize < n / a.pageSize * a.pageSize) ∨
    ∃ a' pool, (if a.pageSize = 1 then a.alloc n else a.allocPaged n) =
        (a', some (wholePages a.pageSize (pool.take (n / a.pageSize)))) ∧ Took a a' (n / a.pageSize) pool ∧ a'.Merged ∧
      ¬ a.availableSize < n / a.pageSize * a.pageSize := by
  have hcall : (if a.pageSize = 1 then a.alloc n else a.allocPaged n) =
      ((a.alloc (n / a.pageSize)).1, (a.alloc (n / a.pageSize)).2.map (wholePages a.pageSize)) := by
    split
    · rename_i h1
      rw [h1, Nat.div_one]
      cases hres : a.alloc n with
      | mk a' out => cases out <;> simp [wholePages_one]
    · exact allocPaged_eq a n
  have hlt : a.availableSize < n / a.pageSize * a.pageSize ↔ a.allFree.length < n / a.pageSize := by
    rw [availableSize_eq]
    exact Nat.mul_lt_mul_right hps
  rw [hcall, hlt, ← alloc_eq_none hm]
  have hmerged := alloc_merged hm (n / a.pageSize)
  cases hres : a.alloc (n / a.pageSize) with
  | mk a' out =>
    rw [hres] at hmerged
    cases out with
    | none => exact .inl ⟨a', rfl, rfl⟩
    | some out =>
      obtain ⟨pool, htook, rfl⟩ := alloc_spec hres
      exact .inr ⟨a', pool, rfl, htook, hmerged, by simp⟩

section
variable (hps : 0 < cfg.pageSize) (h : Ready cfg s t held)
include hps h

theorem Ready.allocTokenSlots (n : Nat) : ((∃ e, s.allocTokenSlots cfg n = .error e) ∧
      s.allocator.availableSize + s.cache.evictableSize < ((n / cfg.pageSize * cfg.pageSize : Nat) : Int)) ∨
    ∃ s' t' pool, s.allocTokenSlots cfg n = .ok (s', wholePages cfg.pageSize (pool.take (n / cfg.pageSize))) ∧
      Allocated cfg s t held (n / cfg.pageSize) pool s' t' ∧
      ¬ s.allocator.availableSize + s.cache.evictableSize < ((n / cfg.pageSize * cfg.pageSize : Nat) : Int) := by
  obtain ⟨s1, t1, hrun, h1, hev, hiff⟩ := h.evictFromTreeCache hps n
  have hneed := hiff _ (div_mul_le_self n cfg.pageSize)
  unfold Pool.allocTokenSlots
  rw [hrun, ← hneed]
  dsimp only
  rcases alloc_cases h1.merged (h1.pageSize ▸ hps) n with ⟨a, hcall, hlt⟩ | ⟨a, pool, hcall, htook, hm, hge⟩
  · rw [hcall]
    rw [h1.pageSize] at hlt
    exact .inl ⟨⟨_, rfl⟩, hlt⟩
  rw [hcall]
  rw [h1.pageSize] at htook hge ⊢
  exact .inr ⟨_, t1, pool, rfl, hev.allocated h1 htook hm, hge⟩

theorem Ready.allocPagedTokenSlotsExtend (hpaged : cfg.pageSize ≠ 1)
    (sched : Schedule) {bs : Nat} {prefixLens seqLens : Nat → Nat} {lastLoc : Nat → Int} (hle : ∀ i < bs,
    prefixLens i ≤ seqLens i) :
    ((∃ e, s.allocPagedTokenSlotsExtend cfg sched bs prefixLens seqLens lastLoc
    (offset (fun j => seqLens j - prefixLens j) bs) = .error e) ∧
      s.allocator.availableSize + s.cache.evictableSize <
        ((cfg.pageSize * getNumNewPages cfg.pageSize bs prefixLens seqLens : Nat) : Int)) ∨ ∃ s' t' pool out,
      s.allocPagedTokenSlotsExtend cfg sched bs prefixLens seqLens lastLoc (offset (fun j => seqLens j - prefixLens j) bs) =
        .ok (s', out) ∧
      Allocated cfg s t held (getNumNewPages cfg.pageSize bs prefixLens seqLens) pool s' t' ∧
      (∀ i < bs, ∀ k < seqLens i - prefixLens i, out (offset (fun j => seqLens j - prefixLens j) i + k) =
        extendSlot cfg.pageSize (prefixLens i) (lastLoc i) pool
          (offset (fun j => pageCount cfg.pageSize (seqLens j) - pageCount cfg.pageSize (prefixLens j)) i) k) ∧
      ¬ s.allocator.availableSize + s.cache.evictableSize <
        ((cfg.pageSize * getNumNewPages cfg.pageSize bs prefixLens seqLens : Nat) : Int) := by
  set total := offset (fun j => seqLens j - prefixLens j) bs
  obtain ⟨s1, t1, hrun, h1, hev, hiff⟩ := h.evictFromTreeCache hps (total + bs * cfg.pageSize)
  have hover : cfg.pageSize * getNumNewPages cfg.pageSize bs prefixLens seqLens ≤ total + bs * cfg.pageSize := by
    refine le_trans (mul_le_mul_left _ (getNumNewPages_le hps prefixLens seqLens bs)) ?_
    rw [mul_add, mul_comm cfg.pageSize bs]
    exact Nat.add_le_add_right (Nat.mul_div_le _ _) _
  have hneed := hiff _ hover
  have hps1 : 0 < s1.allocator.pageSize := h1.pageSize ▸ hps
  have hnum : ∀ i < bs, seqLens i - prefixLens i ≤ total := by
    intro i hi
    have := offset_le (fun j => seqLens j - prefixLens j) hi
    omega
  have hnone : s1.allocator.availableSize < cfg.pageSize * getNumNewPages cfg.pageSize bs prefixLens seqLens ↔
      (s1.allocator.allocExtend sched bs prefixLens seqLens lastLoc total).2 = none := by
    rw [allocExtend_eq_none hps1 h1.merged, availableSize_eq, h1.pageSize, mul_comm cfg.pageSize]
    exact Nat.mul_lt_mul_right hps
  unfold Pool.allocPagedTokenSlotsExtend
  rw [h.pageSize, hrun, ← hneed, hnone]
  dsimp only
  rw [if_neg (h1.pageSize ▸ hpaged)]
  have hmerged : (s1.allocator.allocExtend sched bs prefixLens seqLens lastLoc total).1.Merged :=
    allocExtend_merged h1.merged
  cases hres : s1.allocator.allocExtend sched bs prefixLens seqLens lastLoc total with
  | mk a out =>
    rw [hres] at hmerged
    cases out with
    | none => exact .inl ⟨⟨_, rfl⟩, rfl⟩
    | some out =>
      obtain ⟨pool, htook, hslots⟩ := allocExtend_spec hps1 hle hnum hres
      rw [h1.pageSize] at htook hslots
      exact .inr ⟨_, t1, pool, out, rfl, hev.allocated h1 htook hmerged, hslots, by simp⟩

theorem Ready.extend_page_one (h1 : cfg.pageSize = 1) (sched : Schedule) (bs : Nat)
    (prefixLens seqLens : Nat → Nat) (lastLoc : Nat → Int) (extendNumTokens : Nat) :
    ∃ e, s.allocPagedTokenSlotsExtend cfg sched bs prefixLens seqLens lastLoc extendNumTokens = .error e := by
  obtain ⟨s1, t1, hrun, hready, -⟩ := h.evictFromTreeCache hps (extendNumTokens + bs * s.allocator.pageSize)
  unfold Pool.allocPagedTokenSlotsExtend
  rw [hrun]
  dsimp only
  rw [if_pos (hready.pageSize.trans h1)]
  exact ⟨_, rfl⟩

end

/-! ## The other calls -/

theorem Ready.start (cfg : Config) (numPages : Nat) (needSort : Bool) : Ready cfg ⟨init cfg, clear cfg.pageSize numPages needSort⟩
      (fresh (init cfg).rootNode) [] := by
  obtain ⟨-, -, he, hp, -⟩ := reset_eq cfg blank
  have hL : (fresh (init cfg).rootNode).live.erase (init cfg).rootNode = ∅ := by
    simp [fresh]
  refine ⟨⟨rfl, rfl, fun _ => rfl⟩, reset_wf cfg _, fun n hn hr => absurd (reset_known hn) hr,
    ⟨by simp, fun n hn hr => ?_, ?_⟩, ?_, fun _ => rfl⟩
  · exact absurd (Finset.mem_singleton.mp hn) hr
  · exact ⟨by rw [hL]; exact he, by rw [hL]; exact hp⟩
  · intro n hn
    rw [hL] at hn
    cases hn

section
variable (h : Ready cfg s t held)
include h

theorem Ready.perm (hp : held.Perm held') : Ready cfg s t held' := by
  refine ⟨h.toUsable, h.wf, h.aligned, ⟨fun n hn => h.locked.held_live n (hp.mem_iff.mpr hn), fun n hn hr => ?_,
    h.locked.sized⟩, h.whole, h.disabled⟩
  rw [h.locked.lock n hn hr, holders, holders, hp.countP_eq]

section
variable (hps : 0 < cfg.pageSize) (hd : cfg.disable = false)
include hps hd

theorem Ready.steps (hsteps : Steps cfg.pageSize s.cache t c t') :
    Ready cfg { s with cache := c } t' held ∧ pages cfg.pageSize { s with cache := c } t' = s.pages cfg.pageSize t := by
  obtain ⟨hwhole, hpages⟩ := h.whole.steps hps h.wf hsteps
  exact ⟨⟨h.toUsable, hsteps.wf hps h.wf, hsteps.aligned hps h.wf h.aligned, h.locked.steps h.wf hps hsteps, hwhole,
    by simp [hd]⟩, congrArg _ hpages⟩

theorem Ready.inserted {key : RadixKey} {pages : List Nat}
    {r : Nat} (hdvd : cfg.pageSize ∣ key.len) (hplen : pages.length * cfg.pageSize = key.len)
    (hins : Inserted cfg.pageSize s.cache t key (wholePages cfg.pageSize pages) c t' r)
    (hnd : (pages.drop (r / cfg.pageSize)).Nodup) : Ready cfg { s with cache := c } t' held ∧
      Pool.pages cfg.pageSize { s with cache := c } t' = (pages.drop (r / cfg.pageSize) : List Nat) + s.pages cfg.pageSize t := by
  obtain ⟨hwhole, hpages⟩ := h.whole.inserted hps h.wf h.aligned hdvd hplen hins hnd
  refine ⟨⟨h.toUsable, hins.wf hps h.wf, h.aligned.inserted hps h.wf hdvd hins, h.locked.inserted h.wf hps hins, hwhole,
    by simp [hd]⟩, ?_⟩
  unfold Pool.pages
  rw [hpages]
  abel

theorem Ready.insert {key : RadixKey} {value pages : List Nat} (hlen : value.length = (insertKey cfg key).len ∨
      (cfg.isEagle = true ∧ (insertKey cfg key).len ≤ value.length)) (hdvd : cfg.pageSize ∣ (insertKey cfg key).len)
    (hvalue : value.take (RadixCache.insertKey cfg key).len = wholePages cfg.pageSize pages) :
    ∃ c t' r, RadixCache.insert cfg s.cache key value = .ok (c, r) ∧
      ((pages.drop (r / cfg.pageSize)).Nodup → Ready cfg { s with cache := c } t' held ∧
        Pool.pages cfg.pageSize { s with cache := c } t' = (pages.drop (r / cfg.pageSize) : List Nat) +
        s.pages cfg.pageSize t) := by
  obtain ⟨c, t', r, hcall, hins⟩ := insert_spec hps hd h.wf key hlen
  have hplen : pages.length * cfg.pageSize = (insertKey cfg key).len := by
    rw [← length_wholePages, ← hvalue, length_take]
    omega
  rw [hvalue] at hins
  exact ⟨c, t', r, hcall, h.inserted hps hd hdvd hplen hins⟩

end

/-- Locks change nothing but locks and sizes. -/
theorem Ready.relocked (hsame : SameTree s.cache c) (hl : Locked c t held') :
    Ready cfg { s with cache := c } t held' ∧ pages cfg.pageSize { s with cache := c } t = s.pages cfg.pageSize t := by
  refine ⟨⟨h.toUsable, h.wf.sameTree hsame, h.aligned.sameTree hsame, hl, ?_, ?_⟩, ?_⟩
  · show WholeTree cfg.pageSize c (t.live.erase c.rootNode)
    rw [hsame.root]
    exact h.whole.still fun n _ => hsame.value n
  · intro hd
    rw [h.disabled hd, hsame.root]
  · unfold pages
    rw [hsame.root, pagesAt_congr fun n _ => hsame.value n]

/-- A disabled cache has the root only, whatever is held. -/
theorem Ready.reheld (hd : cfg.disable = true) (hheld : ∀ m ∈ held', m ∈ t.live) : Ready cfg s t held' :=
  (h.relocked (RadixCache.SameTree.refl _) ⟨hheld, fun _ hm hr => absurd (Finset.mem_singleton.mp (h.disabled hd ▸ hm)) hr,
    h.locked.sized⟩).1

theorem Ready.incLockRef (hd : cfg.disable = false) (hn : n ∈ t.live) :
    ∃ c d, incLockRef cfg s.cache n = .ok (c, d) ∧ Ready cfg { s with cache := c } t (n :: held) ∧
      pages cfg.pageSize { s with cache := c } t = s.pages cfg.pageSize t ∧ SameTree s.cache c := by
  have hnk := h.wf.live_known n hn
  obtain ⟨d, hcall, hsame⟩ := incLockRef_spec hd h.wf hnk
  obtain ⟨hready, hpages⟩ := h.relocked hsame (h.locked.inc h.wf hn)
  exact ⟨_, d, hcall, hready, hpages, hsame⟩

theorem Ready.decLockRef (hd : cfg.disable = false) (hn : n ∈ held) :
    ∃ c d, decLockRef cfg s.cache n = .ok (c, d) ∧ Ready cfg { s with cache := c } t (held.erase n) ∧
      pages cfg.pageSize { s with cache := c } t = s.pages cfg.pageSize t ∧ SameTree s.cache c := by
  have hnk := h.locked.known h.wf hn
  obtain ⟨d, hcall, hsame⟩ := decLockRef_spec hd h.wf hnk
  obtain ⟨hready, hpages⟩ := h.relocked hsame (h.locked.dec h.wf hn)
  exact ⟨_, d, hcall, hready, hpages, hsame⟩

theorem Ready.free (freeIndex : List Nat) : Ready cfg (s.free freeIndex) t held ∧
    (s.free freeIndex).pages cfg.pageSize t = (pagesOf cfg.pageSize freeIndex : List Nat) + s.pages cfg.pageSize t := by
  refine ⟨⟨h.toUsable.free freeIndex, h.wf, h.aligned, h.locked, h.whole, h.disabled⟩, ?_⟩
  unfold Pool.pages Pool.free
  rw [coe_eq_coe.mpr (free_perm h.notInFreeGroup freeIndex), ← coe_add, h.pageSize, add_assoc]

end

/-! ## Runs -/

/-- A page that callers hold: it is not free and not in the tree. -/
def Handed (pageSize numPages : Nat) (s : Pool) (p : Nat) : Prop :=
  1 ≤ p ∧ p ≤ numPages ∧ p ∉ s.allocator.allFree ∧ p ∉ treePages pageSize s.cache

/-- What an extend is called with. A prefix that ends inside a page ends at `lastLoc` on a page
    that the caller holds. -/
structure Extends (pageSize numPages : Nat) (s : Pool) (bs : Nat) (prefixLens seqLens : Nat → Nat) (lastLoc : Nat → Int) :
    Prop where
  le : ∀ i < bs, prefixLens i ≤ seqLens i
  nonneg : ∀ i < bs, prefixLens i % pageSize ≠ 0 → 0 ≤ lastLoc i
  offset : ∀ i < bs, prefixLens i % pageSize ≠ 0 → ((lastLoc i).toNat + 1) % pageSize = prefixLens i % pageSize
  handed : ∀ i < bs, prefixLens i % pageSize ≠ 0 → Handed pageSize numPages s ((lastLoc i).toNat / pageSize)

/-- Calls on a cache and its allocator, with the locks that are held. Keys and values are whole
    pages, and callers insert and free only pages that they hold; the pages of a free group are
    freed at its end. -/
inductive Run (cfg : Config) (numPages : Nat) (needSort : Bool) : Pool → List NodeId → Prop where
  | init : Run cfg numPages needSort ⟨init cfg, clear cfg.pageSize numPages needSort⟩ []
  | matchPrefix {s : Pool} {held : List NodeId} {key : RadixKey} {c : RadixCache} {r : MatchResult} :
      Run cfg numPages needSort s held → matchPrefix cfg s.cache key = .ok (c, r) →
      Run cfg numPages needSort { s with cache := c } held
  | insert {s : Pool} {held : List NodeId} {key : RadixKey} {value pages : List Nat} {c : RadixCache} {r : Nat} :
      Run cfg numPages needSort s held →
      (value.length = (insertKey cfg key).len ∨ (cfg.isEagle = true ∧ (insertKey cfg key).len ≤ value.length)) →
      cfg.pageSize ∣ (insertKey cfg key).len →
      value.take (insertKey cfg key).len = wholePages cfg.pageSize pages →
      RadixCache.insert cfg s.cache key value = .ok (c, r) → (pages.drop (r / cfg.pageSize)).Nodup →
      (∀ p ∈ pages.drop (r / cfg.pageSize), Handed cfg.pageSize numPages s p) →
      Run cfg numPages needSort { s with cache := c } held
  | evict {s s' : Pool} {held : List NodeId} {numTokens : Int} : Run cfg numPages needSort s held →
    s.evict cfg numTokens = .ok s' →
      Run cfg numPages needSort s' held
  | incLockRef {s : Pool} {held : List NodeId} {n : NodeId} {c : RadixCache} {d : Int} : Run cfg numPages needSort s held →
      (∃ q w, Path s.cache n q w) → incLockRef cfg s.cache n = .ok (c, d) →
      Run cfg numPages needSort { s with cache := c } (n :: held)
  | decLockRef {s : Pool} {held : List NodeId} {n : NodeId} {c : RadixCache} {d : Int} : Run cfg numPages needSort s held →
    n ∈ held →
      decLockRef cfg s.cache n = .ok (c, d) → Run cfg numPages needSort { s with cache := c } (held.erase n)
  | free {s : Pool} {held : List NodeId} {freeIndex : List Nat} : Run cfg numPages needSort s held →
      (pagesOf cfg.pageSize freeIndex).Nodup →
      (∀ p ∈ pagesOf cfg.pageSize freeIndex, Handed cfg.pageSize numPages s p) →
      Run cfg numPages needSort (s.free freeIndex) held
  | freeGroup {s : Pool} {held : List NodeId} {groups : List (List Nat)} : Run cfg numPages needSort s held →
      (pagesOf cfg.pageSize groups.flatten).Nodup →
      (∀ p ∈ pagesOf cfg.pageSize groups.flatten, Handed cfg.pageSize numPages s p) →
      Run cfg numPages needSort
        { s with allocator := (groups.foldl Allocator.free s.allocator.freeGroupBegin).freeGroupEnd } held
  | allocTokenSlots {s s' : Pool} {held : List NodeId} {n : Nat} {out : List Nat} : Run cfg numPages needSort s held →
      s.allocTokenSlots cfg n = .ok (s', out) → Run cfg numPages needSort s' held
  | allocPagedTokenSlotsExtend {s s' : Pool} {held : List NodeId} {sched : Schedule} {bs : Nat} {prefixLens seqLens : Nat → Nat}
      {lastLoc : Nat → Int} {out : Nat → Nat} : Run cfg numPages needSort s held →
      Extends cfg.pageSize numPages s bs prefixLens seqLens lastLoc →
      s.allocPagedTokenSlotsExtend cfg sched bs prefixLens seqLens lastLoc (offset (fun j => seqLens j - prefixLens j) bs) =
      .ok (s', out) → Run cfg numPages needSort s' held

/-- Nothing is free or in the tree twice. -/
structure Inv (cfg : Config) (numPages : Nat) (s : Pool) (t : View) (held : List NodeId) : Prop where
  ready : Ready cfg s t held
  nodup : (s.pages cfg.pageSize t).Nodup
  range : ∀ p ∈ s.pages cfg.pageSize t, 1 ≤ p ∧ p ≤ numPages

theorem Ready.treePages_eq (h : Ready cfg s t held) :
    treePages cfg.pageSize s.cache = pagesAt cfg.pageSize s.cache (t.live.erase s.cache.rootNode) := by
  rw [treePages, h.wf.treeNodes_eq]

/-- Pages that callers hold come back. -/
theorem Inv.add {numPages : Nat} {more : List Nat} (h : Inv cfg numPages s t held) (hready : Ready cfg s' t' held)
    (hpages : s'.pages cfg.pageSize t' = more + s.pages cfg.pageSize t) (hnd : more.Nodup)
    (hmore : ∀ p ∈ more, Handed cfg.pageSize numPages s p) : Inv cfg numPages s' t' held := by
  refine ⟨hready, ?_, ?_⟩
  · rw [hpages]
    refine nodup_add.mpr ⟨coe_nodup.mpr hnd, h.nodup, disjoint_left.mpr fun {p} hp hp' => ?_⟩
    obtain ⟨-, -, hfree, htree⟩ := hmore p (mem_coe.mp hp)
    rw [h.ready.treePages_eq] at htree
    rcases mem_add.mp hp' with hp' | hp'
    · exact hfree (mem_coe.mp hp')
    · exact htree hp'
  · intro p hp
    rw [hpages] at hp
    rcases mem_add.mp hp with hp | hp
    · obtain ⟨h1, h2, -⟩ := hmore p (mem_coe.mp hp)
      exact ⟨h1, h2⟩
    · exact h.range p hp

theorem Inv.same {numPages : Nat} (h : Inv cfg numPages s t held) (hready : Ready cfg s' t' held')
    (hpages : s'.pages cfg.pageSize t' = s.pages cfg.pageSize t) : Inv cfg numPages s' t' held' :=
  ⟨hready, hpages ▸ h.nodup, hpages ▸ h.range⟩

theorem Inv.allocated {numPages n : Nat} (h : Inv cfg numPages s t held) (ha : Allocated cfg s t held n pool s' t') :
    Inv cfg numPages s' t' held := by
  refine ⟨ha.ready, ?_, fun p hp => h.range p ?_⟩
  · have := h.nodup
    rw [← ha.pages] at this
    exact (nodup_add.mp this).2.1
  · rw [← ha.pages]
    exact mem_add.mpr (.inr hp)

theorem run_inv (hps : 0 < cfg.pageSize) {numPages : Nat} {needSort : Bool} (h : Run cfg numPages needSort s held) :
    ∃ t, Inv cfg numPages s t held := by
  induction h with
  | init =>
    have hpages : pages cfg.pageSize ⟨init cfg, clear cfg.pageSize numPages needSort⟩
        (fresh (init cfg).rootNode) = (range' 1 numPages : Multiset Nat) := by
      simp [pages, fresh, pagesAt, clear, allFree]
    refine ⟨_, Ready.start cfg numPages needSort, ?_, fun p hp => ?_⟩
    · rw [hpages]
      exact coe_nodup.mpr nodup_range'
    · rw [hpages, mem_coe, mem_range'_1] at hp
      omega
  | @matchPrefix s held key c r _ hcall ih =>
    obtain ⟨t, h⟩ := ih
    cases hd : cfg.disable with
    | true =>
      simp only [matchPrefix, hd, true_or, if_true, Except.ok.injEq, Prod.mk.injEq] at hcall
      exact ⟨t, hcall.1 ▸ h⟩
    | false =>
      obtain ⟨c', t', n, hcall', hsteps, -⟩ := matchPrefix_spec hps hd h.ready.wf key
      rw [hcall] at hcall'
      cases hcall'
      obtain ⟨hready, hpages⟩ := h.ready.steps hps hd hsteps
      exact ⟨t', h.same hready hpages⟩
  | @insert s held key value pages c r _ hlen hdvd hvalue hcall hnd hheld ih =>
    obtain ⟨t, h⟩ := ih
    cases hd : cfg.disable with
    | true =>
      simp only [RadixCache.insert, hd, if_true, Except.ok.injEq, Prod.mk.injEq] at hcall
      exact ⟨t, hcall.1 ▸ h⟩
    | false =>
      obtain ⟨c', t', r', hcall', hins⟩ := h.ready.insert hps hd hlen hdvd hvalue
      rw [hcall] at hcall'
      cases hcall'
      obtain ⟨hready, hpages⟩ := hins hnd
      exact ⟨t', h.add hready hpages hnd hheld⟩
  | @evict s s' held numTokens _ hcall ih =>
    obtain ⟨t, h⟩ := ih
    obtain ⟨s1, t1, hcall', hready, hev, -⟩ := h.ready.evict hps numTokens
    rw [hcall] at hcall'
    cases hcall'
    exact ⟨t1, h.same hready hev.pages⟩
  | @incLockRef s held n c d _ hn hcall ih =>
    obtain ⟨t, h⟩ := ih
    obtain ⟨q, v, hpath⟩ := hn
    have hlive := (h.ready.wf.path_iff.mp hpath).1
    cases hd : cfg.disable with
    | true =>
      simp only [incLockRef, hd, if_true, Except.ok.injEq, Prod.mk.injEq] at hcall
      obtain ⟨rfl, -⟩ := hcall
      exact ⟨t, h.same (h.ready.reheld hd (forall_mem_cons.mpr ⟨hlive, h.ready.locked.held_live⟩)) rfl⟩
    | false =>
      obtain ⟨c', d', hcall', hready, hpages, -⟩ := h.ready.incLockRef hd hlive
      rw [hcall] at hcall'
      cases hcall'
      exact ⟨t, h.same hready hpages⟩
  | @decLockRef s held n c d _ hn hcall ih =>
    obtain ⟨t, h⟩ := ih
    cases hd : cfg.disable with
    | true =>
      simp only [decLockRef, hd, if_true, Except.ok.injEq, Prod.mk.injEq] at hcall
      obtain ⟨rfl, -⟩ := hcall
      exact ⟨t, h.same (h.ready.reheld hd fun m hm => h.ready.locked.held_live m (mem_of_mem_erase hm)) rfl⟩
    | false =>
      obtain ⟨c', d', hcall', hready, hpages, -⟩ := h.ready.decLockRef hd hn
      rw [hcall] at hcall'
      cases hcall'
      exact ⟨t, h.same hready hpages⟩
  | @free s held freeIndex _ hnd hheld ih =>
    obtain ⟨t, h⟩ := ih
    obtain ⟨hready, hpages⟩ := h.ready.free freeIndex
    exact ⟨t, h.add hready hpages hnd hheld⟩
  | @freeGroup s held groups _ hnd hheld ih =>
    obtain ⟨t, h⟩ := ih
    obtain ⟨hperm, hsize, hgroup, hmerged⟩ := freeGroup_spec h.ready.merged groups
    refine ⟨t, h.add ⟨⟨hsize.trans h.ready.pageSize, hgroup, hmerged⟩, h.ready.wf, h.ready.aligned, h.ready.locked, h.ready.whole,
      h.ready.disabled⟩ ?_ hnd hheld⟩
    unfold pages
    rw [coe_eq_coe.mpr hperm, ← coe_add, h.ready.pageSize, add_assoc]
  | @allocTokenSlots s s' held n out _ hcall ih =>
    obtain ⟨t, h⟩ := ih
    rcases h.ready.allocTokenSlots hps n with ⟨⟨e, he⟩, -⟩ | ⟨s1, t1, pool, hok, ha, -⟩
    · rw [hcall] at he
      cases he
    rw [hcall] at hok
    cases hok
    exact ⟨t1, h.allocated ha⟩
  | @allocPagedTokenSlotsExtend s s' held sched bs prefixLens seqLens lastLoc out _ hext hcall ih =>
    obtain ⟨t, h⟩ := ih
    by_cases hpaged : cfg.pageSize = 1
    · obtain ⟨e, he⟩ := h.ready.extend_page_one hps hpaged sched bs prefixLens seqLens lastLoc
        (offset (fun j => seqLens j - prefixLens j) bs)
      rw [hcall] at he
      cases he
    rcases h.ready.allocPagedTokenSlotsExtend hps hpaged sched hext.le with ⟨⟨e, he⟩, -⟩ | ⟨s1, t1, pool, out', hok, ha, -⟩
    · rw [hcall] at he
      cases he
    rw [hcall] at hok
    cases hok
    exact ⟨t1, h.allocated ha⟩

/-! ## What the allocations return -/

/-- The slot is free or in an unlocked node. -/
def FreeOrEvictable (pageSize : Nat) (s : Pool) (x : Nat) : Prop :=
  x / pageSize ∈ s.allocator.allFree ∨ ∃ n ∈ treeNodes s.cache, (s.cache.node n).lockRef = 0 ∧ x ∈ (s.cache.node n).value

def InLockedNode (s : Pool) (x : Nat) : Prop := ∃ n ∈ treeNodes s.cache, 0 < (s.cache.node n).lockRef ∧ x ∈ (s.cache.node n).value

theorem Ready.treePages_slot (hps : 0 < cfg.pageSize) (h : Ready cfg s t held) (hn : n ∈ treeNodes s.cache) {x : Nat} :
    x ∈ (s.cache.node n).value ↔ x / cfg.pageSize ∈ nodePages cfg.pageSize s.cache n := by
  rw [h.wf.treeNodes_eq] at hn
  exact (h.whole n hn).mem_iff hps

theorem Handed.not_locked {numPages x : Nat} (hps : 0 < cfg.pageSize) (h : Ready cfg s t held)
    (hx : Handed cfg.pageSize numPages s (x / cfg.pageSize)) : ¬ InLockedNode s x := by
  intro hl
  obtain ⟨n, hn, -, hxn⟩ := hl
  exact hx.2.2.2 (mem_pagesAt.mpr ⟨n, hn, (h.treePages_slot hps hn).mp hxn⟩)

/-- Where a page that is taken comes from. -/
theorem Inv.taken {numPages n : Nat} (hps : 0 < cfg.pageSize) (h : Inv cfg numPages s t held)
    (ha : Allocated cfg s t held n pool s' t') {x : Nat} (hx : x / cfg.pageSize ∈ pool.take n) :
    FreeOrEvictable cfg.pageSize s x ∧ ¬ InLockedNode s x := by
  have hnodes := h.ready.wf.treeNodes_eq
  constructor
  · rcases ha.source _ (mem_of_mem_take hx) with hfree | ⟨m, hm, hlock, hxm⟩
    · exact .inl hfree
    · rw [← hnodes] at hm
      exact .inr ⟨m, hm, hlock, (h.ready.treePages_slot hps hm).mpr hxm⟩
  · intro hl
    obtain ⟨m, hm, hlock, hxm⟩ := hl
    have hxm := (h.ready.treePages_slot hps hm).mp hxm
    rw [hnodes] at hm
    -- a locked node keeps its pages, and none of them is handed out
    obtain ⟨hm', hsame⟩ := ha.locked m hm (by omega)
    have hnd := h.nodup
    rw [← ha.pages] at hnd
    refine disjoint_left.mp (nodup_add.mp hnd).2.2 (mem_coe.mpr hx) ?_
    exact mem_add.mpr (.inr (mem_pagesAt.mpr ⟨m, hm', hsame ▸ hxm⟩))

/-- A slot that an extend returns is on a new page or on the page that it continues. -/
theorem extendSlot_page {pageSize preLen : Nat} {lastLoc : Int} {start n k : Nat} (hps : 0 < pageSize)
    (hlast : preLen % pageSize ≠ 0 → 0 ≤ lastLoc ∧ (lastLoc.toNat + 1) % pageSize = preLen % pageSize)
    (hn : start + (pageCount pageSize (preLen + k + 1) - pageCount pageSize preLen) ≤ n) (hpool : n ≤ pool.length) :
    extendSlot pageSize preLen lastLoc pool start k / pageSize ∈ pool.take n ∨
      (preLen % pageSize ≠ 0 ∧ extendSlot pageSize preLen lastLoc pool start k / pageSize = lastLoc.toNat / pageSize) := by
  unfold extendSlot
  split
  · rename_i hold
    have hq := div_add_mod' preLen pageSize
    have ho := mod_lt preLen hps
    have hmod : preLen % pageSize ≠ 0 := by
      intro h0
      have hC : pageCount pageSize preLen ≤ preLen / pageSize := by
        apply Nat.le_of_not_lt
        rw [lt_pageCount hps]
        omega
      have := mul_le_mul_right pageSize hC
      omega
    have hC : pageCount pageSize preLen ≤ preLen / pageSize + 1 := by
      apply Nat.le_of_not_lt
      rw [lt_pageCount hps, succ_mul]
      omega
    have hC := mul_le_mul_right pageSize hC
    rw [succ_mul] at hC
    have ha := div_add_mod' (lastLoc.toNat + 1) pageSize
    have hdiv : ∀ a o, o < pageSize → (a * pageSize + o) / pageSize = a := fun a o ho => by
      rw [mul_comm, mul_add_div hps, div_eq_of_lt ho, add_zero]
    have hslot : (lastLoc + 1 + (k : Int)).toNat = (lastLoc.toNat + 1) / pageSize * pageSize + (preLen % pageSize + k) := by omega
    have hloc : lastLoc.toNat = (lastLoc.toNat + 1) / pageSize * pageSize + (preLen % pageSize - 1) := by omega
    refine .inr ⟨hmod, ?_⟩
    rw [hslot, hdiv _ _ (by omega), hloc, hdiv _ _ (by omega), ← hloc]
  · rename_i hnew
    left
    have hC : pageCount pageSize preLen ≤ (preLen + k) / pageSize := (Nat.le_div_iff_mul_le hps).mpr (Nat.le_of_not_lt hnew)
    rw [pageCount_succ hps] at hn
    have hidx : start + ((preLen + k) / pageSize - pageCount pageSize preLen) < n := by omega
    rw [mul_comm, mul_add_div hps, div_eq_of_lt (mod_lt _ hps), add_zero,
      getD_eq_getElem _ _ (lt_of_lt_of_le hidx hpool)]
    exact mem_take_iff_getElem.mpr ⟨_, Nat.lt_min.mpr ⟨hidx, lt_of_lt_of_le hidx hpool⟩, rfl⟩

variable {numPages : Nat} {needSort : Bool}

/-- An allocation raises exactly when the free slots and those of the unlocked nodes are fewer than
    the slots of the pages that it takes, and it returns slots of such pages; an extend
    returns also slots of the pages that it continues. -/
theorem alloc_exact (hps : 0 < cfg.pageSize) (h : Run cfg numPages needSort s held) :
    (∀ n, ((∃ e, s.allocTokenSlots cfg n = .error e) ↔
        s.allocator.availableSize + s.cache.evictableSize < ((n / cfg.pageSize * cfg.pageSize : Nat) : Int)) ∧
      ∀ s' out, s.allocTokenSlots cfg n = .ok (s', out) → out.length = n / cfg.pageSize * cfg.pageSize ∧
        ∀ x ∈ out, FreeOrEvictable cfg.pageSize s x ∧ ¬ InLockedNode s x) ∧
    (cfg.pageSize ≠ 1 → ∀ sched bs prefixLens seqLens lastLoc, Extends cfg.pageSize numPages s bs prefixLens seqLens lastLoc →
      ((∃ e, s.allocPagedTokenSlotsExtend cfg sched bs prefixLens seqLens lastLoc
      (offset (fun j => seqLens j - prefixLens j) bs) = .error e) ↔
        s.allocator.availableSize + s.cache.evictableSize <
          ((cfg.pageSize * getNumNewPages cfg.pageSize bs prefixLens seqLens : Nat) : Int)) ∧
      ∀ s' out, s.allocPagedTokenSlotsExtend cfg sched bs prefixLens seqLens lastLoc
        (offset (fun j => seqLens j - prefixLens j) bs) =
          .ok (s', out) → ∀ f < offset (fun j => seqLens j - prefixLens j) bs, ¬ InLockedNode s (out f) ∧
        (FreeOrEvictable cfg.pageSize s (out f) ∨ ∃ i < bs, prefixLens i % cfg.pageSize ≠ 0 ∧
          out f / cfg.pageSize = (lastLoc i).toNat / cfg.pageSize)) := by
  obtain ⟨t, hinv⟩ := run_inv hps h
  refine ⟨fun n => ?_, fun hpaged sched bs prefixLens seqLens lastLoc hext => ?_⟩
  · rcases hinv.ready.allocTokenSlots hps n with ⟨herr, hlt⟩ | ⟨s1, t1, pool, hok, ha, hge⟩
    · refine ⟨iff_of_true herr hlt, fun s' out hcall => ?_⟩
      obtain ⟨e, he⟩ := herr
      rw [hcall] at he
      cases he
    rw [hok]
    refine ⟨iff_of_false (by simp) hge, fun s' out hcall => ?_⟩
    cases hcall
    refine ⟨?_, fun x hx => hinv.taken hps ha ((mem_wholePages hps).mp hx)⟩
    rw [length_wholePages, length_take, min_eq_left ha.le]
  rcases hinv.ready.allocPagedTokenSlotsExtend hps hpaged sched hext.le with ⟨herr, hlt⟩ | ⟨s1, t1, pool, out, hok, ha,
    hslots, hge⟩
  · refine ⟨iff_of_true herr hlt, fun s' out hcall => ?_⟩
    obtain ⟨e, he⟩ := herr
    rw [hcall] at he
    cases he
  rw [hok]
  refine ⟨iff_of_false (by simp) hge, fun s' out' hcall f hf => ?_⟩
  cases hcall
  obtain ⟨i, hi, k, hk, rfl⟩ := offset_split _ hf
  rw [hslots i hi k hk]
  have hle := offset_le (fun j => pageCount cfg.pageSize (seqLens j) - pageCount cfg.pageSize (prefixLens j)) hi
  have hmono := @pageCount_mono cfg.pageSize _ _ (show prefixLens i + k + 1 ≤ seqLens i by omega)
  have hnum : offset (fun j => pageCount cfg.pageSize (seqLens j) - pageCount cfg.pageSize (prefixLens j)) i +
      (pageCount cfg.pageSize (prefixLens i + k + 1) - pageCount cfg.pageSize (prefixLens i)) ≤
      getNumNewPages cfg.pageSize bs prefixLens seqLens := by
    rw [getNumNewPages]
    omega
  rcases extendSlot_page hps (fun h0 => ⟨hext.nonneg i hi h0, hext.offset i hi h0⟩) hnum ha.le with hnew | ⟨hmod, hold⟩
  · exact ⟨(hinv.taken hps ha hnew).2, .inl (hinv.taken hps ha hnew).1⟩
  · refine ⟨Handed.not_locked hps hinv.ready (hold ▸ hext.handed i hi hmod), .inr ⟨i, hi, hmod, hold⟩⟩

open RadixCache (plainConfig)

/-- Four pages of four slots, of which a sequence of six tokens has two. -/
def sixTokens : Pool :=
  ⟨RadixCache.init (plainConfig 4), { pageSize := 4, freePages := [3, 4], seenMaxNumExtendTokensNextPowerOf2 := 8 }⟩

theorem sixTokens_run : Run (plainConfig 4) 4 false sixTokens [] := by
  obtain ⟨out, hcall⟩ : ∃ out, (⟨init (plainConfig 4), clear 4 4 false⟩ : Pool).allocPagedTokenSlotsExtend
      (plainConfig 4) Schedule.inOrder 1 (fun _ => 0) (fun _ => 6) (fun _ => -1) 6 = .ok (sixTokens, out) := ⟨_, rfl⟩
  refine .allocPagedTokenSlotsExtend .init ⟨fun i _ => zero_le _, fun i _ h => ?_, fun i _ h => ?_, fun i _ h => ?_⟩ hcall
  all_goals exact absurd rfl h

theorem alloc_exact_six : (∃ e, sixTokens.allocTokenSlots (plainConfig 4) 12 = .error e) ∧
    ¬ ∃ e, sixTokens.allocTokenSlots (plainConfig 4) 8 = .error e :=
  have h := (alloc_exact (by decide) sixTokens_run).1
  ⟨(h 12).1.mpr (by decide), fun he => absurd ((h 8).1.mp he) (by decide)⟩

/-- The next two tokens of the sequence get slots 10 and 11, on a page that is not free and not
    in the tree; and a request for eleven slots, with eight left, is served with eight. -/
theorem extend_fills_partial_page : Run (plainConfig 4) 4 false sixTokens [] ∧
    Extends 4 4 sixTokens 1 (fun _ => 6) (fun _ => 8) (fun _ => 9) ∧
    (∃ s out, sixTokens.allocPagedTokenSlotsExtend (plainConfig 4) Schedule.inOrder 1 (fun _ => 6) (fun _ => 8) (fun _ => 9) 2 =
      .ok (s, out) ∧ out 0 = 10) ∧ ¬ FreeOrEvictable 4 sixTokens 10 ∧
    (∃ s, sixTokens.allocTokenSlots (plainConfig 4) 11 = .ok (s, [12, 13, 14, 15, 16, 17, 18, 19])) ∧
    sixTokens.allocator.availableSize + sixTokens.cache.evictableSize < 11 := by
  have hnodes : treeNodes sixTokens.cache = ∅ := by
    rw [sixTokens, (Ready.start (plainConfig 4) 4 false).wf.treeNodes_eq]
    simp [fresh]
  have hhanded : Handed 4 4 sixTokens 2 := by
    refine ⟨by decide, by decide, by decide, ?_⟩
    rw [treePages, hnodes]
    exact Multiset.notMem_zero 2
  refine ⟨sixTokens_run, ⟨fun i _ => by decide, fun i _ _ => by decide, fun i _ _ => rfl, fun i _ _ => hhanded⟩, ⟨_, _, rfl, rfl⟩,
    fun h => ?_, ⟨_, rfl⟩, by decide⟩
  rcases h with h | ⟨n, hn, -⟩
  · exact absurd h (by decide)
  · rw [hnodes] at hn
    cases hn

end Pool

end DynaSpec.MemCache
