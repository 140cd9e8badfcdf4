/-
  DynaSpec.MemCache.RadixAccounting — the sizes and locks of the radix cache.

  `Locked` is the invariant: a node's lock count is the number of held locks on it or below
  it, and the two sizes are the sums of the key lengths of the unlocked and of the locked
  nodes. Splits, new leaves, evictions, locks and unlocks keep it. Locks do not grow on the
  way down, so below an unlocked node hangs an unlocked leaf and eviction can reach every
  evictable token (`Locked.exists_leaf`). `radixCache_accounted` states this for every run in
  which a lock is taken on a node of the tree; `lock_evicted_node` shows that a lock on a
  node evicted before breaks the sizes.
-/

import DynaSpec.MemCache.RadixRefines
import Mathlib.Algebra.BigOperators.Group.Finset.Basic
import Mathlib.Data.Finset.Max

namespace DynaSpec.MemCache

open DynaSpec.Lib Finset
open RadixKey (len)
open List (countP_congr mem_cons mem_cons_of_mem mem_cons_self)

variable {xs : List NodeId} {value : List Nat} {key : RadixKey} {k : ChildKey} {r : Nat} {m : NodeId}

namespace RadixCache

variable {cfg : Config} {s s' : RadixCache} {t t' : View} {pageSize : Nat} {held : List NodeId}

/-! ## Sizes -/

def evictablePart (s : RadixCache) (n : NodeId) : Int := if (s.node n).lockRef = 0 then (s.node n).key.len else 0

def protectedPart (s : RadixCache) (n : NodeId) : Int := if (s.node n).lockRef = 0 then 0 else (s.node n).key.len

/-- The two sizes are the sums over the nodes of `L`. -/
structure Sized (s : RadixCache) (L : Finset NodeId) : Prop where
  evictable : s.evictableSize = ∑ n ∈ L, evictablePart s n
  protected_ : s.protectedSize = ∑ n ∈ L, protectedPart s n

variable {L : Finset NodeId} {n : NodeId}

theorem sum_change {f g : NodeId → Int} (hm : m ∈ L) (h : ∀ x, x ≠ m → g x = f x) :
    ∑ n ∈ L, g n = ∑ n ∈ L, f n - f m + g m := by
  have hf := add_sum_erase L f hm
  have hg := add_sum_erase L g hm
  have hrest : ∑ x ∈ L.erase m, g x = ∑ x ∈ L.erase m, f x :=
    sum_congr rfl fun x hx => h x (ne_of_mem_erase hx)
  omega

theorem parts_congr {x : NodeId} (hkey : (s'.node x).key.len = (s.node x).key.len)
    (hlock : (s'.node x).lockRef = (s.node x).lockRef) :
    evictablePart s' x = evictablePart s x ∧ protectedPart s' x = protectedPart s x := by
  simp [evictablePart, protectedPart, hkey, hlock]

/-- One node changes, and the sizes with it. -/
theorem Sized.change (h : Sized s L) (hn : n ∈ L)
    (hoff : ∀ x, x ≠ n → (s'.node x).key = (s.node x).key ∧ (s'.node x).lockRef = (s.node x).lockRef)
    (he : s'.evictableSize = s.evictableSize - evictablePart s n + evictablePart s' n)
    (hp : s'.protectedSize = s.protectedSize - protectedPart s n + protectedPart s' n) : Sized s' L := by
  have hparts := fun x hx => parts_congr (congrArg len (hoff x hx).1) (hoff x hx).2
  constructor
  · rw [he, h.evictable]
    exact (sum_change hn fun x hx => (hparts x hx).1).symm
  · rw [hp, h.protected_]
    exact (sum_change hn fun x hx => (hparts x hx).2).symm

theorem Sized.congr (h : Sized s L) (he : s'.evictableSize = s.evictableSize)
    (hp : s'.protectedSize = s.protectedSize) (hkey : ∀ n ∈ L, (s'.node n).key.len = (s.node n).key.len)
    (hlock : ∀ n ∈ L, (s'.node n).lockRef = (s.node n).lockRef) : Sized s' L := by
  constructor
  · rw [he, h.evictable]
    exact sum_congr rfl fun n hn => (parts_congr (hkey n hn) (hlock n hn)).1.symm
  · rw [hp, h.protected_]
    exact sum_congr rfl fun n hn => (parts_congr (hkey n hn) (hlock n hn)).2.symm

theorem incOne_sizes (s : RadixCache) (n : NodeId) : (incOne s n).evictableSize = s.evictableSize - evictablePart s n ∧
      (incOne s n).protectedSize = s.protectedSize + evictablePart s n := by
  unfold incOne evictablePart
  by_cases h : (s.node n).lockRef = 0 <;> simp [h, addLock, modify, protect]

theorem decOne_sizes (s : RadixCache) (n : NodeId) :
    (decOne s n).evictableSize = s.evictableSize + (if (s.node n).lockRef = 1 then ((s.node n).key.len : Int) else 0) ∧
      (decOne s n).protectedSize = s.protectedSize - (if (s.node n).lockRef = 1 then ((s.node n).key.len : Int) else 0) := by
  unfold decOne
  by_cases h : (s.node n).lockRef = 1 <;> simp [h, addLock, modify, protect, Int.sub_eq_add_neg]

theorem Sized.inc (h : Sized s L) (hn : n ∈ L) (hr : n ≠ s.rootNode) (hlock : 0 ≤ (s.node n).lockRef) : Sized (incOne s n) L := by
  have hkey := (incOne_sameTree hr).key n
  have hlock' : ((incOne s n).node n).lockRef = (s.node n).lockRef + 1 := by simp [incOne_lock]
  obtain ⟨he, hp⟩ := incOne_sizes s n
  refine h.change hn (fun x hx => ⟨(incOne_sameTree hr).key x, by simp [incOne_lock, hx]⟩) ?_ ?_
  · rw [he]
    unfold evictablePart
    rw [hlock', if_neg (show (s.node n).lockRef + 1 ≠ 0 by omega)]
    omega
  · rw [hp]
    unfold evictablePart protectedPart
    rw [hlock', hkey, if_neg (show (s.node n).lockRef + 1 ≠ 0 by omega)]
    split <;> omega

theorem Sized.dec (h : Sized s L) (hn : n ∈ L) (hr : n ≠ s.rootNode) (hlock : 1 ≤ (s.node n).lockRef) : Sized (decOne s n) L := by
  have hkey := (decOne_sameTree hr).key n
  have hlock' : ((decOne s n).node n).lockRef = (s.node n).lockRef - 1 := by simp [decOne_lock, Int.sub_eq_add_neg]
  have hone : (s.node n).lockRef - 1 = 0 ↔ (s.node n).lockRef = 1 := by omega
  obtain ⟨he, hp⟩ := decOne_sizes s n
  refine h.change hn (fun x hx => ⟨(decOne_sameTree hr).key x, by simp [decOne_lock, hx]⟩) ?_ ?_
  · rw [he]
    unfold evictablePart
    rw [hlock', hkey, if_neg (show (s.node n).lockRef ≠ 0 by omega)]
    simp only [hone]
    omega
  · rw [hp]
    unfold protectedPart
    rw [hlock', hkey, if_neg (show (s.node n).lockRef ≠ 0 by omega)]
    simp only [hone]
    split <;> omega

/-- A lock operation on one node after the other. -/
theorem foldl_lock {one : RadixCache → NodeId → RadixCache} {a b : Int} (htree : ∀ {s n}, n ≠ s.rootNode → SameTree s (one s n))
    (hone : ∀ s n m, ((one s n).node m).lockRef = (s.node m).lockRef + if m = n then a else 0)
    (hsized : ∀ {s n}, Sized s L → n ∈ L → n ≠ s.rootNode → b ≤ (s.node n).lockRef → Sized (one s n) L) (l : List NodeId)
    (s : RadixCache) (hnd : l.Nodup) (h : Sized s L) (hl : ∀ n ∈ l, n ∈ L ∧ n ≠ s.rootNode ∧ b ≤ (s.node n).lockRef) :
    Sized (l.foldl one s) L ∧ ∀ m, ((l.foldl one s).node m).lockRef = (s.node m).lockRef + if m ∈ l then a else 0 := by
  induction l generalizing s with
  | nil => exact ⟨h, by simp⟩
  | cons n l ih =>
    obtain ⟨hn, hnd'⟩ := List.nodup_cons.mp hnd
    obtain ⟨hL, hr, hlock⟩ := hl n mem_cons_self
    obtain ⟨hs, hlocks⟩ := ih (one s n) hnd' (hsized h hL hr hlock) (by
      intro m hm
      obtain ⟨h1, h2, h3⟩ := hl m (mem_cons_of_mem n hm)
      refine ⟨h1, (htree hr).root.symm ▸ h2, ?_⟩
      have hmn : m ≠ n := fun e => hn (e ▸ hm)
      rwa [hone, if_neg hmn, Int.add_zero])
    refine ⟨hs, fun m => ?_⟩
    rw [List.foldl_cons, hlocks, hone]
    by_cases hmn : m = n
    · subst hmn
      simp [hn]
    · simp [hmn]

/-! ## Locks -/

/-- The number of held locks on `n` or below it. -/
def holders (t : View) (held : List NodeId) (n : NodeId) : Nat := held.countP fun h => n ∈ t.ups h

structure Locked (s : RadixCache) (t : View) (held : List NodeId) : Prop where
  held_live : ∀ h ∈ held, h ∈ t.live
  lock : ∀ n ∈ t.live, n ≠ s.rootNode → (s.node n).lockRef = holders t held n
  sized : Sized s (t.live.erase s.rootNode)

section
variable (w : Wf pageSize s t)
include w

theorem Wf.self_mem_ups (hn : s.Known n) (hr : n ≠ s.rootNode) : n ∈ t.ups n := by
  obtain ⟨p, hp⟩ := w.hangs n hn hr
  rw [hp.ups]
  exact mem_cons_self

theorem Wf.ups_live : ∀ n, s.Known n → n ∈ t.live → ∀ m ∈ t.ups n, m ∈ t.live := by
  refine w.climb ?_ ?_
  · intro _ m hm
    rw [w.root_ups] at hm
    cases hm
  · intro n p _ hr hp ih hlive m hm
    rw [hp.ups] at hm
    rcases mem_cons.mp hm with rfl | hm
    · exact hlive
    · exact ih (w.parent_live n hlive hr p hp.parent) m hm

/-- What is above a node on a way up is above all of that way. -/
theorem Wf.ups_trans : ∀ h, s.Known h → m ∈ t.ups h → n ∈ t.ups m → n ∈ t.ups h := by
  refine w.climb ?_ ?_
  · intro hm
    rw [w.root_ups] at hm
    cases hm
  intro h p _ _ hp ih hm hn
  rw [hp.ups] at hm ⊢
  rcases mem_cons.mp hm with rfl | hm
  · rw [hp.ups] at hn
    exact hn
  · exact mem_cons_of_mem h (ih hm hn)

theorem Wf.mem_erase_root (hn : s.Known n) (hlive : n ∈ t.live) : ∀ m ∈ t.ups n, m ∈ t.live.erase s.rootNode := fun m hm =>
  mem_erase.mpr ⟨(w.mem_ups n hn m hm).2.1, w.ups_live n hn hlive m hm⟩

end

namespace Locked

section
variable (h : Locked s t held)
include h

theorem known (w : Wf pageSize s t) (hn : n ∈ held) : s.Known n :=
  w.live_known n (h.held_live n hn)

theorem nonneg (hn : n ∈ t.live) (hr : n ≠ s.rootNode) : 0 ≤ (s.node n).lockRef := by
  rw [h.lock n hn hr]
  exact Int.natCast_nonneg _

/-- A node on the way to a held one is locked. -/
theorem pos (w : Wf pageSize s t) {x : NodeId} (hx : x ∈ held) (hn : n ∈ t.ups x) : 1 ≤ (s.node n).lockRef := by
  have hxk := h.known w hx
  rw [h.lock n (w.ups_live x hxk (h.held_live x hx) n hn) (w.mem_ups x hxk n hn).2.1]
  have : 0 < holders t held n := List.countP_pos_iff.mpr ⟨x, hx, by simpa using hn⟩
  omega

theorem still (hsame : SameTree s s') (hlocks : SameLocks s s') : Locked s' t held where
  held_live := h.held_live
  lock n hn hr := by rw [hlocks.lock]; exact h.lock n hn (hsame.root ▸ hr)
  sized := by
    rw [hsame.root]
    exact h.sized.congr hlocks.evictable hlocks.protected_ (fun n _ => by rw [hsame.key]) fun n _ => hlocks.lock n

end

section
variable (w : Wf pageSize s t) (h : Locked s t held)
include w h

theorem split {c p : NodeId} {upper : List Token} {slots : List Nat} (hc : c ∈ t.live) (hcr : c ≠ s.rootNode)
    (hlt : r < (s.node c).key.len)
    (hsplit : Split pageSize s s' c p r) : Locked s' (t.split c p s.counter upper slots) held := by
  have hcn := (w.live_known c hc).ne_counter
  have hrootn : s.counter ≠ s.rootNode := ne_of_gt w.root_lt
  have hfresh : s.counter ∉ t.live := fun hm => (w.live_known _ hm).ne_counter rfl
  have hmem : ∀ x ∈ held, ∀ n, n ∈ (t.split c p s.counter upper slots).ups x ↔ n ∈ t.ups x ∨ (n = s.counter ∧ c ∈ t.ups x) := by
    intro x hx n
    have hxn := (h.known w hx).ne_counter
    simp only [View.split, hxn, if_false]
    exact mem_flatMap_split
  have hcount : ∀ n, n ≠ s.counter → holders (t.split c p s.counter upper slots) held n = holders t held n := by
    intro n hn
    refine countP_congr fun x hx => ?_
    rw [decide_eq_true_iff, decide_eq_true_iff, hmem x hx]
    simp [hn]
  have hcountnew : holders (t.split c p s.counter upper slots) held s.counter = holders t held c := by
    refine countP_congr fun x hx => ?_
    rw [decide_eq_true_iff, decide_eq_true_iff, hmem x hx]
    have : s.counter ∉ t.ups x := fun hm => (w.mem_ups x (h.known w hx) _ hm).1.ne_counter rfl
    simp [this]
  refine ⟨fun x hx => mem_insert_of_mem (h.held_live x hx), ?_, ?_⟩
  · intro n hn hnr
    rw [hsplit.root] at hnr
    rw [hsplit.lock]
    rcases mem_insert.mp hn with rfl | hn
    · rw [if_pos rfl, hcountnew]
      exact h.lock c hc hcr
    have hnn := (w.live_known n hn).ne_counter
    rw [if_neg hnn, hcount n hnn]
    exact h.lock n hn hnr
  -- the new node and the old one share the length of the old key
  have hL : (t.split c p s.counter upper slots).live.erase s'.rootNode = insert s.counter (t.live.erase s.rootNode) := by
    rw [hsplit.root]
    exact erase_insert_of_ne hrootn
  have hnot : s.counter ∉ t.live.erase s.rootNode := fun hm => hfresh (mem_of_mem_erase hm)
  have hcL : c ∈ t.live.erase s.rootNode := mem_erase.mpr ⟨hcr, hc⟩
  have hlenc : ((s'.node c).key.len : Int) = (s.node c).key.len - r := by
    rw [hsplit.key, if_neg hcn, if_pos rfl]
    simp only [len, RadixKey.tokenIds_from, List.length_drop] at hlt ⊢
    omega
  have hlenn : ((s'.node s.counter).key.len : Int) = r := by
    rw [hsplit.key, if_pos rfl]
    simp only [len, RadixKey.tokenIds_upto, List.length_take] at hlt ⊢
    omega
  have hlockc : (s'.node c).lockRef = (s.node c).lockRef := by rw [hsplit.lock, if_neg hcn]
  have hlockn : (s'.node s.counter).lockRef = (s.node c).lockRef := by rw [hsplit.lock, if_pos rfl]
  have hoff : ∀ x ∈ (t.live.erase s.rootNode).erase c, evictablePart s' x = evictablePart s x ∧
    protectedPart s' x = protectedPart s x := by
    intro x hx
    have hxn : x ≠ s.counter := fun e => hnot (e ▸ mem_of_mem_erase hx)
    exact parts_congr (by rw [hsplit.key, if_neg hxn, if_neg (ne_of_mem_erase hx)]) (by rw [hsplit.lock, if_neg hxn])
  have hsum : ∀ part : RadixCache → NodeId → Int, (∀ x ∈ (t.live.erase s.rootNode).erase c, part s' x = part s x) →
      part s' s.counter + part s' c = part s c →
      ∑ n ∈ insert s.counter (t.live.erase s.rootNode), part s' n = ∑ n ∈ t.live.erase s.rootNode, part s n := by
    intro part hpart hpc
    rw [sum_insert hnot, ← add_sum_erase _ _ hcL, ← add_sum_erase _ (part s) hcL, ← hpc, sum_congr rfl hpart, Int.add_assoc]
  rw [hL]
  constructor
  · rw [hsplit.evictable, h.sized.evictable, hsum evictablePart fun x hx => (hoff x hx).1]
    simp only [evictablePart, hlockc, hlockn, hlenc, hlenn]
    split <;> omega
  · rw [hsplit.protected_, h.sized.protected_, hsum protectedPart fun x hx => (hoff x hx).2]
    simp only [protectedPart, hlockc, hlockn, hlenc, hlenn]
    split <;> omega

theorem grow {p : NodeId} (hgrown : Grown s s' p k key value) : Locked s' (t.grow p s.counter key.tokenIds value) held := by
  have hrootn : s.counter ≠ s.rootNode := ne_of_gt w.root_lt
  have hfresh : s.counter ∉ t.live := fun hm => (w.live_known _ hm).ne_counter rfl
  have hups : ∀ x ∈ held, (t.grow p s.counter key.tokenIds value).ups x = t.ups x := by
    intro x hx
    exact upd_ne _ _ (h.known w hx).ne_counter
  have hcount : ∀ n, holders (t.grow p s.counter key.tokenIds value) held n = holders t held n := by
    intro n
    refine countP_congr fun x hx => ?_
    rw [hups x hx]
  refine ⟨fun x hx => mem_insert_of_mem (h.held_live x hx), ?_, ?_⟩
  · intro n hn hnr
    rw [hgrown.root] at hnr
    rw [hgrown.lock, hcount]
    rcases mem_insert.mp hn with rfl | hn
    · rw [if_pos rfl]
      have : holders t held s.counter = 0 := by
        refine List.countP_eq_zero.mpr fun x hx => ?_
        rw [decide_eq_true_iff]
        exact fun hm => (w.mem_ups x (h.known w hx) _ hm).1.ne_counter rfl
      rw [this]
      rfl
    · rw [if_neg (w.live_known n hn).ne_counter]
      exact h.lock n hn hnr
  have hL : (t.grow p s.counter key.tokenIds value).live.erase s'.rootNode = insert s.counter (t.live.erase s.rootNode) := by
    rw [hgrown.root]
    exact erase_insert_of_ne hrootn
  have hnot : s.counter ∉ t.live.erase s.rootNode := fun hm => hfresh (mem_of_mem_erase hm)
  have hoff : ∀ x ∈ t.live.erase s.rootNode, evictablePart s' x = evictablePart s x ∧ protectedPart s' x = protectedPart s x := by
    intro x hx
    have hne : x ≠ s.counter := fun e => hnot (e ▸ hx)
    exact parts_congr (by rw [hgrown.key_, if_neg hne]) (by rw [hgrown.lock, if_neg hne])
  rw [hL]
  constructor
  · rw [sum_insert hnot, hgrown.evictable, h.sized.evictable]
    have hnew : evictablePart s' s.counter = key.len := by
      simp [evictablePart, hgrown.lock, hgrown.key_]
    rw [hnew, Int.add_comm]
    congr 1
    exact sum_congr rfl fun x hx => (hoff x hx).1.symm
  · rw [sum_insert hnot, hgrown.protected_, h.sized.protected_]
    have hnew : protectedPart s' s.counter = 0 := by
      simp [protectedPart, hgrown.lock]
    rw [hnew, Int.zero_add]
    exact sum_congr rfl fun x hx => (hoff x hx).2.symm

theorem prune {x p : NodeId} (hx : EvictableLeaf s t x) (hp : Pruned s s' x p k) : Locked s' (t.prune x) held := by
  have hxL : x ∈ t.live.erase s.rootNode := mem_erase.mpr ⟨hx.not_root, hx.live⟩
  refine ⟨fun y hy => mem_erase.mpr ⟨?_, h.held_live y hy⟩, ?_, ?_⟩
  · rintro rfl
    have := h.pos w hy (w.self_mem_ups (w.live_known y hx.live) hx.not_root)
    rw [hx.unlocked] at this
    omega
  · intro n hn hr
    rw [hp.lock]
    exact h.lock n (mem_of_mem_erase hn) (hp.root ▸ hr)
  have hL : (t.prune x).live.erase s'.rootNode = (t.live.erase s.rootNode).erase x := by
    rw [hp.root]
    exact erase_right_comm
  rw [hL]
  have hpart := fun n => parts_congr (congrArg len (hp.key n)) (hp.lock n)
  constructor
  · rw [hp.evictable, h.sized.evictable, ← add_sum_erase _ _ hxL]
    have hxpart : evictablePart s x = (s.node x).key.len := by simp [evictablePart, hx.unlocked]
    rw [hxpart, add_sub_cancel_left]
    exact sum_congr rfl fun n _ => (hpart n).1.symm
  · rw [hp.protected_, h.sized.protected_, ← add_sum_erase _ _ hxL]
    have hxpart : protectedPart s x = 0 := by simp [protectedPart, hx.unlocked]
    rw [hxpart, Int.zero_add]
    exact sum_congr rfl fun n _ => (hpart n).2.symm

theorem steps (hps : 0 < pageSize) (hsteps : Steps pageSize s t s' t') : Locked s' t' held := by
  refine (hsteps.keeps hps (fun s t => Locked s t held) w h ?_ ?_).2
  · intro s1 s2 t1 _ hsame hlocks h1
    exact h1.still hsame hlocks
  · intro s1 s2 t1 c p r w1 hc hcr _ _ _ hlt hsplit h1
    exact h1.split w1 hc hcr hlt hsplit

theorem inserted (hps : 0 < pageSize) (hins : Inserted pageSize s t key value s' t' r) : Locked s' t' held := by
  cases hins with
  | present hsteps _ _ _ => exact h.steps w hps hsteps
  | leaf hsteps _ _ hgrown _ _ _ _ _ _ => exact (h.steps w hps hsteps).grow (hsteps.wf hps w) hgrown

theorem evicts (hev : Evicts s t xs s' t') : Locked s' t' held := by
  induction hev with
  | refl => exact h
  | prune hev hx _ hp hsame hlocks ih => exact (ih.prune (hev.wf w) hx hp).still hsame hlocks

theorem inc (hn : n ∈ t.live) : Locked ((t.ups n).foldl incOne s) t (n :: held) := by
  have hnk := w.live_known n hn
  have hsame := foldl_sameTree (fun _ _ => incOne_sameTree) (w.ups_ne_root hnk)
  have hL := w.mem_erase_root hnk hn
  obtain ⟨hsized, hlock⟩ := foldl_lock incOne_sameTree incOne_lock Sized.inc (t.ups n) s (w.ups_nodup n hnk) h.sized fun m hm =>
    have hmL := mem_erase.mp (hL m hm)
    ⟨hL m hm, hmL.1, h.nonneg hmL.2 hmL.1⟩
  refine ⟨List.forall_mem_cons.mpr ⟨hn, h.held_live⟩, fun m hm hr => ?_, by rw [hsame.root]; exact hsized⟩
  rw [hsame.root] at hr
  rw [hlock, h.lock m hm hr, holders, holders, List.countP_cons]
  simp only [decide_eq_true_eq]
  split <;> simp

theorem dec (hn : n ∈ held) : Locked ((t.ups n).foldl decOne s) t (held.erase n) := by
  have hnk := h.known w hn
  have hsame := foldl_sameTree (fun _ _ => decOne_sameTree) (w.ups_ne_root hnk)
  have hL := w.mem_erase_root hnk (h.held_live n hn)
  obtain ⟨hsized, hlock⟩ := foldl_lock decOne_sameTree decOne_lock Sized.dec (t.ups n) s (w.ups_nodup n hnk) h.sized fun m hm =>
    ⟨hL m hm, (mem_erase.mp (hL m hm)).1, h.pos w hn hm⟩
  refine ⟨fun m hm => h.held_live m (List.mem_of_mem_erase hm), fun m hm hr => ?_, by rw [hsame.root]; exact hsized⟩
  rw [hsame.root] at hr
  have hperm : holders t held m = holders t (n :: held.erase n) m := (List.perm_cons_erase hn).countP_eq _
  rw [hlock, h.lock m hm hr, hperm, holders, holders, List.countP_cons]
  simp only [decide_eq_true_eq]
  split <;> simp

/-- Locks do not grow on the way down. -/
theorem lock_le (hm : m ∈ t.live) (hn : n ∈ t.ups m) : (s.node m).lockRef ≤ (s.node n).lockRef := by
  have hmk := w.live_known m hm
  by_cases hr : m = s.rootNode
  · rw [hr, w.root_ups] at hn
    cases hn
  rw [h.lock m hm hr, h.lock n (w.ups_live m hmk hm n hn) (w.mem_ups m hmk n hn).2.1]
  refine Int.ofNat_le.mpr (List.countP_mono_left fun x hx hxm => ?_)
  rw [decide_eq_true_iff] at hxm ⊢
  exact w.ups_trans x (h.known w hx) hxm hn

/-- Below an unlocked node hangs an unlocked leaf: the furthest node below it. -/
theorem exists_leaf (hn : n ∈ t.live) (hr : n ≠ s.rootNode) (h0 : (s.node n).lockRef = 0) : ∃ m, EvictableLeaf s t m := by
  obtain ⟨m, hm, hmax⟩ := exists_max_image (t.live.filter fun m => n ∈ t.ups m) (fun m => (t.path m).length)
    ⟨n, mem_filter.mpr ⟨hn, w.self_mem_ups (w.live_known n hn) hr⟩⟩
  obtain ⟨hmlive, hmn⟩ := mem_filter.mp hm
  have hmr : m ≠ s.rootNode := by
    rintro rfl
    rw [w.root_ups] at hmn
    cases hmn
  refine ⟨m, hmlive, hmr, ?_, ?_⟩
  · by_contra hne
    obtain ⟨⟨k, c⟩, l, hl⟩ := List.exists_cons_of_ne_nil hne
    obtain ⟨hc, hcr, hcp, -⟩ := (w.child_iff m hmlive k c).mp (hl ▸ mem_cons_self)
    have hangs := w.parent_hangs (w.live_known c hc) hcr hcp
    have hle := hmax c (mem_filter.mpr ⟨hc, by rw [hangs.ups]; exact mem_cons_of_mem c hmn⟩)
    have := hangs.path_lt
    omega
  · have h1 := h.lock_le w hmlive hmn
    have h2 := h.nonneg hmlive hmr
    omega

end

end Locked

/-! ## Every run -/

/-- `h` is `n` or below it. -/
inductive Below (s : RadixCache) (n : NodeId) : NodeId → Prop where
  | self : Below s n n
  | child {p c : NodeId} {k : ChildKey} : Below s n p → (k, c) ∈ (s.node p).children.items → Below s n c

open Classical in
/-- The nodes of the tree other than the root. -/
noncomputable def treeNodes (s : RadixCache) : Finset NodeId :=
  (Finset.range s.counter).filter fun n => (∃ q w, Path s n q w) ∧ n ≠ s.rootNode

open Classical in
/-- The number of locks of `held` on `n` or below it. -/
noncomputable def locksBelow (s : RadixCache) (held : List NodeId) (n : NodeId) : Nat := held.countP fun h => Below s n h

/-- Calls on a cache, with the locks that are held. A value is as long as its key, or longer
    than the bigram key that it is cut to. A lock is taken on a node of the tree and given
    back once. -/
inductive Run (cfg : Config) : RadixCache → List NodeId → Prop where
  | init : Run cfg (init cfg) []
  | insert {s s' : RadixCache} {held : List NodeId} {key : RadixKey} {value : List Nat} {r : Nat} : Run cfg s held →
      (value.length = (insertKey cfg key).len ∨ (cfg.isEagle = true ∧ (insertKey cfg key).len ≤ value.length)) →
      RadixCache.insert cfg s key value = .ok (s', r) → Run cfg s' held
  | matchPrefix {s s' : RadixCache} {held : List NodeId} {key : RadixKey} {r : MatchResult} : Run cfg s held →
      matchPrefix cfg s key = .ok (s', r) → Run cfg s' held
  | evict {s s' : RadixCache} {held : List NodeId} {numTokens : Int} {freed : List (List Nat)} : Run cfg s held →
      evict cfg s numTokens = .ok (s', freed) → Run cfg s' held
  | incLockRef {s s' : RadixCache} {held : List NodeId} {n : NodeId} {d : Int} : Run cfg s held → (∃ q w, Path s n q w) →
      incLockRef cfg s n = .ok (s', d) → Run cfg s' (n :: held)
  | decLockRef {s s' : RadixCache} {held : List NodeId} {n : NodeId} {d : Int} : Run cfg s held → n ∈ held →
      decLockRef cfg s n = .ok (s', d) → Run cfg s' (held.erase n)

/-- The nodes `xs` may be taken out of `s` in this order: none is locked, and each comes after
    all of its children. -/
structure LeafOrder (s : RadixCache) (xs : List NodeId) : Prop where
  nodup : xs.Nodup
  mem : ∀ x ∈ xs, x ∈ treeNodes s
  unlocked : ∀ x ∈ xs, (s.node x).lockRef = 0
  children_before : ∀ before x after, xs = before ++ x :: after → ∀ k c, (k, c) ∈ (s.node x).children.items → c ∈ before

structure Accounted (cfg : Config) (s : RadixCache) (held : List NodeId) : Prop where
  evictable : s.evictableSize = ∑ n ∈ (treeNodes s).filter (fun n => (s.node n).lockRef = 0), ((s.node n).key.len : Int)
  protected_ : s.protectedSize = ∑ n ∈ (treeNodes s).filter (fun n => 0 < (s.node n).lockRef), ((s.node n).key.len : Int)
  locks : ∀ n ∈ treeNodes s, (locksBelow s held n : Int) ≤ (s.node n).lockRef
  lock_child : ∀ n ∈ treeNodes s, ∀ k c, (k, c) ∈ (s.node n).children.items → (s.node c).lockRef ≤ (s.node n).lockRef
  lock_nonneg : ∀ n ∈ treeNodes s, 0 ≤ (s.node n).lockRef
  evict : ∀ numTokens, ∃ s' xs, evict cfg s numTokens = .ok (s', xs.map fun x => (s.node x).value) ∧ LeafOrder s xs ∧
    treeNodes s' = (treeNodes s).filter (· ∉ xs) ∧
    min numTokens s.evictableSize ≤ (xs.map fun x => ((s.node x).value.length : Int)).sum ∧
    (xs.map fun x => ((s.node x).value.length : Int)).sum = s.evictableSize - s'.evictableSize

theorem Wf.treeNodes_eq (w : Wf pageSize s t) : treeNodes s = t.live.erase s.rootNode := by
  ext n
  simp only [treeNodes, mem_filter, mem_range, mem_erase]
  constructor
  · rintro ⟨-, ⟨q, v, hp⟩, hr⟩
    exact ⟨hr, (w.path_iff.mp hp).1⟩
  · rintro ⟨hr, hlive⟩
    exact ⟨(w.live_known n hlive).2, ⟨_, _, w.path_iff.mpr ⟨hlive, rfl, rfl⟩⟩, hr⟩

theorem Wf.below_iff (w : Wf pageSize s t) (hn : n ∈ t.live) (hr : n ≠ s.rootNode) {h : NodeId} (hh : h ∈ t.live) :
    Below s n h ↔ n ∈ t.ups h := by
  constructor
  · intro hb
    suffices h : h ∈ t.live ∧ n ∈ t.ups h from h.2
    clear hh
    induction hb with
    | self => exact ⟨hn, w.self_mem_ups (w.live_known n hn) hr⟩
    | @child p c k _ hk ih =>
      obtain ⟨hc, hcr, hcp, -⟩ := (w.child_iff p ih.1 k c).mp hk
      rw [(w.parent_hangs (w.live_known c hc) hcr hcp).ups]
      exact ⟨hc, mem_cons_of_mem c ih.2⟩
  · have hup : ∀ h, s.Known h → h ∈ t.live → n ∈ t.ups h → Below s n h := by
      refine w.climb ?_ ?_
      · intro _ hm
        rw [w.root_ups] at hm
        cases hm
      intro h p _ hhr hp ih hlive hm
      rw [hp.ups] at hm
      rcases mem_cons.mp hm with rfl | hm
      · exact .self
      have hplive := w.parent_live h hlive hhr p hp.parent
      obtain ⟨k, hk⟩ := getChildKey_ok pageSize (List.length_pos_iff.mp hp.key_pos)
      exact .child (ih hplive hm) ((w.child_iff p hplive k h).mpr ⟨hlive, hhr, hp.parent, hk⟩)
    exact hup h (w.live_known h hh) hh

theorem run_locked (hps : 0 < cfg.pageSize) (hd : cfg.disable = false) (h : Run cfg s held) :
    ∃ t, Wf cfg.pageSize s t ∧ Locked s t held := by
  induction h with
  | init =>
    obtain ⟨-, -, he, hp, -⟩ := reset_eq cfg blank
    have hL : (View.fresh (init cfg).rootNode).live.erase (init cfg).rootNode = ∅ := by
      simp [View.fresh]
    refine ⟨View.fresh (init cfg).rootNode, reset_wf cfg _, by simp, ?_, ⟨by rw [hL]; exact he, by rw [hL]; exact hp⟩⟩
    intro n hn hr
    exact absurd (mem_singleton.mp hn) hr
  | insert _ hlen hcall ih =>
    obtain ⟨t, w, hl⟩ := ih
    obtain ⟨s1, t1, r1, hs1, hins⟩ := insert_spec hps hd w _ hlen
    rw [hcall] at hs1
    cases hs1
    exact ⟨t1, hins.wf hps w, hl.inserted w hps hins⟩
  | matchPrefix _ hcall ih =>
    obtain ⟨t, w, hl⟩ := ih
    obtain ⟨s1, t1, n, hs1, hsteps, -⟩ := matchPrefix_spec hps hd w _
    rw [hcall] at hs1
    cases hs1
    exact ⟨t1, hsteps.wf hps w, hl.steps w hps hsteps⟩
  | evict _ hcall ih =>
    obtain ⟨t, w, hl⟩ := ih
    obtain ⟨s1, t1, xs, hs1, hev, -⟩ := evict_spec hd w _
    rw [hcall] at hs1
    cases hs1
    exact ⟨t1, hev.wf w, hl.evicts w hev⟩
  | incLockRef _ hn hcall ih =>
    obtain ⟨t, w, hl⟩ := ih
    obtain ⟨q, v, hpath⟩ := hn
    have hlive := (w.path_iff.mp hpath).1
    have hnk := w.live_known _ hlive
    obtain ⟨d1, hs1, hsame⟩ := incLockRef_spec hd w hnk
    rw [hcall] at hs1
    cases hs1
    exact ⟨t, w.sameTree hsame, hl.inc w hlive⟩
  | decLockRef _ hn hcall ih =>
    obtain ⟨t, w, hl⟩ := ih
    have hnk := hl.known w hn
    obtain ⟨d1, hs1, hsame⟩ := decLockRef_spec hd w hnk
    rw [hcall] at hs1
    cases hs1
    exact ⟨t, w.sameTree hsame, hl.dec w hn⟩

/-- A node goes only after everything below it went. -/
theorem Evicts.leafOrder (w : Wf pageSize s t) (h : Evicts s t xs s' t') : LeafOrder s xs := by
  obtain ⟨hnodup, hmem⟩ := h.mem
  refine ⟨hnodup, fun x hx => ?_, fun x hx => (hmem x hx).2.2, ?_⟩
  · rw [w.treeNodes_eq]
    exact mem_erase.mpr ⟨(hmem x hx).2.1, (hmem x hx).1⟩
  clear hnodup hmem
  induction h with
  | refl =>
    intro before x after he
    cases before <;> cases he
  | @prune xs s1 t1 _ _ y _ _ hev hy _ _ _ _ ih =>
    intro before x after he k c hk
    rcases List.eq_nil_or_concat after with rfl | ⟨after', z, rfl⟩
    · -- the last node out: its children, in the tree at the start, were gone
      obtain ⟨rfl, heq⟩ := List.append_inj' he rfl
      obtain rfl := List.singleton_inj.mp heq
      obtain ⟨-, -, -, hlive⟩ := hev.view_eq
      have hylive : y ∈ t.live := (mem_filter.mp (hlive ▸ hy.live)).1
      obtain ⟨hc, hcr, hcp, hck⟩ := (w.child_iff y hylive k c).mp hk
      by_contra hnot
      have hc1 : c ∈ t1.live := hlive.symm ▸ mem_filter.mpr ⟨hc, by simpa using hnot⟩
      obtain ⟨h1, -, h3, -⟩ := hev.node_eq c
      have := ((hev.wf w).child_iff y hy.live k c).mpr ⟨hc1, hev.root.symm ▸ hcr, h3.symm ▸ hcp, h1.symm ▸ hck⟩
      rw [hy.leaf] at this
      cases this
    · have he' : xs ++ [y] = (before ++ x :: after') ++ [z] := by simpa using he
      obtain ⟨hxs, -⟩ := List.append_inj' he' rfl
      exact ih before x after' hxs k c hk

theorem Evicts.sum_value (w : Wf pageSize s t) (h : Evicts s t xs s' t') :
    (xs.map fun x => ((s.node x).value.length : Int)).sum = s.evictableSize - s'.evictableSize := by
  have hlen : (xs.map fun x => ((s.node x).value.length : Int)) = xs.map fun x => ((s.node x).key.len : Int) := by
    refine List.map_congr_left fun x hx => ?_
    obtain ⟨hxlive, hxr, -⟩ := h.mem.2 x hx
    obtain ⟨p, hp⟩ := w.hangs x (w.live_known x hxlive) hxr
    rw [hp.value_len]
  rw [hlen, h.sizes.1]
  omega

/-- An eviction that stops early has found enough; with no leaf left to go, nothing evictable is left. -/
theorem Locked.evicted_enough (w : Wf pageSize s t) (hl : Locked s t held) (hev : Evicts s t xs s' t')
    {numTokens : Int} (hstop : numTokens ≤ (xs.map fun x => ((s.node x).value.length : Int)).sum ∨ ∀ n, ¬ EvictableLeaf s' t' n) :
    min numTokens s.evictableSize ≤ (xs.map fun x => ((s.node x).value.length : Int)).sum := by
  rcases hstop with hstop | hnone
  · omega
  have hl' := hl.evicts w hev
  have hzero : s'.evictableSize = 0 := by
    rw [hl'.sized.evictable]
    refine sum_eq_zero fun n hn => if_neg fun h0 => ?_
    obtain ⟨m, hm⟩ := hl'.exists_leaf (hev.wf w) (mem_of_mem_erase hn) (ne_of_mem_erase hn) h0
    exact hnone m hm
  have hsum := hev.sum_value w
  omega

theorem radixCache_accounted (hps : 0 < cfg.pageSize) (hd : cfg.disable = false) (h : Run cfg s held) : Accounted cfg s held := by
  obtain ⟨t, w, hl⟩ := run_locked hps hd h
  have hnode : ∀ {n}, n ∈ treeNodes s → n ∈ t.live ∧ n ≠ s.rootNode := by
    intro n hn
    rw [w.treeNodes_eq] at hn
    exact ⟨mem_of_mem_erase hn, ne_of_mem_erase hn⟩
  refine ⟨?_, ?_, ?_, ?_, ?_, ?_⟩
  · rw [hl.sized.evictable, w.treeNodes_eq, sum_filter]
    rfl
  · rw [hl.sized.protected_, w.treeNodes_eq, sum_filter]
    refine sum_congr rfl fun n hn => ?_
    have hpos := hl.nonneg (mem_of_mem_erase hn) (ne_of_mem_erase hn)
    unfold protectedPart
    by_cases h0 : (s.node n).lockRef = 0
    · rw [if_pos h0, if_neg (by omega)]
    · rw [if_neg h0, if_pos (by omega)]
  · intro n hn
    obtain ⟨hlive, hr⟩ := hnode hn
    rw [hl.lock n hlive hr]
    refine le_of_eq (congrArg Nat.cast (countP_congr fun x hx => ?_))
    simp only [decide_eq_true_eq]
    exact w.below_iff hlive hr (hl.held_live x hx)
  · intro n hn k c hk
    obtain ⟨hlive, hr⟩ := hnode hn
    obtain ⟨hc, hcr, hcp, -⟩ := (w.child_iff n hlive k c).mp hk
    refine hl.lock_le w hc ?_
    rw [(w.parent_hangs (w.live_known c hc) hcr hcp).ups]
    exact mem_cons_of_mem c (w.self_mem_ups (w.live_known n hlive) hr)
  · intro n hn
    obtain ⟨hlive, hr⟩ := hnode hn
    exact hl.nonneg hlive hr
  · intro numTokens
    obtain ⟨s', t', xs, hs', hev, hstop⟩ := evict_spec hd w numTokens
    refine ⟨s', xs, hs', hev.leafOrder w, ?_, hl.evicted_enough w hev hstop, hev.sum_value w⟩
    rw [(hev.wf w).treeNodes_eq, w.treeNodes_eq, hev.view_eq.2.2.2, hev.root]
    ext n
    simp only [mem_erase, mem_filter]
    tauto

/-- A lock on one of two leaves; the other may go. -/
theorem radixCache_accounted_fork :
    ∃ s1 s2 s3 s4, RadixCache.insert (plainConfig 1) (init (plainConfig 1)) ⟨[.id 1, .id 2], none⟩ [10, 11] = .ok (s1, 0) ∧
      RadixCache.insert (plainConfig 1) s1 ⟨[.id 1, .id 3], none⟩ [10, 12] = .ok (s2, 1) ∧
      matchPrefix (plainConfig 1) s2 ⟨[.id 1, .id 2], none⟩ = .ok (s3, ⟨[10, 11], 1⟩) ∧
      incLockRef (plainConfig 1) s3 1 = .ok (s4, -2) ∧ Accounted (plainConfig 1) s4 [1] := by
  have hcalls : ∃ s1, RadixCache.insert (plainConfig 1) (init (plainConfig 1)) ⟨[.id 1, .id 2], none⟩ [10, 11] = .ok (s1, 0) ∧
      ∃ s2, RadixCache.insert (plainConfig 1) s1 ⟨[.id 1, .id 3], none⟩ [10, 12] = .ok (s2, 1) ∧
      ∃ s3, matchPrefix (plainConfig 1) s2 ⟨[.id 1, .id 2], none⟩ = .ok (s3, ⟨[10, 11], 1⟩) ∧
      (∃ k, (k, 2) ∈ (s3.node s3.rootNode).children.items) ∧ (∃ k, (k, 1) ∈ (s3.node 2).children.items) ∧
      ∃ s4, incLockRef (plainConfig 1) s3 1 = .ok (s4, -2) :=
    ⟨_, rfl, _, rfl, _, rfl, ⟨.plain (.token (.id 1)), mem_cons_self⟩, ⟨.plain (.token (.id 2)), mem_cons_self⟩, _, rfl⟩
  obtain ⟨s1, h1, s2, h2, s3, h3, ⟨k, hk⟩, ⟨k', hk'⟩, s4, h4⟩ := hcalls
  refine ⟨s1, s2, s3, s4, h1, h2, h3, h4, radixCache_accounted (by decide) rfl ?_⟩
  exact .incLockRef (.matchPrefix (.insert (.insert .init (.inl rfl) h1) (.inl rfl) h2) h3)
    ⟨_, _, .child (.child .root hk) hk'⟩ h4

/-- A node that `match_prefix` returned is evicted and then locked: its size is taken from
    the evictable size, which no node of the tree stands for any more. -/
theorem lock_evicted_node : ∃ s1 s2 s3 s4, RadixCache.insert (plainConfig 1) (init (plainConfig 1)) ⟨[.id 1], none⟩ [10] =
    .ok (s1, 0) ∧
      matchPrefix (plainConfig 1) s1 ⟨[.id 1], none⟩ = .ok (s2, ⟨[10], 1⟩) ∧
      evict (plainConfig 1) s2 1 = .ok (s3, [[10]]) ∧ incLockRef (plainConfig 1) s3 1 = .ok (s4, -1) ∧
      s4.evictableSize = -1 ∧
      ∑ n ∈ (treeNodes s4).filter (fun n => (s4.node n).lockRef = 0), ((s4.node n).key.len : Int) = 0 := by
  have hcalls : ∃ s1, RadixCache.insert (plainConfig 1) (init (plainConfig 1)) ⟨[.id 1], none⟩ [10] = .ok (s1, 0) ∧
      ∃ s2, matchPrefix (plainConfig 1) s1 ⟨[.id 1], none⟩ = .ok (s2, ⟨[10], 1⟩) ∧
      ∃ s3, evict (plainConfig 1) s2 1 = .ok (s3, [[10]]) ∧
      ∃ s4, incLockRef (plainConfig 1) s3 1 = .ok (s4, -1) ∧ s4.evictableSize = -1 ∧
        (s4.node s4.rootNode).children.items = [] := ⟨_, rfl, _, rfl, _, rfl, _, rfl, rfl, rfl⟩
  obtain ⟨s1, h1, s2, h2, s3, h3, s4, h4, hsize, hempty⟩ := hcalls
  refine ⟨s1, s2, s3, s4, h1, h2, h3, h4, hsize, ?_⟩
  have hroot : ∀ n q v, Path s4 n q v → n = s4.rootNode := by
    intro n q v hp
    induction hp with
    | root => rfl
    | child _ hk ih =>
      rw [ih, hempty] at hk
      cases hk
  have hnone : treeNodes s4 = ∅ := by
    refine eq_empty_of_forall_notMem fun n hn => ?_
    simp only [treeNodes, mem_filter] at hn
    obtain ⟨-, ⟨q, v, hp⟩, hr⟩ := hn
    exact hr (hroot n q v hp)
  rw [hnone]
  rfl

end RadixCache

end DynaSpec.MemCache
