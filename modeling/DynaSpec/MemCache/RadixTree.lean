/-
  DynaSpec.MemCache.RadixTree — the shape of the radix tree, and what may change it.

  `Wf` relates the heap of nodes to a `View` of it: the nodes in the tree, and for every
  node of this tree's lifetime, evicted ones included, the tokens and slots on its way from
  the root and the nodes on it. Four things happen to the heap: times, locks and sizes
  change (`SameTree`), a node is split (`Split`), a leaf is added (`Grown`) and a leaf is
  taken out (`Pruned`). Each keeps `Wf`, with the view it leads to.
-/

import DynaSpec.MemCache.RadixKeys
import Mathlib.Data.Finset.Basic

namespace DynaSpec.MemCache

open DynaSpec.Lib List RadixKey Option Dict
open Finset (mem_insert mem_insert_of_mem mem_insert_self mem_of_mem_erase)

variable {n : NodeId} {l : List NodeId} {k : ChildKey}

namespace RadixCache

/-- A node made since the last `reset`, in the tree or evicted from it. -/
def Known (s : RadixCache) (n : NodeId) : Prop := s.rootNode ≤ n ∧ n < s.counter

structure View where
  live : Finset NodeId
  path : NodeId → List Token
  slots : NodeId → List Nat
  /-- The nodes from this one up to the root, the root left out. -/
  ups : NodeId → List NodeId

structure Hangs (s : RadixCache) (t : View) (n p : NodeId) : Prop where
  parent : (s.node n).parent = some p
  known : s.Known p
  path : t.path n = t.path p ++ (s.node n).key.tokenIds
  slots : t.slots n = t.slots p ++ (s.node n).value
  ups : t.ups n = n :: t.ups p
  key_pos : 0 < (s.node n).key.len
  value_len : (s.node n).value.length = (s.node n).key.len

structure RootedAt (s : RadixCache) (t : View) : Prop where
  root_lt : s.rootNode < s.counter
  root_path : t.path s.rootNode = []
  root_slots : t.slots s.rootNode = []
  root_ups : t.ups s.rootNode = []
  root_lock : (s.node s.rootNode).lockRef = 1
  root_live : s.rootNode ∈ t.live

structure Wf (pageSize : Nat) (s : RadixCache) (t : View) : Prop extends RootedAt s t where
  hangs : ∀ n, s.Known n → n ≠ s.rootNode → ∃ p, Hangs s t n p
  live_known : ∀ n ∈ t.live, s.Known n
  parent_live : ∀ n ∈ t.live, n ≠ s.rootNode → ∀ p, (s.node n).parent = some p → p ∈ t.live
  child_iff : ∀ p ∈ t.live, ∀ k c, (k, c) ∈ (s.node p).children.items ↔
    c ∈ t.live ∧ c ≠ s.rootNode ∧ (s.node c).parent = some p ∧ getChildKey pageSize (s.node c).key = .ok k
  namespaced : ∀ c ∈ t.live, c ≠ s.rootNode → ∀ p, (s.node c).parent = some p →
    p = s.rootNode ∨ (s.node c).key.extraKey = (s.node p).key.extraKey

variable {pageSize : Nat} {s s' : RadixCache} {t t' : View}

theorem RootedAt.congr (h : RootedAt s t) (hroot : s'.rootNode = s.rootNode) (hcounter : s.counter ≤ s'.counter)
    (hlock : (s'.node s.rootNode).lockRef = (s.node s.rootNode).lockRef) (hpath : t'.path s.rootNode = t.path s.rootNode)
    (hslots : t'.slots s.rootNode = t.slots s.rootNode) (hups : t'.ups s.rootNode = t.ups s.rootNode)
    (hlive : s.rootNode ∈ t'.live) : RootedAt s' t' := by
  constructor <;> rw [hroot]
  · exact lt_of_lt_of_le h.root_lt hcounter
  · rw [hpath, h.root_path]
  · rw [hslots, h.root_slots]
  · rw [hups, h.root_ups]
  · rw [hlock, h.root_lock]
  · exact hlive

theorem Hangs.path_lt {p : NodeId} (h : Hangs s t n p) : (t.path p).length < (t.path n).length := by
  have := h.key_pos
  rw [h.path, length_append]
  unfold len at this
  omega

/-- The node hangs where it did when what it has is unchanged. -/
theorem Hangs.congr {p : NodeId} {live : Finset NodeId} (h : Hangs s t n p) (hp : s'.Known p)
    (hparent : (s'.node n).parent = (s.node n).parent)
    (hkey : (s'.node n).key = (s.node n).key) (hvalue : (s'.node n).value = (s.node n).value) :
    Hangs s' { t with live } n p :=
  ⟨hparent.trans h.parent, hp, hkey ▸ h.path, hvalue ▸ h.slots, h.ups, hkey ▸ h.key_pos, by rw [hvalue, hkey]; exact h.value_len⟩

theorem Known.ne_counter (h : s.Known n) : n ≠ s.counter := ne_of_lt h.2

section
variable (hroot : s'.rootNode = s.rootNode) (hcounter : s'.counter = s.counter + 1)
include hroot hcounter

theorem Known.next (hn : s.Known n) : s'.Known n := by
  unfold Known at hn ⊢
  rw [hroot, hcounter]
  exact ⟨hn.1, Nat.lt_succ_of_lt hn.2⟩

theorem Known.old (hn : s'.Known n) (hne : n ≠ s.counter) : s.Known n := by
  unfold Known at hn ⊢
  rw [hroot, hcounter] at hn
  exact ⟨hn.1, Nat.lt_of_le_of_ne (Nat.lt_succ_iff.mp hn.2) hne⟩

end

namespace Wf

variable (w : Wf pageSize s t)
include w

theorem known_new (hroot : s'.rootNode = s.rootNode) (hcounter : s'.counter = s.counter + 1) : s'.Known s.counter :=
  ⟨hroot ▸ le_of_lt w.root_lt, hcounter ▸ Nat.lt_succ_self _⟩

/-- Induction from the root down. Keys are not empty, so the way to a parent is shorter. -/
theorem climb {P : NodeId → Prop} (root : P s.rootNode)
    (step : ∀ n p, s.Known n → n ≠ s.rootNode → Hangs s t n p → P p → P n) : ∀ n, s.Known n → P n := by
  intro n
  induction hlen : (t.path n).length using Nat.strong_induction_on generalizing n with
  | _ len ih =>
    intro hn
    by_cases hr : n = s.rootNode
    · exact hr ▸ root
    obtain ⟨p, hp⟩ := w.hangs n hn hr
    exact step n p hn hr hp (ih _ (hlen ▸ hp.path_lt) p rfl hp.known)

theorem parent_hangs {p : NodeId} (hn : s.Known n) (hr : n ≠ s.rootNode) (hp : (s.node n).parent = some p) : Hangs s t n p := by
  obtain ⟨q, hq⟩ := w.hangs n hn hr
  rw [hq.parent] at hp
  cases hp
  exact hq

/-- What is above a node is known, is not the root, and is no further from it. -/
theorem mem_ups : ∀ n, s.Known n → ∀ m ∈ t.ups n, s.Known m ∧ m ≠ s.rootNode ∧ (t.path m).length ≤ (t.path n).length := by
  refine w.climb ?_ ?_
  · intro m hm
    rw [w.root_ups] at hm
    cases hm
  intro n p hn hr hp ih m hm
  have hlt := hp.path_lt
  rw [hp.ups] at hm
  rcases mem_cons.mp hm with rfl | hm
  · exact ⟨hn, hr, le_refl _⟩
  · obtain ⟨h1, h2, h3⟩ := ih m hm
    exact ⟨h1, h2, by omega⟩

theorem not_mem_ups_parent {p : NodeId} (h : Hangs s t n p) : n ∉ t.ups p := by
  intro hm
  have := (w.mem_ups p h.known n hm).2.2
  have := h.path_lt
  omega

theorem ups_nodup : ∀ n, s.Known n → (t.ups n).Nodup := by
  refine w.climb ?_ ?_
  · rw [w.root_ups]
    exact nodup_nil
  · intro n p _ _ hp ih
    rw [hp.ups]
    exact nodup_cons.mpr ⟨w.not_mem_ups_parent hp, ih⟩

theorem slots_length : ∀ n, s.Known n → (t.slots n).length = (t.path n).length := by
  refine w.climb ?_ ?_
  · rw [w.root_slots, w.root_path]
    rfl
  · intro n p _ _ hp ih
    rw [hp.slots, hp.path, length_append, length_append, ih, hp.value_len]
    rfl

end Wf

/-! ## What leaves the tree as it is -/

structure SameTree (s s' : RadixCache) : Prop where
  root : s'.rootNode = s.rootNode
  counter : s'.counter = s.counter
  children : ∀ n, (s'.node n).children = (s.node n).children
  parent : ∀ n, (s'.node n).parent = (s.node n).parent
  key : ∀ n, (s'.node n).key = (s.node n).key
  value : ∀ n, (s'.node n).value = (s.node n).value
  root_lock : (s'.node s.rootNode).lockRef = (s.node s.rootNode).lockRef

theorem SameTree.refl (s : RadixCache) : SameTree s s := ⟨rfl, rfl, fun _ => rfl, fun _ => rfl, fun _ => rfl, fun _ => rfl, rfl⟩

theorem SameTree.trans {s'' : RadixCache} (h : SameTree s s') (h' : SameTree s' s'') : SameTree s s'' where
  root := h'.root.trans h.root
  counter := h'.counter.trans h.counter
  children n := (h'.children n).trans (h.children n)
  parent n := (h'.parent n).trans (h.parent n)
  key n := (h'.key n).trans (h.key n)
  value n := (h'.value n).trans (h.value n)
  root_lock := (h.root ▸ h'.root_lock).trans h.root_lock

theorem SameTree.known (h : SameTree s s') : s'.Known n ↔ s.Known n := by
  unfold Known
  rw [h.root, h.counter]

theorem Wf.sameTree (w : Wf pageSize s t) (h : SameTree s s') : Wf pageSize s' t where
  toRootedAt := w.toRootedAt.congr h.root h.counter.ge h.root_lock rfl rfl rfl w.root_live
  hangs n hn hr := by
    rw [h.root] at hr
    obtain ⟨p, hp⟩ := w.hangs n (h.known.mp hn) hr
    exact ⟨p, hp.congr (h.known.mpr hp.known) (h.parent n) (h.key n) (h.value n)⟩
  live_known n hn := h.known.mpr (w.live_known n hn)
  parent_live n hn hr p hp := by
    rw [h.root] at hr
    rw [h.parent] at hp
    exact w.parent_live n hn hr p hp
  child_iff p hp k c := by
    rw [h.children, h.parent, h.key, h.root]
    exact w.child_iff p hp k c
  namespaced c hc hr p hp := by
    rw [h.root] at hr ⊢
    rw [h.parent] at hp
    rw [h.key, h.key]
    exact w.namespaced c hc hr p hp

/-! ## A new node -/

/-- A new node comes below `p`, above the children of `p` that are `moved`. -/
structure Added (pageSize : Nat) (s s' : RadixCache) (t : View) (p : NodeId) (moved : NodeId → Prop) : Prop where
  root : s'.rootNode = s.rootNode
  counter : s'.counter = s.counter + 1
  lock : (s'.node s.rootNode).lockRef = (s.node s.rootNode).lockRef
  live : p ∈ t.live
  moved_child : ∀ n, moved n → n ∈ t.live ∧ n ≠ s.rootNode ∧ (s.node n).parent = some p
  parent_new : (s'.node s.counter).parent = some p
  parent_moved : ∀ n, moved n → (s'.node n).parent = some s.counter
  parent : ∀ n, n ≠ s.counter → ¬ moved n → (s'.node n).parent = (s.node n).parent
  key : ∀ n, n ≠ s.counter → ¬ moved n → (s'.node n).key = (s.node n).key
  extra : ∀ n, n ≠ s.counter → (s'.node n).key.extraKey = (s.node n).key.extraKey
  extra_new : p = s.rootNode ∨ (s'.node s.counter).key.extraKey = (s.node p).key.extraKey
  extra_moved : ∀ n, moved n → (s.node n).key.extraKey = (s'.node s.counter).key.extraKey
  children_new : ∀ k x, (k, x) ∈ (s'.node s.counter).children.items ↔ moved x ∧ getChildKey pageSize (s'.node x).key = .ok k
  children_parent : ∀ k x, (k, x) ∈ (s'.node p).children.items ↔
    (x = s.counter ∧ getChildKey pageSize (s'.node s.counter).key = .ok k) ∨ (¬ moved x ∧ (k, x) ∈ (s.node p).children.items)
  children : ∀ n, n ≠ s.counter → n ≠ p → (s'.node n).children = (s.node n).children

section
variable {p : NodeId} {moved : NodeId → Prop} (w : Wf pageSize s t) (h : Added pageSize s s' t p moved)
include w h

theorem Added.parent_cases {q : NodeId} (hn : n ∈ insert s.counter t.live) (hq : (s'.node n).parent = some q) :
    (n = s.counter ∧ q = p) ∨ (moved n ∧ q = s.counter) ∨ (n ∈ t.live ∧ ¬ moved n ∧ (s.node n).parent = some q) := by
  rcases mem_insert.mp hn with rfl | hn
  · exact .inl ⟨rfl, some.inj (hq.symm.trans h.parent_new)⟩
  by_cases hm : moved n
  · exact .inr (.inl ⟨hm, some.inj (hq.symm.trans (h.parent_moved n hm))⟩)
  · rw [h.parent n (w.live_known n hn).ne_counter hm] at hq
    exact .inr (.inr ⟨hn, hm, hq⟩)

theorem Added.child_iff {q : NodeId} (hq : q ∈ insert s.counter t.live) (k : ChildKey) (x : NodeId) :
    (k, x) ∈ (s'.node q).children.items ↔ x ∈ insert s.counter t.live ∧ x ≠ s.rootNode ∧ (s'.node x).parent = some q ∧
      getChildKey pageSize (s'.node x).key = .ok k := by
  have hpne := (w.live_known p h.live).ne_counter
  rcases mem_insert.mp hq with rfl | hqlive
  · rw [h.children_new]
    constructor
    · rintro ⟨hm, hk⟩
      obtain ⟨hx, hxr, -⟩ := h.moved_child x hm
      exact ⟨mem_insert_of_mem hx, hxr, h.parent_moved x hm, hk⟩
    · rintro ⟨hx, hxr, hxp, hxk⟩
      rcases h.parent_cases w hx hxp with ⟨-, he⟩ | ⟨hm, -⟩ | ⟨hx, -, hxp⟩
      · exact absurd he.symm hpne
      · exact ⟨hm, hxk⟩
      · exact absurd rfl (w.parent_hangs (w.live_known x hx) hxr hxp).known.ne_counter
  have hqne := (w.live_known q hqlive).ne_counter
  -- a node in the tree has the children that were not moved, and `p` the new one
  have hitems : (k, x) ∈ (s'.node q).children.items ↔
    (x = s.counter ∧ q = p ∧ getChildKey pageSize (s'.node s.counter).key = .ok k) ∨
      (¬ moved x ∧ (k, x) ∈ (s.node q).children.items) := by
    by_cases hqp : q = p
    · rw [hqp, h.children_parent]
      simp
    rw [h.children q hqne hqp, w.child_iff q hqlive]
    constructor
    · rintro ⟨hx, hxr, hxp, hxk⟩
      refine .inr ⟨fun hm => hqp ?_, hx, hxr, hxp, hxk⟩
      exact some.inj (hxp.symm.trans (h.moved_child x hm).2.2)
    · rintro (⟨-, he, -⟩ | ⟨-, hx⟩)
      · exact absurd he hqp
      · exact hx
  rw [hitems, w.child_iff q hqlive]
  constructor
  · rintro (⟨rfl, rfl, hk⟩ | ⟨hm, hx, hxr, hxp, hxk⟩)
    · exact ⟨mem_insert_self _ _, ne_of_gt w.root_lt, h.parent_new, hk⟩
    · have hxne := (w.live_known x hx).ne_counter
      rw [h.parent x hxne hm, h.key x hxne hm]
      exact ⟨mem_insert_of_mem hx, hxr, hxp, hxk⟩
  · rintro ⟨hx, hxr, hxp, hxk⟩
    rcases h.parent_cases w hx hxp with ⟨rfl, he⟩ | ⟨-, he⟩ | ⟨hx, hm, hxp⟩
    · exact .inl ⟨rfl, he, hxk⟩
    · exact absurd he hqne
    · rw [h.key x (w.live_known x hx).ne_counter hm] at hxk
      exact .inr ⟨hm, hx, hxr, hxp, hxk⟩

/-- The new node keeps the shape, if the view has the ways that it makes. -/
theorem Wf.added (hlive : t'.live = insert s.counter t.live) (hpath : t'.path s.rootNode = t.path s.rootNode)
    (hslots : t'.slots s.rootNode = t.slots s.rootNode) (hups : t'.ups s.rootNode = t.ups s.rootNode)
    (hangs : ∀ n, s'.Known n → n ≠ s.rootNode → ∃ q, Hangs s' t' n q) : Wf pageSize s' t' where
  toRootedAt := w.toRootedAt.congr h.root (by rw [h.counter]; exact Nat.le_succ _) h.lock hpath hslots hups
    (by rw [hlive]; exact mem_insert_of_mem w.root_live)
  hangs n hn hnr := hangs n hn (h.root ▸ hnr)
  live_known n hn := by
    rw [hlive] at hn
    rcases mem_insert.mp hn with rfl | hn
    · exact w.known_new h.root h.counter
    · exact (w.live_known n hn).next h.root h.counter
  parent_live n hn hnr q hq := by
    rw [hlive] at hn ⊢
    rw [h.root] at hnr
    rcases h.parent_cases w hn hq with ⟨-, rfl⟩ | ⟨-, rfl⟩ | ⟨hn, -, hq⟩
    · exact mem_insert_of_mem h.live
    · exact mem_insert_self _ _
    · exact mem_insert_of_mem (w.parent_live n hn hnr q hq)
  child_iff q hq k x := by
    rw [hlive] at hq ⊢
    rw [h.root]
    exact h.child_iff w hq k x
  namespaced n hn hnr q hq := by
    rw [hlive] at hn
    rw [h.root] at hnr ⊢
    rcases h.parent_cases w hn hq with ⟨rfl, rfl⟩ | ⟨hm, rfl⟩ | ⟨hn, -, hq⟩
    · rw [h.extra q (w.live_known q h.live).ne_counter]
      exact h.extra_new
    · rw [h.extra n (w.live_known n (h.moved_child n hm).1).ne_counter]
      exact .inr (h.extra_moved n hm)
    · rw [h.extra n (w.live_known n hn).ne_counter, h.extra q (w.parent_hangs (w.live_known n hn) hnr hq).known.ne_counter]
      exact w.namespaced n hn hnr q hq

end

/-! ## Splitting a node -/

/-- Node `c` below `p` keeps the end of its key; a new node takes the first `r` tokens and
    the place below `p`. -/
structure Split (pageSize : Nat) (s s' : RadixCache) (c p : NodeId) (r : Nat) : Prop where
  root : s'.rootNode = s.rootNode
  counter : s'.counter = s.counter + 1
  evictable : s'.evictableSize = s.evictableSize
  protected_ : s'.protectedSize = s.protectedSize
  parent : ∀ n, (s'.node n).parent = if n = s.counter then some p else if n = c then some s.counter else (s.node n).parent
  key : ∀ n, (s'.node n).key = if n = s.counter then (s.node c).key.upto r else if n = c then (s.node c).key.from_ r
    else (s.node n).key
  value : ∀ n, (s'.node n).value =
    if n = s.counter then (s.node c).value.take r else if n = c then (s.node c).value.drop r else (s.node n).value
  lock : ∀ n, (s'.node n).lockRef = if n = s.counter then (s.node c).lockRef else (s.node n).lockRef
  children_new : ∀ k x, (k, x) ∈ (s'.node s.counter).children.items ↔ x = c ∧
    getChildKey pageSize ((s.node c).key.from_ r) = .ok k
  children_parent : ∃ k, getChildKey pageSize (s.node c).key = .ok k ∧ (s'.node p).children = (s.node p).children.set k s.counter
  children : ∀ n, n ≠ s.counter → n ≠ p → (s'.node n).children = (s.node n).children

/-- The view after a split: the new node is on the way to `c` and to what is below it. -/
def View.split (t : View) (c p new : NodeId) (tokens : List Token) (value : List Nat) : View where
  live := insert new t.live
  path := upd t.path new (t.path p ++ tokens)
  slots := upd t.slots new (t.slots p ++ value)
  ups n := if n = new then new :: t.ups p else (t.ups n).flatMap fun x => if x = c then [c, new] else [x]

theorem flatMap_split_of_not_mem {c new : NodeId} (h : c ∉ l) : (l.flatMap fun x => if x = c then [c, new] else [x]) = l := by
  induction l with
  | nil => rfl
  | cons x l ih =>
    have hx : x ≠ c := fun e => h (e ▸ mem_cons_self)
    rw [flatMap_cons, if_neg hx, ih fun hm => h (mem_cons_of_mem x hm)]
    rfl

theorem mem_flatMap_split {c new m : NodeId} : m ∈ (l.flatMap fun x => if x = c then [c, new] else [x]) ↔ m ∈ l ∨
    (m = new ∧ c ∈ l) := by
  rw [mem_flatMap]
  constructor
  · rintro ⟨x, hx, hm⟩
    split at hm
    · rename_i hxc
      subst hxc
      rcases mem_cons.mp hm with rfl | hm
      · exact .inl hx
      · exact .inr ⟨mem_singleton.mp hm, hx⟩
    · exact .inl (mem_singleton.mp hm ▸ hx)
  · rintro (hm | ⟨rfl, hc⟩)
    · refine ⟨m, hm, ?_⟩
      split
      · rename_i h
        exact h ▸ mem_cons_self
      · exact mem_cons_self
    · exact ⟨c, hc, by simp⟩

section split
variable {c p : NodeId} {r : Nat}

section
variable (h : Split pageSize s s' c p r)
include h

theorem Split.extraKey (hne : n ≠ s.counter) : (s'.node n).key.extraKey = (s.node n).key.extraKey := by
  rw [h.key, if_neg hne]
  split
  · rename_i hc
    rw [hc]
    rfl
  · rfl

end

section
variable (w : Wf pageSize s t) (h : Split pageSize s s' c p r) (hcr : c ≠ s.rootNode) (hp : (s.node c).parent = some p)
include w h hcr hp

theorem Wf.hangs_split (hc : s.Known c) (h0 : 0 < r) (hr : r < (s.node c).key.len) (n : NodeId) (hn : s'.Known n)
    (hnr : n ≠ s.rootNode) :
    ∃ q, Hangs s' (t.split c p s.counter ((s.node c).key.tokenIds.take r) ((s.node c).value.take r)) n q := by
  have hcp := w.parent_hangs hc hcr hp
  have hcne := hc.ne_counter
  have hpne := hcp.known.ne_counter
  have hvlen := hcp.value_len
  have hklen : (s.node c).key.tokenIds.length = (s.node c).key.len := rfl
  by_cases hnew : n = s.counter
  · subst hnew
    refine ⟨p, by simp [h.parent], hcp.known.next h.root h.counter, ?_, ?_, ?_, ?_, ?_⟩
    · simp [View.split, h.key, hpne]
    · simp [View.split, h.value, hpne]
    · simp only [View.split, if_true, hpne, if_false]
      rw [flatMap_split_of_not_mem (w.not_mem_ups_parent hcp)]
    · simp only [h.key, if_true, len, tokenIds_upto, length_take]
      omega
    · simp only [h.key, h.value, if_true, len, tokenIds_upto, length_take]
      omega
  by_cases hnc : n = c
  · subst hnc
    refine ⟨s.counter, by simp [h.parent, hcne], w.known_new h.root h.counter, ?_, ?_, ?_, ?_, ?_⟩
    · simp only [View.split, h.key, upd_ne _ _ hcne, upd_same, hcne, if_true, if_false, tokenIds_from]
      rw [hcp.path, append_assoc, take_append_drop]
    · simp only [View.split, h.value, upd_ne _ _ hcne, upd_same, hcne, if_true, if_false]
      rw [hcp.slots, append_assoc, take_append_drop]
    · simp only [View.split, hcne, if_true, if_false]
      rw [hcp.ups, flatMap_cons, if_pos rfl, flatMap_split_of_not_mem (w.not_mem_ups_parent hcp)]
      rfl
    · simp only [h.key, hcne, if_true, if_false, len, tokenIds_from, length_drop]
      omega
    · simp only [h.key, h.value, hcne, if_true, if_false, len, tokenIds_from, length_drop]
      omega
  obtain ⟨q, hq⟩ := w.hangs n (hn.old h.root h.counter hnew) hnr
  have hqne := hq.known.ne_counter
  refine ⟨q, ?_, hq.known.next h.root h.counter, ?_, ?_, ?_, ?_, ?_⟩
  · rw [h.parent, if_neg hnew, if_neg hnc]
    exact hq.parent
  · simp only [View.split, h.key, upd_ne _ _ hnew, upd_ne _ _ hqne, hnew, hnc, if_false]
    exact hq.path
  · simp only [View.split, h.value, upd_ne _ _ hnew, upd_ne _ _ hqne, hnew, hnc, if_false]
    exact hq.slots
  · simp only [View.split, hnew, hqne, if_false]
    rw [hq.ups, flatMap_cons, if_neg hnc]
    rfl
  · simp only [h.key, hnew, hnc, if_false]
    exact hq.key_pos
  · simp only [h.key, h.value, hnew, hnc, if_false]
    exact hq.value_len

theorem Wf.added_split (hps : 0 < pageSize) (hc : c ∈ t.live) (hr : pageSize ≤ r) : Added pageSize s s' t p (· = c) := by
  have hcp := w.parent_hangs (w.live_known c hc) hcr hp
  have hcne := (w.live_known c hc).ne_counter
  have hplive := w.parent_live c hc hcr p hp
  have hnewkey : (s'.node s.counter).key = (s.node c).key.upto r := by rw [h.key, if_pos rfl]
  obtain ⟨k0, hk0, hset⟩ := h.children_parent
  have hentry : (k0, c) ∈ (s.node p).children.items := (w.child_iff p hplive k0 c).mpr ⟨hc, hcr, hp, hk0⟩
  refine ⟨h.root, h.counter, ?_, hplive, ?_, ?_, ?_, ?_, ?_, fun n hn => h.extraKey hn, ?_, ?_, fun k x => ?_,
    fun k x => ?_, h.children⟩
  · rw [h.lock, if_neg (ne_of_lt w.root_lt)]
  · rintro n rfl
    exact ⟨hc, hcr, hp⟩
  · rw [h.parent, if_pos rfl]
  · rintro n rfl
    rw [h.parent, if_neg hcne, if_pos rfl]
  · intro n hn hnc
    rw [h.parent, if_neg hn, if_neg hnc]
  · intro n hn hnc
    rw [h.key, if_neg hn, if_neg hnc]
  · rw [hnewkey]
    exact w.namespaced c hc hcr p hp
  · rintro n rfl
    rw [hnewkey]
    rfl
  · rw [h.children_new]
    refine and_congr_right fun hxc => ?_
    rw [hxc, h.key, if_neg hcne, if_pos rfl]
  · rw [hset, Dict.mem_set, hnewkey, getChildKey_upto hps hr (length_pos_iff.mp hcp.key_pos), hk0]
    constructor
    · rintro (⟨rfl, rfl⟩ | ⟨hk, hx⟩)
      · exact .inl ⟨rfl, rfl⟩
      · refine .inr ⟨?_, hx⟩
        rintro rfl
        have := ((w.child_iff p hplive k x).mp hx).2.2.2
        rw [hk0] at this
        exact hk (Except.ok.inj this).symm
    · rintro (⟨rfl, hk⟩ | ⟨hxc, hx⟩)
      · exact .inl ⟨(Except.ok.inj hk).symm, rfl⟩
      · refine .inr ⟨?_, hx⟩
        rintro rfl
        exact hxc (unique hx hentry)

theorem Wf.split (hps : 0 < pageSize) (hc : c ∈ t.live) (hr : pageSize ≤ r) (hlen : r < (s.node c).key.len) :
    Wf pageSize s' (t.split c p s.counter ((s.node c).key.tokenIds.take r) ((s.node c).value.take r)) := by
  have hrootne : s.rootNode ≠ s.counter := ne_of_lt w.root_lt
  refine w.added (w.added_split h hcr hp hps hc hr) rfl (upd_ne _ _ hrootne) (upd_ne _ _ hrootne) ?_
    (w.hangs_split h hcr hp (w.live_known c hc) (lt_of_lt_of_le hps hr) hlen)
  simp [View.split, hrootne, w.root_ups]

end

end split

/-! ## Adding a leaf -/

structure Grown (s s' : RadixCache) (p : NodeId) (k : ChildKey) (key : RadixKey) (value : List Nat) : Prop where
  root : s'.rootNode = s.rootNode
  counter : s'.counter = s.counter + 1
  evictable : s'.evictableSize = s.evictableSize + key.len
  protected_ : s'.protectedSize = s.protectedSize
  parent : ∀ n, (s'.node n).parent = if n = s.counter then some p else (s.node n).parent
  key_ : ∀ n, (s'.node n).key = if n = s.counter then key else (s.node n).key
  value_ : ∀ n, (s'.node n).value = if n = s.counter then value else (s.node n).value
  lock : ∀ n, (s'.node n).lockRef = if n = s.counter then 0 else (s.node n).lockRef
  children_new : (s'.node s.counter).children.items = []
  children_parent : (s'.node p).children = (s.node p).children.set k s.counter
  children : ∀ n, n ≠ s.counter → n ≠ p → (s'.node n).children = (s.node n).children

def View.grow (t : View) (p new : NodeId) (tokens : List Token) (value : List Nat) : View where
  live := insert new t.live
  path := upd t.path new (t.path p ++ tokens)
  slots := upd t.slots new (t.slots p ++ value)
  ups := upd t.ups new (new :: t.ups p)

section
variable {p : NodeId} {key : RadixKey} {value : List Nat} (w : Wf pageSize s t) (h : Grown s s' p k key value) (hp : p ∈ t.live)
include w h hp

theorem Wf.hangs_grow (hpos : 0 < key.len) (hvalue : value.length = key.len) (n : NodeId) (hn : s'.Known n)
    (hnr : n ≠ s.rootNode) :
    ∃ q, Hangs s' (t.grow p s.counter key.tokenIds value) n q := by
  have hpk := w.live_known p hp
  have hpne := hpk.ne_counter
  by_cases hnew : n = s.counter
  · subst hnew
    refine ⟨p, by simp [h.parent], hpk.next h.root h.counter, ?_, ?_, ?_, ?_, ?_⟩
    · simp [View.grow, h.key_, hpne]
    · simp [View.grow, h.value_, hpne]
    · simp [View.grow, hpne]
    · rw [h.key_, if_pos rfl]
      exact hpos
    · rw [h.key_, h.value_, if_pos rfl, if_pos rfl]
      exact hvalue
  obtain ⟨q, hq⟩ := w.hangs n (hn.old h.root h.counter hnew) hnr
  have hqne := hq.known.ne_counter
  refine ⟨q, ?_, hq.known.next h.root h.counter, ?_, ?_, ?_, ?_, ?_⟩
  · rw [h.parent, if_neg hnew]
    exact hq.parent
  · simpa [View.grow, h.key_, hnew, hqne] using hq.path
  · simpa [View.grow, h.value_, hnew, hqne] using hq.slots
  · simpa [View.grow, hnew, hqne] using hq.ups
  · rw [h.key_, if_neg hnew]
    exact hq.key_pos
  · rw [h.key_, h.value_, if_neg hnew, if_neg hnew]
    exact hq.value_len

theorem Wf.added_grow (hk : getChildKey pageSize key = .ok k) (hfree : (s.node p).children.get? k = none)
    (hextra : p = s.rootNode ∨ key.extraKey = (s.node p).key.extraKey) : Added pageSize s s' t p fun _ => False := by
  have hkey : ∀ n, n ≠ s.counter → (s'.node n).key = (s.node n).key := fun n hn => by rw [h.key_, if_neg hn]
  have hnewkey : (s'.node s.counter).key = key := by rw [h.key_, if_pos rfl]
  refine ⟨h.root, h.counter, ?_, hp, nofun, ?_, nofun, ?_, fun n hn _ => hkey n hn, fun n hn => congrArg _ (hkey n hn), ?_, nofun,
    fun k' x => ?_, fun k' x => ?_, h.children⟩
  · rw [h.lock, if_neg (ne_of_lt w.root_lt)]
  · rw [h.parent, if_pos rfl]
  · intro n hn _
    rw [h.parent, if_neg hn]
  · rw [hnewkey]
    exact hextra
  · rw [h.children_new]
    simp
  · rw [h.children_parent, Dict.mem_set, hnewkey, hk]
    constructor
    · rintro (⟨rfl, rfl⟩ | ⟨-, hx⟩)
      · exact .inl ⟨rfl, rfl⟩
      · exact .inr ⟨id, hx⟩
    · rintro (⟨rfl, hk'⟩ | ⟨-, hx⟩)
      · exact .inl ⟨(Except.ok.inj hk').symm, rfl⟩
      · refine .inr ⟨?_, hx⟩
        rintro rfl
        exact get?_eq_none.mp hfree x hx

theorem Wf.grow (hpos : 0 < key.len) (hvalue : value.length = key.len) (hk : getChildKey pageSize key = .ok k)
    (hfree : (s.node p).children.get? k = none) (hextra : p = s.rootNode ∨ key.extraKey = (s.node p).key.extraKey) :
    Wf pageSize s' (t.grow p s.counter key.tokenIds value) := by
  have hrootne : s.rootNode ≠ s.counter := ne_of_lt w.root_lt
  exact w.added (w.added_grow h hp hk hfree hextra) rfl (upd_ne _ _ hrootne) (upd_ne _ _ hrootne) (upd_ne _ _ hrootne)
    (w.hangs_grow h hp hpos hvalue)

end

/-! ## Taking out a leaf -/

structure Pruned (s s' : RadixCache) (x p : NodeId) (k : ChildKey) : Prop where
  root : s'.rootNode = s.rootNode
  counter : s'.counter = s.counter
  evictable : s'.evictableSize = s.evictableSize - (s.node x).key.len
  protected_ : s'.protectedSize = s.protectedSize
  parent : ∀ n, (s'.node n).parent = (s.node n).parent
  key : ∀ n, (s'.node n).key = (s.node n).key
  value : ∀ n, (s'.node n).value = (s.node n).value
  lock : ∀ n, (s'.node n).lockRef = (s.node n).lockRef
  entry : (k, x) ∈ (s.node p).children.items
  children_parent : (s'.node p).children = (s.node p).children.erase k
  children : ∀ n, n ≠ p → (s'.node n).children = (s.node n).children

def View.prune (t : View) (x : NodeId) : View := { t with live := t.live.erase x }

theorem Wf.prune {x p : NodeId} (w : Wf pageSize s t) (h : Pruned s s' x p k) (hx : x ∈ t.live)
    (hxr : x ≠ s.rootNode) (hxp : (s.node x).parent = some p) (hleaf : (s.node x).children.items = []) :
    Wf pageSize s' (t.prune x) := by
  have hknown : ∀ n, s'.Known n ↔ s.Known n := by
    intro n
    unfold Known
    rw [h.root, h.counter]
  have hplive := w.parent_live x hx hxr p hxp
  have hxk : getChildKey pageSize (s.node x).key = .ok k := ((w.child_iff p hplive k x).mp h.entry).2.2.2
  constructor
  · exact w.toRootedAt.congr h.root h.counter.ge (h.lock _) rfl rfl rfl (Finset.mem_erase.mpr ⟨Ne.symm hxr, w.root_live⟩)
  · intro n hn hnr
    rw [h.root] at hnr
    obtain ⟨q, hq⟩ := w.hangs n ((hknown n).mp hn) hnr
    exact ⟨q, hq.congr ((hknown q).mpr hq.known) (h.parent n) (h.key n) (h.value n)⟩
  · intro n hn
    exact (hknown n).mpr (w.live_known n (mem_of_mem_erase hn))
  · intro n hn hnr q hq
    rw [h.root] at hnr
    rw [h.parent] at hq
    have hnlive := mem_of_mem_erase hn
    refine Finset.mem_erase.mpr ⟨?_, w.parent_live n hnlive hnr q hq⟩
    -- `n` would be an entry of the leaf
    rintro rfl
    have hqk := w.parent_hangs (w.live_known n hnlive) hnr hq
    obtain ⟨k', hk'⟩ := getChildKey_ok pageSize (length_pos_iff.mp hqk.key_pos)
    have := (w.child_iff q hx k' n).mpr ⟨hnlive, hnr, hq, hk'⟩
    rw [hleaf] at this
    cases this
  · intro q hq k' y
    have hqlive := mem_of_mem_erase hq
    rw [h.root, h.parent, h.key]
    show (k', y) ∈ (s'.node q).children.items ↔ y ∈ t.live.erase x ∧ _
    rw [Finset.mem_erase]
    by_cases hqp : q = p
    · subst hqp
      rw [h.children_parent, mem_erase, w.child_iff q hqlive]
      constructor
      · rintro ⟨hk', hy, hyr, hyp, hyk⟩
        refine ⟨⟨?_, hy⟩, hyr, hyp, hyk⟩
        rintro rfl
        rw [hxk] at hyk
        exact hk' (Except.ok.inj hyk).symm
      · rintro ⟨⟨hyx, hy⟩, hyr, hyp, hyk⟩
        refine ⟨?_, hy, hyr, hyp, hyk⟩
        rintro rfl
        have hmem := (w.child_iff q hqlive k' y).mpr ⟨hy, hyr, hyp, hyk⟩
        exact hyx (unique hmem h.entry)
    rw [h.children q hqp, w.child_iff q hqlive]
    constructor
    · rintro ⟨hy, hyr, hyp, hyk⟩
      refine ⟨⟨?_, hy⟩, hyr, hyp, hyk⟩
      rintro rfl
      rw [hxp] at hyp
      exact hqp (some.inj hyp).symm
    · rintro ⟨⟨-, hy⟩, hyr, hyp, hyk⟩
      exact ⟨hy, hyr, hyp, hyk⟩
  · intro n hn hnr q hq
    rw [h.root] at hnr ⊢
    rw [h.parent] at hq
    rw [h.key, h.key]
    exact w.namespaced n (mem_of_mem_erase hn) hnr q hq

end RadixCache

end DynaSpec.MemCache
