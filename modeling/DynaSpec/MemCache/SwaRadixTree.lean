/-
  DynaSpec.MemCache.SwaRadixTree — the tree, the LRU lists and the sizes of `SwaRadixCache`.

  `Base` says that the nodes form a tree, that the lists have its nodes and its non-tombstones,
  that no tombstone is a leaf, and that the four sizes are the tokens of the nodes that they are
  about. What the operations do to single nodes keeps this: a node cut in two (`Base.split`), a
  new leaf (`Base.grow`), a leaf taken out (`Base.prune`), and a node whose lock, uuid or
  tombstone changes (`Base.change`).
-/

import DynaSpec.Lib.EdgeTree
import DynaSpec.MemCache.RadixKeys
import DynaSpec.MemCache.SwaRadixCache

namespace DynaSpec.MemCache.SwaRadix

open DynaSpec.Lib SwaCache Finset EdgeTree LruList

variable {value : List Nat} {live' : Finset NodeId} {key : RadixKey} {k : NodeId} {y : ChildKey}

/-! ## The tree -/

def SwaCache.arena (pageSize : Nat) (s : SwaCache) : EdgeTree ChildKey where
  label n := word pageSize (s.node n).key
  parent n := (s.node n).parent
  child n x := (s.node n).children.get? x
  next := s.counter

structure Wf (pageSize : Nat) (s : SwaCache) (live : Finset NodeId) (path : NodeId → List ChildKey) : Prop where
  shape : (s.arena pageSize).Shape live path
  aligned : ∀ n ∈ live, pageSize ∣ (s.node n).key.len
  values : ∀ n ∈ live, (s.node n).value.length = (s.node n).key.len

@[simp] theorem SwaCache.node_modify_same (s : SwaCache) (n : NodeId) (f : TreeNode → TreeNode) :
    (s.modify n f).node n = f (s.node n) := by
  simp [modify]

theorem SwaCache.node_modify_ne (s : SwaCache) {n m : NodeId} (f : TreeNode → TreeNode) (h : m ≠ n) :
    (s.modify n f).node m = s.node m := by
  simp [modify, upd, h]

variable {pageSize : Nat} {s s' : SwaCache} {live : Finset NodeId} {path : NodeId → List ChildKey}

namespace Wf

variable (w : Wf pageSize s live path)
include w

variable {n : NodeId}

theorem ne_counter (hn : n ∈ live) : n ≠ s.counter := w.shape.ne_next hn

theorem key_pos (hn : n ∈ live) (h0 : n ≠ 0) : 0 < (s.node n).key.len :=
  len_pos_of_word (w.shape.label_ne_nil hn h0)

theorem child {p c : NodeId} {x : ChildKey} (hp : p ∈ live) (hc : (s.node p).children.get? x = some c) :
    c ∈ live ∧ c ≠ 0 ∧ (s.node c).parent = some p ∧ (word pageSize (s.node c).key).head? = some x :=
  w.shape.down p hp x c hc

/-- A node other than the root has a parent, which has it as a child. -/
theorem up (hn : n ∈ live) (h0 : n ≠ 0) : ∃ p x, p ∈ live ∧ p ≠ n ∧ (s.node n).parent = some p ∧
    (word pageSize (s.node n).key).head? = some x ∧ (s.node p).children.get? x = some n := by
  obtain ⟨p, x, hp, hp', -, hx, hc⟩ := w.shape.up n hn h0
  exact ⟨p, x, hp, w.shape.parent_ne hn h0 hp', hp', hx, hc⟩

theorem parent_mem {p : NodeId} (hn : n ∈ live) (hp : (s.node n).parent = some p) : p ∈ live := by
  by_cases h0 : n = 0
  · rw [h0] at hp
    exact absurd (w.shape.root_parent.symm.trans hp) nofun
  · exact (w.shape.parent_lt hn h0 hp).1

theorem lt_counter (hn : n ∈ live) : n < s.counter := w.shape.lt_next n hn

end Wf

variable {P : TreeNode → Bool} {S : NodeId → Prop} {x : ChildKey} {n : NodeId} {swa : Bool} {p c : NodeId} {l : LruList}
  {spared : Option NodeId} {r : Nat} {m : NodeId}

theorem childless_iff : (s.node n).children.items = [] ↔ ∀ z, (s.arena pageSize).child n z = none := Dict.items_eq_nil

/-! ## What the sizes are about -/

def fullEvictable (n : TreeNode) : Bool := decide (n.fullLockRef = 0)

def fullProtected (n : TreeNode) : Bool := decide (0 < n.fullLockRef)

def swaEvictable (n : TreeNode) : Bool := !n.swaTombstone && decide (n.swaLockRef = 0)

def swaProtected (n : TreeNode) : Bool := !n.swaTombstone && decide (0 < n.swaLockRef)

/-- The tokens of a node, if it is one of those that count. -/
def tokens (P : TreeNode → Bool) (n : TreeNode) : Int := if P n then (n.key.len : Int) else 0

/-- The tokens of all nodes but the root. -/
def SwaCache.total (s : SwaCache) (live : Finset NodeId) (P : TreeNode → Bool) : Int := ∑ n ∈ live.erase 0, tokens P (s.node n)

structure Sizes (s : SwaCache) (live : Finset NodeId) : Prop where
  fullEvictable : s.fullEvictableSize = s.total live fullEvictable
  fullProtected : s.fullProtectedSize = s.total live fullProtected
  swaEvictable : s.swaEvictableSize = s.total live swaEvictable
  swaProtected : s.swaProtectedSize = s.total live swaProtected

/-- The sizes only depend on the locks and on being a tombstone. -/
def Flagged (P : TreeNode → Bool) : Prop := ∀ n m : TreeNode, n.swaTombstone = m.swaTombstone → n.fullLockRef = m.fullLockRef →
  n.swaLockRef = m.swaLockRef → P n = P m

theorem flagged_all : Flagged fullEvictable ∧ Flagged fullProtected ∧ Flagged swaEvictable ∧ Flagged swaProtected := by
  refine ⟨?_, ?_, ?_, ?_⟩ <;> intro n m h1 h2 h3
  · simp [fullEvictable, h2]
  · simp [fullProtected, h2]
  · simp [swaEvictable, h1, h3]
  · simp [swaProtected, h1, h3]

structure SameFlags (n m : TreeNode) : Prop where
  tombstone : n.swaTombstone = m.swaTombstone
  full : n.fullLockRef = m.fullLockRef
  swa : n.swaLockRef = m.swaLockRef

/-- At most the children differ. -/
structure Kept (n m : TreeNode) : Prop extends SameFlags n m where
  parent : n.parent = m.parent
  uuid : n.swaUuid = m.swaUuid
  key : n.key = m.key
  value : n.value = m.value

theorem Kept.refl (n : TreeNode) : Kept n n := ⟨⟨rfl, rfl, rfl⟩, rfl, rfl, rfl, rfl⟩

theorem Kept.children (n : TreeNode) (children : Dict ChildKey NodeId) :
    Kept { n with children } n := ⟨⟨rfl, rfl, rfl⟩, rfl, rfl, rfl, rfl⟩

theorem SameFlags.tokens_eq {n m : TreeNode} (h : SameFlags n m) (hP : Flagged P) :
    tokens P n = if P m then (n.key.len : Int) else 0 := by
  rw [tokens, hP n m h.tombstone h.full h.swa]

theorem Kept.tokens_eq {n m : TreeNode} (h : Kept n m) (hP : Flagged P) : tokens P n = tokens P m := by
  rw [h.toSameFlags.tokens_eq hP, h.key]
  rfl

/-- The four sizes change as the tokens that they count do. -/
def Resized (s s' : SwaCache) (g : (TreeNode → Bool) → Int → Int) : Prop :=
  s'.fullEvictableSize = g fullEvictable s.fullEvictableSize ∧ s'.fullProtectedSize = g fullProtected s.fullProtectedSize ∧
    s'.swaEvictableSize = g swaEvictable s.swaEvictableSize ∧ s'.swaProtectedSize = g swaProtected s.swaProtectedSize

theorem Sizes.resized {g : (TreeNode → Bool) → Int → Int} (h : Sizes s live) (hs : Resized s s' g)
    (htotal : ∀ P, Flagged P → s'.total live' P = g P (s.total live P)) : Sizes s' live' := by
  obtain ⟨hfe, hfp, hse, hsp⟩ := flagged_all
  refine ⟨?_, ?_, ?_, ?_⟩
  · rw [htotal _ hfe, ← h.fullEvictable, hs.1]
  · rw [htotal _ hfp, ← h.fullProtected, hs.2.1]
  · rw [htotal _ hse, ← h.swaEvictable, hs.2.2.1]
  · rw [htotal _ hsp, ← h.swaProtected, hs.2.2.2]

theorem total_congr (h : ∀ n ∈ live, n ≠ 0 → tokens P (s'.node n) = tokens P (s.node n)) : s'.total live P = s.total live P :=
  sum_congr rfl fun n hn => h n (mem_of_mem_erase hn) (ne_of_mem_erase hn)

theorem total_change (hm : m ∈ live) (h0 : m ≠ 0) (h : ∀ n ∈ live, n ≠ m → tokens P (s'.node n) = tokens P (s.node n)) :
    s'.total live P = s.total live P - tokens P (s.node m) + tokens P (s'.node m) := by
  have hmem : m ∈ live.erase 0 := mem_erase.mpr ⟨h0, hm⟩
  have h1 := add_sum_erase (live.erase 0) (fun n => tokens P (s.node n)) hmem
  have h2 := add_sum_erase (live.erase 0) (fun n => tokens P (s'.node n)) hmem
  have hrest : ∑ n ∈ (live.erase 0).erase m, tokens P (s'.node n) = ∑ n ∈ (live.erase 0).erase m, tokens P (s.node n) :=
    sum_congr rfl fun n hn => h n (mem_of_mem_erase (mem_of_mem_erase hn)) (ne_of_mem_erase hn)
  unfold total
  omega

theorem total_insert (hm : m ∉ live) (h0 : m ≠ 0) : s.total (insert m live) P = tokens P (s.node m) + s.total live P := by
  unfold total
  rw [erase_insert_of_ne h0, sum_insert fun h => hm (mem_of_mem_erase h)]

theorem total_erase (hm : m ∈ live) (h0 : m ≠ 0) : s.total (live.erase m) P = s.total live P - tokens P (s.node m) := by
  have hmem : m ∈ live.erase 0 := mem_erase.mpr ⟨h0, hm⟩
  have h1 := add_sum_erase (live.erase 0) (fun n => tokens P (s.node n)) hmem
  unfold total
  rw [erase_right_comm]
  omega

/-! ## The LRU lists -/

/-- The list has these nodes, each once. -/
def Lists (l : LruList) (swa : Bool) (S : NodeId → Prop) : Prop := l.swa = swa ∧ l.nodes.Nodup ∧ ∀ n, n ∈ l.nodes ↔ S n

theorem addNodeAfter_perm (old : Option NodeId) (new : NodeId) (l : List NodeId) : (addNodeAfter old new l).Perm (new :: l) := by
  induction l with
  | nil => exact List.Perm.refl _
  | cons n l ih =>
    unfold addNodeAfter
    cases old with
    | none => exact List.Perm.refl _
    | some old =>
      dsimp only
      split
      · exact List.Perm.swap _ _ _
      · exact (ih.cons n).trans (List.Perm.swap _ _ _)

theorem Lists.perm {l' : LruList} (h : Lists l swa S) (hswa : l'.swa = l.swa) (hp : l'.nodes.Perm l.nodes) : Lists l' swa S :=
  ⟨hswa.trans h.1, hp.nodup_iff.mpr h.2.1, fun n => hp.mem_iff.trans (h.2.2 n)⟩

theorem Lists.congr {S' : NodeId → Prop} (h : Lists l swa S) (hS : ∀ n, S' n ↔ S n) : Lists l swa S' :=
  ⟨h.1, h.2.1, fun n => (h.2.2 n).trans (hS n).symm⟩

/-- A list without a node that may be in it. -/
theorem Lists.remove (h : Lists l swa S) (node : NodeId → TreeNode) (hn : S n)
    (hbar : swa = true → (node n).swaTombstone = false) :
    ∃ l', l.removeNode node n = .ok l' ∧ Lists l' swa (fun m => S m ∧ m ≠ n) ∧ l'.nodes.length < l.nodes.length := by
  have hmem := (h.2.2 n).mpr hn
  have hno : ¬ (n ∉ l.nodes ∨ l.bars node n = true) := by
    simp only [bars, h.1]
    cases swa <;> simp_all
  refine ⟨{ l with nodes := l.nodes.erase n }, by rw [removeNode, if_neg hno], ⟨h.1, h.2.1.erase n, fun m => ?_⟩, ?_⟩
  · rw [h.2.1.mem_erase_iff, h.2.2]
    exact And.comm
  · have := List.length_erase_of_mem hmem
    have := List.length_pos_of_mem hmem
    show (l.nodes.erase n).length < _
    omega

theorem Lists.insert (h : Lists l swa S) (node : NodeId → TreeNode) (hn : ¬ S n)
    (hbar : swa = true → (node n).swaTombstone = false) :
    ∃ l', l.insertMru node n = .ok l' ∧ Lists l' swa (fun m => m = n ∨ S m) := by
  have hmem : n ∉ l.nodes := fun hin => hn ((h.2.2 n).mp hin)
  have hno : ¬ (n ∈ l.nodes ∨ l.bars node n = true) := by
    simp only [bars, h.1]
    cases swa <;> simp_all
  have hp := addNodeAfter_perm none n l.nodes
  refine ⟨{ l with nodes := addNodeAfter none n l.nodes }, by rw [insertMru, if_neg hno], h.1,
    hp.nodup_iff.mpr (List.nodup_cons.mpr ⟨hmem, h.2.1⟩), fun m => ?_⟩
  rw [hp.mem_iff, List.mem_cons, h.2.2]

/-- A node of the list is used. -/
theorem Lists.touch (h : Lists l swa S) (node : NodeId → TreeNode) (hn : S n)
    (hbar : swa = true → (node n).swaTombstone = false) : ∃ l', l.resetNodeMru node n = .ok l' ∧ Lists l' swa S := by
  have hmem := (h.2.2 n).mpr hn
  have hno : ¬ (n ∉ l.nodes ∨ l.bars node n = true) := by
    simp only [bars, h.1]
    cases swa <;> simp_all
  refine ⟨{ l with nodes := addNodeAfter none n (l.nodes.erase n) }, by rw [resetNodeMru, if_neg hno], h.perm rfl ?_⟩
  exact (addNodeAfter_perm none n _).trans (List.perm_cons_erase hmem).symm

/-! ## The invariant of the cache itself -/

def InFull (live : Finset NodeId) (n : NodeId) : Prop := n ∈ live ∧ n ≠ 0

def SwaCache.InSwa (s : SwaCache) (live : Finset NodeId) (n : NodeId) : Prop := n ∈ live ∧ n ≠ 0 ∧ (s.node n).swaTombstone = false

/-- The root has no token and keeps the locks it is made with. -/
structure IsRoot (n : TreeNode) : Prop where
  key : n.key.len = 0
  tombstone : n.swaTombstone = false
  full : n.fullLockRef = 1
  swa : n.swaLockRef = 1
  uuid : n.swaUuid = none

structure FlagsOk (n : TreeNode) : Prop where
  free : n.swaTombstone = true → n.swaLockRef = 0
  full_nonneg : 0 ≤ n.fullLockRef
  swa_nonneg : 0 ≤ n.swaLockRef

theorem FlagsOk.same {n m : TreeNode} (h : FlagsOk m) (hs : SameFlags n m) : FlagsOk n := by
  refine ⟨?_, ?_, ?_⟩
  · rw [hs.tombstone, hs.swa]
    exact h.free
  · rw [hs.full]
    exact h.full_nonneg
  · rw [hs.swa]
    exact h.swa_nonneg

structure Uuids (s : SwaCache) (live : Finset NodeId) : Prop where
  inj : ∀ n ∈ live, ∀ m ∈ live, ∀ u, (s.node n).swaUuid = some u → (s.node m).swaUuid = some u → n = m
  le : ∀ n ∈ live, ∀ u, (s.node n).swaUuid = some u → u ≤ s.swaUuidCounter

theorem Uuids.kept (h : Uuids s live) (hcount : s'.swaUuidCounter = s.swaUuidCounter)
    (hup : ∀ n ∈ live', ∀ u, (s'.node n).swaUuid = some u → n ∈ live ∧ (s.node n).swaUuid = some u) : Uuids s' live' := by
  refine ⟨fun n hn m hm u hu hu' => ?_, fun n hn u hu => ?_⟩
  · obtain ⟨hn', hnu⟩ := hup n hn u hu
    obtain ⟨hm', hmu⟩ := hup m hm u hu'
    exact h.inj n hn' m hm' u hnu hmu
  · obtain ⟨hn', hnu⟩ := hup n hn u hu
    rw [hcount]
    exact h.le n hn' u hnu

structure Base (pageSize : Nat) (s : SwaCache) (live : Finset NodeId) (path : NodeId → List ChildKey)
    (spared : Option NodeId) : Prop where
  wf : Wf pageSize s live path
  full : Lists s.fullLruList false (InFull live)
  swa : Lists s.swaLruList true (s.InSwa live)
  sizes : Sizes s live
  /-- No tombstone is a leaf, but for one that is just being looked at. -/
  leaf : ∀ n ∈ live, n ≠ 0 → (s.node n).swaTombstone = true → spared ≠ some n → (s.node n).children.items ≠ []
  flags : ∀ n ∈ live, n ≠ 0 → FlagsOk (s.node n)
  uuids : Uuids s live
  root : IsRoot (s.node 0)

theorem Base.uuid_ne_root (b : Base pageSize s live path spared) {u : Nat} (hu : (s.node n).swaUuid = some u) : n ≠ 0 := by
  rintro rfl
  rw [b.root.uuid] at hu
  cases hu

theorem IsRoot.kept {n m : TreeNode} (h : IsRoot m) (hk : Kept n m) : IsRoot n :=
  ⟨hk.key ▸ h.key, hk.tombstone.trans h.tombstone, hk.full.trans h.full, hk.swa.trans h.swa, hk.uuid.trans h.uuid⟩

theorem inFull_insert (hk : k ≠ 0) : InFull (insert k live) n ↔ n = k ∨ InFull live n := by
  unfold InFull
  rw [mem_insert]
  constructor
  · intro h
    exact h.1.imp id fun h' => ⟨h', h.2⟩
  · intro h
    rcases h with rfl | h
    · exact ⟨.inl rfl, hk⟩
    · exact ⟨.inr h.1, h.2⟩

theorem inSwa_insert (hk : k ≠ 0) (hold : ∀ n ∈ live, (s'.node n).swaTombstone = (s.node n).swaTombstone) :
    s'.InSwa (insert k live) n ↔ (n = k ∧ (s'.node k).swaTombstone = false) ∨ s.InSwa live n := by
  unfold InSwa
  rw [mem_insert]
  constructor
  · intro h
    obtain ⟨h1 | h1, h2, h3⟩ := h
    · exact .inl ⟨h1, h1 ▸ h3⟩
    · exact .inr ⟨h1, h2, hold n h1 ▸ h3⟩
  · intro h
    rcases h with ⟨rfl, h⟩ | h
    · exact ⟨.inl rfl, hk, h⟩
    · exact ⟨.inr h.1, h.2.1, by rw [hold n h.1]; exact h.2.2⟩

/-! ## A node cut in two -/

/-- The new node, the lower part and the parent, and the other nodes as they were. -/
def Cut (s s' : SwaCache) (p c : NodeId) (x y : ChildKey) (r : Nat) : Prop :=
  s'.counter = s.counter + 1 ∧ s'.swaUuidCounter = s.swaUuidCounter ∧ ∀ m, s'.node m = if m = s.counter then
      { children := Dict.empty.set y c
        parent := some p
        swaTombstone := (s.node c).swaTombstone
        fullLockRef := (s.node c).fullLockRef
        swaLockRef := (s.node c).swaLockRef
        key := (s.node c).key.upto r
        value := (s.node c).value.take r
        swaUuid := (s.node c).swaUuid }
    else if m = c then
      { s.node c with
        swaUuid := none, parent := some s.counter, key := (s.node c).key.from_ r, value := (s.node c).value.drop r }
    else if m = p then { s.node p with children := (s.node p).children.set x s.counter }
    else s.node m

theorem Cut.kept (h : Cut s s' p c x y r) (hn : n ≠ s.counter) (hc : n ≠ c) : Kept (s'.node n) (s.node n) := by
  rw [h.2.2, if_neg hn, if_neg hc]
  split_ifs with h3
  · rw [h3]
    exact Kept.children _ _
  · exact Kept.refl _

theorem Cut.flags (h : Cut s s' p c x y r) (hn : n ≠ s.counter) : SameFlags (s'.node n) (s.node n) := by
  by_cases hc : n = c
  · rw [h.2.2, if_neg hn, if_pos hc, hc]
    exact ⟨rfl, rfl, rfl⟩
  · exact (h.kept hn hc).toSameFlags

theorem cutNode_spec (cfg : Config) (w : Wf cfg.pageSize s live path) (hp : p ∈ live)
    (hc : (s.node p).children.get? x = some c) (hr : cfg.pageSize ∣ r) (hlt : r < (s.node c).key.len) :
    ∃ node' y, cutNode cfg s (s.node c).key c r = .ok { s with node := node', counter := s.counter + 1 } ∧
      (word cfg.pageSize ((s.node c).key.from_ r)).head? = some y ∧
      Cut s { s with node := node', counter := s.counter + 1 } p c x y r := by
  obtain ⟨hclive, hc0, hcp, hcx⟩ := w.child hp hc
  have hpc := w.shape.parent_ne hclive hc0 hcp
  have hcn := w.ne_counter hclive
  have hpn := w.ne_counter hp
  have hfirst := getChildKey_of_head cfg.pageSize_pos (w.aligned c hclive) hcx
  have hrest := (s.node c).key.len_from r
  have hrest_pos : 0 < ((s.node c).key.from_ r).len := by omega
  have hrest_dvd : cfg.pageSize ∣ ((s.node c).key.from_ r).len := by
    rw [hrest]
    exact Nat.dvd_sub (w.aligned c hclive) hr
  obtain ⟨y, hy⟩ := getChildKey_ok cfg.pageSize (List.ne_nil_of_length_pos hrest_pos)
  unfold cutNode
  simp only [hy, hfirst, hcp, bind, Except.bind, pure, Except.pure]
  refine ⟨_, y, rfl, word_head cfg.pageSize_pos hrest_pos hrest_dvd hy, rfl, rfl, fun m => ?_⟩
  simp only [SwaCache.modify, upd]
  by_cases h1 : m = s.counter
  · have h2 : s.counter ≠ c := Ne.symm hcn
    have h3 : s.counter ≠ p := Ne.symm hpn
    simp [h1, h2, h3]
  by_cases h2 : m = c
  · simp [h2, hcn, Ne.symm hpc]
  · by_cases h3 : m = p <;> simp [h1, h2, h3, hpn, hpc]

theorem Cut.arena (h : Cut s s' p c x y r) (hpc : p ≠ c) (hpn : p ≠ s.counter) (hcn : c ≠ s.counter) :
    s'.arena pageSize = (s.arena pageSize).split p x c (word pageSize ((s.node c).key.upto r))
    (word pageSize ((s.node c).key.from_ r)) y := by
  obtain ⟨hcounter, -, hnode⟩ := h
  refine EdgeTree.ext (funext fun m => ?_) (funext fun m => ?_) (funext fun m => funext fun z => ?_) hcounter
  all_goals
    simp only [SwaCache.arena, EdgeTree.split, hnode, upd]
    by_cases h1 : m = s.counter
    · simp [h1, Ne.symm hcn, Dict.get?_set]
    by_cases h2 : m = c
    · simp [h2, hcn, Ne.symm hpc]
    · by_cases h3 : m = p <;> simp [h1, h2, h3, hpn, hpc, Dict.get?_set]

/-- The path of the new node. -/
def cutPath (pageSize : Nat) (s : SwaCache) (path : NodeId → List ChildKey) (p c : NodeId) (r : Nat) : NodeId → List ChildKey :=
  upd path s.counter (path p ++ word pageSize ((s.node c).key.upto r))

theorem Wf.cutPath_eq (w : Wf pageSize s live path) (hn : n ∈ live) : cutPath pageSize s path p c r n = path n :=
  upd_ne _ _ (w.ne_counter hn)

theorem Wf.split (hps : 0 < pageSize) (w : Wf pageSize s live path) (hp : p ∈ live)
    (hc : (s.node p).children.get? x = some c) (hr : pageSize ∣ r) (hr0 : 0 < r) (hlt : r < (s.node c).key.len)
    (hy : (word pageSize ((s.node c).key.from_ r)).head? = some y) (h : Cut s s' p c x y r) :
    Wf pageSize s' (insert s.counter live) (cutPath pageSize s path p c r) := by
  obtain ⟨hclive, hc0, hcp, hcx⟩ := w.child hp hc
  have hpc := w.shape.parent_ne hclive hc0 hcp
  have hcn := w.ne_counter hclive
  have hlen := RadixKey.len_upto (le_of_lt hlt)
  have hrest := (s.node c).key.len_from r
  have hupper : word pageSize ((s.node c).key.upto r) ≠ [] := word_ne_nil hps (by omega) (by rw [hlen]; exact hr)
  have hshape := w.shape.split hp hc (word_split hps hr (le_of_lt hlt)) hupper hy
  refine ⟨h.arena hpc (w.ne_counter hp) hcn ▸ hshape, fun n hn => ?_, fun n hn => ?_⟩
  · rw [h.2.2]
    split_ifs with h1 h2 h3
    · rw [hlen]
      exact hr
    · rw [hrest]
      exact Nat.dvd_sub (w.aligned c hclive) hr
    · exact w.aligned p hp
    · exact w.aligned n ((mem_insert.mp hn).resolve_left h1)
  · have hvalues := w.values c hclive
    rw [h.2.2]
    split_ifs with h1 h2 h3
    · rw [hlen, List.length_take, hvalues, min_eq_left (le_of_lt hlt)]
    · rw [hrest, List.length_drop, hvalues]
    · exact w.values p hp
    · exact w.values n ((mem_insert.mp hn).resolve_left h1)

/-- Both parts count as the node did. -/
theorem Cut.total (w : Wf pageSize s live path) (h : Cut s s' p c x y r) (hc : c ∈ live) (hc0 : c ≠ 0)
    (hlt : r < (s.node c).key.len) (hP : Flagged P) : s'.total (insert s.counter live) P = s.total live P := by
  have hcn := w.ne_counter hc
  have h0n : (0 : NodeId) ≠ s.counter := w.ne_counter w.shape.root_live
  have hfresh : s.counter ∉ live := fun hn => w.ne_counter hn rfl
  have hlen : ((s.node c).key.upto r).len + ((s.node c).key.from_ r).len = (s.node c).key.len := by
    rw [RadixKey.len_upto (le_of_lt hlt), RadixKey.len_from]
    omega
  have hupper : tokens P (s'.node s.counter) = if P (s.node c) then (((s.node c).key.upto r).len : Int) else 0 := by
    rw [h.2.2, if_pos rfl]
    exact SameFlags.tokens_eq ⟨rfl, rfl, rfl⟩ hP
  have hlower : tokens P (s'.node c) = if P (s.node c) then (((s.node c).key.from_ r).len : Int) else 0 := by
    rw [(h.flags hcn).tokens_eq hP, h.2.2, if_neg hcn, if_pos rfl]
  have hnew : tokens P (s'.node s.counter) + tokens P (s'.node c) = tokens P (s.node c) := by
    rw [hupper, hlower, tokens]
    split <;> omega
  rw [total_insert hfresh (Ne.symm h0n), total_change hc hc0 fun n hn hne => (h.kept (w.ne_counter hn) hne).tokens_eq hP]
  omega

theorem splitLru_spec (h : Lists l swa S) (node : NodeId → TreeNode) (hc : S c)
    (hn : ¬ S n) (hbar : swa = true → (node c).swaTombstone = false ∧ (node n).swaTombstone = false) :
    ∃ l', splitLru node l c n = .ok l' ∧ Lists l' swa (fun m => m = n ∨ S m) := by
  obtain ⟨l1, h1, hl1, -⟩ := h.remove node hc fun hs => (hbar hs).1
  obtain ⟨l2, h2, hl2⟩ := hl1.insert node (n := n) (fun hin => hn hin.1) fun hs => (hbar hs).2
  obtain ⟨l3, h3, hl3⟩ := hl2.insert node (n := c) (by
    intro hin
    rcases hin with rfl | hin
    · exact hn hc
    · exact hin.2 rfl) fun hs => (hbar hs).1
  refine ⟨l3, by simp [splitLru, h1, h2, h3], hl3.congr fun m => ?_⟩
  by_cases hm : m = c
  · simp [hm, hc]
  · simp [hm]

theorem Base.split (cfg : Config) (b : Base cfg.pageSize s live path spared) (hp : p ∈ live)
    (hc : (s.node p).children.get? x = some c) (hr : cfg.pageSize ∣ r) (hr0 : 0 < r) (hlt : r < (s.node c).key.len) :
    ∃ s' y, splitNode cfg s (s.node c).key c r = .ok (s', s.counter) ∧ Cut s s' p c x y r ∧
      Base cfg.pageSize s' (insert s.counter live) (cutPath cfg.pageSize s path p c r) spared := by
  obtain ⟨hclive, hc0, -, -⟩ := b.wf.child hp hc
  have hcn := b.wf.ne_counter hclive
  have hn0 : s.counter ≠ 0 := Ne.symm (b.wf.ne_counter b.wf.shape.root_live)
  have hfresh : s.counter ∉ live := fun hn => b.wf.ne_counter hn rfl
  obtain ⟨node', y, hcut, hy, hcutspec⟩ := cutNode_spec cfg b.wf hp hc hr hlt
  have hnode := hcutspec.2.2
  dsimp only at hnode
  have hnew : node' s.counter = _ := (hnode s.counter).trans (if_pos rfl)
  have hold : ∀ n ∈ live, SameFlags (node' n) (s.node n) := fun n hn => hcutspec.flags (b.wf.ne_counter hn)
  obtain ⟨full', hfull, hfull'⟩ := splitLru_spec b.full node' (c := c) (n := s.counter) ⟨hclive, hc0⟩ (fun h => hfresh h.1)
    nofun
  -- both parts are in the list of the sliding-window layers, or neither is
  obtain ⟨swa', hswa, hswa'⟩ : ∃ swa', unlessTombstone (node' s.counter) s.swaLruList
      (splitLru node' s.swaLruList c s.counter) = .ok swa' ∧
      Lists swa' true (fun n => (n = s.counter ∧ (node' s.counter).swaTombstone = false) ∨ s.InSwa live n) := by
    have htomb' : (node' s.counter).swaTombstone = (s.node c).swaTombstone := by rw [hnew]
    unfold unlessTombstone
    rw [htomb']
    cases htomb : (s.node c).swaTombstone with
    | true =>
      refine ⟨s.swaLruList, if_pos rfl, b.swa.congr fun n => ?_⟩
      simp
    | false =>
      obtain ⟨swa', hswa, hswa'⟩ := splitLru_spec b.swa node' (c := c) (n := s.counter) ⟨hclive, hc0, htomb⟩ (fun h => hfresh h.1)
        fun _ => ⟨by rw [(hold c hclive).tombstone, htomb], by rw [hnew, htomb]⟩
      refine ⟨swa', by rw [if_neg (by simp), hswa], hswa'.congr fun n => ?_⟩
      simp
  -- the uuid has gone to the upper part
  have hup : ∀ n ∈ insert s.counter live, ∀ u, (node' n).swaUuid = some u →
      ∃ m ∈ live, (s.node m).swaUuid = some u ∧ (m = c ∧ n = s.counter ∨ m ≠ c ∧ n = m) := by
    intro n hn u hu
    rcases mem_insert.mp hn with rfl | hn
    · rw [hnew] at hu
      exact ⟨c, hclive, hu, .inl ⟨rfl, rfl⟩⟩
    have hnc : n ≠ c := fun he => by
      rw [he, hnode, if_neg hcn, if_pos rfl] at hu
      cases hu
    exact ⟨n, hn, (hcutspec.kept (b.wf.ne_counter hn) hnc).uuid ▸ hu, .inr ⟨hnc, rfl⟩⟩
  refine ⟨{ s with node := node', counter := s.counter + 1, fullLruList := full', swaLruList := swa' }, y, ?_, hcutspec, ?_⟩
  · simp only [splitNode, hcut, ok_bind, hfull, hswa]
    rfl
  refine .mk (b.wf.split cfg.pageSize_pos hp hc hr hr0 hlt hy hcutspec) (hfull'.congr fun _ => inFull_insert hn0)
    (hswa'.congr fun _ => inSwa_insert hn0 fun n hn => (hold n hn).tombstone)
    (b.sizes.resized (g := fun _ t => t) ⟨rfl, rfl, rfl, rfl⟩ fun P hP => Cut.total b.wf hcutspec hclive hc0 hlt hP)
    (fun n hn h0 htomb hsp => ?_) (fun n hn h0 => ?_) ⟨?_, fun n hn u hu => ?_⟩
    (b.root.kept (hcutspec.kept (Ne.symm hn0) (Ne.symm hc0)))
  · dsimp only at htomb ⊢
    rcases mem_insert.mp hn with rfl | hn
    · rw [hnew]
      exact Dict.items_set_ne_nil _ _ _
    rw [hnode, if_neg (b.wf.ne_counter hn)]
    rw [(hold n hn).tombstone] at htomb
    have := b.leaf n hn h0 htomb hsp
    split_ifs with h2 h3
    · rw [← h2]
      exact this
    · exact Dict.items_set_ne_nil _ _ _
    · exact this
  · rcases mem_insert.mp hn with rfl | hn
    · refine (b.flags c hclive hc0).same ?_
      dsimp only
      rw [hnew]
      exact ⟨rfl, rfl, rfl⟩
    · exact (b.flags n hn h0).same (hold n hn)
  · intro n hn m hm u hu hu'
    obtain ⟨n', hn', hnu, hnc⟩ := hup n hn u hu
    obtain ⟨m', hm', hmu, hmc⟩ := hup m hm u hu'
    have heq := b.uuids.inj n' hn' m' hm' u hnu hmu
    rcases hnc with ⟨h1, h2⟩ | ⟨h1, h2⟩ <;> rcases hmc with ⟨h3, h4⟩ | ⟨h3, h4⟩
    · rw [h2, h4]
    · exact absurd (heq.symm.trans h1) h3
    · exact absurd (heq.trans h3) h1
    · rw [h2, h4, heq]
  · obtain ⟨m, hm, hmu, -⟩ := hup n hn u hu
    exact b.uuids.le m hm u hmu

/-! ## A new leaf -/

/-- The new leaf and its parent, and the other nodes as they were. -/
def Grown (s s' : SwaCache) (p : NodeId) (x : ChildKey) (key : RadixKey) (value : List Nat) : Prop :=
  s'.counter = s.counter + 1 ∧ s'.swaUuidCounter = s.swaUuidCounter ∧ ∀ m, s'.node m =
    if m = s.counter then { parent := some p, key := key, value := value }
    else if m = p then { s.node p with children := (s.node p).children.set x s.counter }
    else s.node m

theorem Grown.arena (h : Grown s s' p x key value) (hpn : p ≠ s.counter) :
    s'.arena pageSize = (s.arena pageSize).grow p x (word pageSize key) := by
  obtain ⟨hcounter, -, hnode⟩ := h
  refine EdgeTree.ext (funext fun m => ?_) (funext fun m => ?_) (funext fun m => funext fun z => ?_) hcounter
  all_goals
    simp only [SwaCache.arena, EdgeTree.grow, hnode, upd]
    by_cases h1 : m = s.counter
    · simp [h1]
    · by_cases h3 : m = p <;> simp [h1, h3, hpn, Dict.get?_set]

theorem Grown.kept (h : Grown s s' p x key value) (hn : n ≠ s.counter) : Kept (s'.node n) (s.node n) := by
  rw [h.2.2, if_neg hn]
  split_ifs with h3
  · rw [h3]
    exact Kept.children _ _
  · exact Kept.refl _

theorem Base.grow (cfg : Config) (b : Base cfg.pageSize s live path none)
    (hp : p ∈ live) (hfree : (s.node p).children.get? x = none) (hpos : 0 < key.len) (hdvd : cfg.pageSize ∣ key.len)
    (hlen : value.length = key.len)
    (hx : getChildKey cfg.pageSize key = .ok x) (total : Nat) :
    ∃ s', addLeaf ⟨s, p, key, x, value, total⟩ = .ok s' ∧ Grown s s' p x key value ∧
      Base cfg.pageSize s' (insert s.counter live) (upd path s.counter (path p ++ word cfg.pageSize key)) none := by
  have hpn := b.wf.ne_counter hp
  have hn0 : s.counter ≠ 0 := Ne.symm (b.wf.ne_counter b.wf.shape.root_live)
  have hfresh : s.counter ∉ live := fun hn => b.wf.ne_counter hn rfl
  have hkey : key.len ≠ 0 := ne_of_gt hpos
  obtain ⟨node1, hnode1⟩ : ∃ node1, node1 = upd s.node s.counter { parent := some p, key := key, value := value } := ⟨_, rfl⟩
  have hnew1 : node1 s.counter = { parent := some p, key := key, value := value } := by rw [hnode1, upd_same]
  obtain ⟨full', hfull, hfull'⟩ := b.full.insert node1 (n := s.counter) (fun h => hfresh h.1) nofun
  obtain ⟨swa', hswa, hswa'⟩ := b.swa.insert node1 (n := s.counter) (fun h => hfresh h.1) fun _ => by rw [hnew1]
  obtain ⟨s', hs'⟩ : ∃ s' : SwaCache, s' = { s with
    node := upd node1 p { node1 p with children := (node1 p).children.set x s.counter }
    counter := s.counter + 1
    fullLruList := full'
    swaLruList := swa'
    fullEvictableSize := s.fullEvictableSize + value.length
    swaEvictableSize := s.swaEvictableSize + value.length } := ⟨_, rfl⟩
  have hgrown : Grown s s' p x key value := by
    rw [hs']
    refine ⟨rfl, rfl, fun m => ?_⟩
    dsimp only
    by_cases h1 : m = s.counter
    · rw [h1, upd_ne _ _ (Ne.symm hpn), hnew1, if_pos rfl]
    by_cases h3 : m = p
    · rw [h3, upd_same, hnode1, upd_ne _ _ hpn, if_neg hpn, if_pos rfl]
    · rw [upd_ne _ _ h3, hnode1, upd_ne _ _ h1, if_neg h1, if_neg h3]
  have hnode := hgrown.2.2
  have hnew : s'.node s.counter = _ := (hnode s.counter).trans (if_pos rfl)
  have hold : ∀ n ∈ live, Kept (s'.node n) (s.node n) := fun n hn => hgrown.kept (b.wf.ne_counter hn)
  refine ⟨s', ?_, hgrown, .mk ⟨hgrown.arena hpn ▸ b.wf.shape.grow hp (word_head cfg.pageSize_pos hpos hdvd hx) hfree,
    fun n hn => ?_, fun n hn => ?_⟩ ?_ ?_ (b.sizes.resized (g := fun P t => tokens P (s'.node s.counter) + t) ?_ fun P hP => ?_)
    (fun n hn h0 htomb hsp => ?_) (fun n hn h0 => ?_) (b.uuids.kept hgrown.2.1 fun n hn u hu => ?_)
    (b.root.kept (hgrown.kept (Ne.symm hn0)))⟩
  · rw [hs']
    simp only [SwaCache.addLeaf, if_neg hkey, SwaCache.modify, ← hnode1, hfull, hswa, ok_bind]
    rfl
  · rcases mem_insert.mp hn with rfl | hn
    · rw [hnew]
      exact hdvd
    · rw [(hold n hn).key]
      exact b.wf.aligned n hn
  · rcases mem_insert.mp hn with rfl | hn
    · rw [hnew]
      exact hlen
    · rw [(hold n hn).key, (hold n hn).value]
      exact b.wf.values n hn
  · rw [hs']
    exact hfull'.congr fun _ => inFull_insert hn0
  · have hlist : s'.swaLruList = swa' := by rw [hs']
    rw [hlist]
    refine hswa'.congr fun n => (inSwa_insert hn0 fun n hn => (hold n hn).tombstone).trans ?_
    rw [hnew]
    exact or_congr_left (and_iff_left rfl)
  · rw [hnew, hs']
    refine ⟨?_, ?_, ?_, ?_⟩
    · show s.fullEvictableSize + (value.length : Int) = (key.len : Int) + s.fullEvictableSize
      omega
    · show s.fullProtectedSize = 0 + s.fullProtectedSize
      omega
    · show s.swaEvictableSize + (value.length : Int) = (key.len : Int) + s.swaEvictableSize
      omega
    · show s.swaProtectedSize = 0 + s.swaProtectedSize
      omega
  · rw [total_insert hfresh hn0, total_congr fun n hn _ => (hold n hn).tokens_eq hP]
  · rcases mem_insert.mp hn with rfl | hn
    · rw [hnew] at htomb
      cases htomb
    rw [(hold n hn).tombstone] at htomb
    have := b.leaf n hn h0 htomb hsp
    rw [hnode, if_neg (b.wf.ne_counter hn)]
    split_ifs with h3
    · exact Dict.items_set_ne_nil _ _ _
    · exact this
  · rcases mem_insert.mp hn with rfl | hn
    · rw [hnew]
      exact ⟨fun _ => rfl, le_refl _, le_refl _⟩
    · exact (b.flags n hn h0).same (hold n hn).toSameFlags
  · -- the new leaf has no uuid
    rcases mem_insert.mp hn with rfl | hn
    · rw [hnew] at hu
      cases hu
    · exact ⟨hn, (hold n hn).uuid ▸ hu⟩

/-! ## A leaf taken out -/

theorem dropChild_spec (w : Wf pageSize s live path) (hn : n ∈ live) (h0 : n ≠ 0) :
    ∃ p x, p ∈ live ∧ p ≠ n ∧ (s.node n).parent = some p ∧ (word pageSize (s.node n).key).head? = some x ∧
      s.dropChild p n = .ok (s.modify p fun node => { node with children := node.children.erase x }) := by
  obtain ⟨p, x, hp, hpn, hp', hx, hc⟩ := w.up hn h0
  refine ⟨p, x, hp, hpn, hp', hx, ?_⟩
  unfold dropChild
  dsimp only
  -- the loop stops at the key of the node, which has one only
  rw [Dict.find_value hc fun k hk => Option.some.inj ((w.child hp hk).2.2.2.symm.trans hx)]
  rfl

/-- The parent only lacks the child. -/
def Pruned (s s' : SwaCache) (p : NodeId) (x : ChildKey) : Prop :=
  s'.counter = s.counter ∧ s'.swaUuidCounter = s.swaUuidCounter ∧ ∀ m, s'.node m =
    if m = p then { s.node p with children := (s.node p).children.erase x } else s.node m

theorem Pruned.arena (h : Pruned s s' p x) : s'.arena pageSize = (s.arena pageSize).prune p x := by
  obtain ⟨hcounter, -, hnode⟩ := h
  refine EdgeTree.ext (funext fun m => ?_) (funext fun m => ?_) (funext fun m => funext fun z => ?_) hcounter
  all_goals
    simp only [SwaCache.arena, EdgeTree.prune, hnode]
    by_cases h3 : m = p <;> simp [h3, Dict.get?_erase]

theorem Pruned.kept (h : Pruned s s' p x) (n : NodeId) : Kept (s'.node n) (s.node n) := by
  rw [h.2.2]
  split_ifs with h3
  · rw [h3]
    exact Kept.children _ _
  · exact Kept.refl _

/-- A leaf that is not locked goes, with its tokens; its parent may now be a tombstone without children. -/
theorem Base.prune (b : Base pageSize s live path spared) (hn : n ∈ live) (h0 : n ≠ 0)
    (hspared : spared = none ∨ spared = some n) (hp : (s.node n).parent = some p)
    (hx : (word pageSize (s.node n).key).head? = some x)
    (hleaf : (s.node n).children.items = []) (h : Pruned s s' p x)
    (hfull : Lists s'.fullLruList false (fun m => InFull live m ∧ m ≠ n))
    (hswa : Lists s'.swaLruList true (fun m => s.InSwa live m ∧ m ≠ n))
    (hsizes : Resized s s' fun P t => t - tokens P (s.node n)) : Base pageSize s' (live.erase n) path (some p) := by
  have hold := h.kept
  have hsub : ∀ {m}, m ∈ live.erase n → m ∈ live := mem_of_mem_erase
  refine .mk ⟨h.arena ▸ b.wf.shape.prune hn h0 hp hx (childless_iff.mp hleaf), fun m hm => ?_, fun m hm => ?_⟩
    (hfull.congr fun m => ?_)
    (hswa.congr fun m => ?_) (b.sizes.resized hsizes fun P hP => ?_) (fun m hm hm0 htomb hsp => ?_)
    (fun m hm hm0 => (b.flags m (hsub hm) hm0).same (hold m).toSameFlags)
    (b.uuids.kept h.2.1 fun m hm u hu => ⟨hsub hm, (hold m).uuid ▸ hu⟩) (b.root.kept (hold 0))
  · rw [(hold m).key]
    exact b.wf.aligned m (hsub hm)
  · rw [(hold m).key, (hold m).value]
    exact b.wf.values m (hsub hm)
  · rw [InFull, mem_erase, and_assoc, and_comm]
    rfl
  · rw [InSwa, mem_erase, (hold m).tombstone, and_assoc, and_comm]
    rfl
  · rw [← total_erase hn h0]
    exact total_congr fun m _ _ => (hold m).tokens_eq hP
  · rw [(hold m).tombstone] at htomb
    have hmp : m ≠ p := fun hmp => hsp (by rw [hmp])
    rw [h.2.2, if_neg hmp]
    refine b.leaf m (hsub hm) hm0 htomb ?_
    rcases hspared with hs | hs
    · rw [hs]
      exact nofun
    rw [hs]
    intro he
    exact ne_of_mem_erase hm (Option.some.inj he).symm

/-! ## A node that changes -/

/-- Only the flags of one node change, and the sizes with them. -/
theorem Base.change (b : Base pageSize s live path none) (hn : n ∈ live) (h0 : n ≠ 0) (hcounter : s'.counter = s.counter)
    (huuid : s.swaUuidCounter ≤ s'.swaUuidCounter) (hne : ∀ m, m ≠ n → s'.node m = s.node m)
    (hkeep : (s'.node n).children = (s.node n).children ∧ (s'.node n).parent = (s.node n).parent ∧
    (s'.node n).key = (s.node n).key ∧
      (s'.node n).value.length = (s.node n).value.length)
    (hfull : Lists s'.fullLruList false (InFull live)) (hswa : Lists s'.swaLruList true (s'.InSwa live))
    (hsizes : Resized s s' fun P t => t - tokens P (s.node n) + tokens P (s'.node n))
    (htomb : (s'.node n).swaTombstone = true → (s'.node n).children.items ≠ [] ∧ (s'.node n).swaLockRef = 0)
    (hnonneg : 0 ≤ (s'.node n).fullLockRef ∧ 0 ≤ (s'.node n).swaLockRef) (hnewUuid : (s'.node n).swaUuid = (s.node n).swaUuid ∨
      ∃ u, (s'.node n).swaUuid = some u ∧ s.swaUuidCounter < u ∧ u ≤ s'.swaUuidCounter) : Base pageSize s' live path none := by
  have hfields : ∀ m, (s'.node m).children = (s.node m).children ∧ (s'.node m).parent = (s.node m).parent ∧
    (s'.node m).key = (s.node m).key ∧
      (s'.node m).value.length = (s.node m).value.length := by
    intro m
    by_cases hm : m = n
    · rw [hm]
      exact hkeep
    · rw [hne m hm]
      exact ⟨rfl, rfl, rfl, rfl⟩
  have harena : s'.arena pageSize = s.arena pageSize := by
    simp [arena, hcounter, (hfields _).1, (hfields _).2.1, (hfields _).2.2.1]
  -- a new uuid is larger than the others
  have hcases : ∀ k u, (s'.node k).swaUuid = some u →
      (s.node k).swaUuid = some u ∨ k = n ∧ s.swaUuidCounter < u ∧ u ≤ s'.swaUuidCounter := by
    intro k u hu
    by_cases hkn : k = n
    · rw [hkn] at hu ⊢
      rcases hnewUuid with hnewUuid | ⟨v, hv, hlt⟩
      · exact .inl (hnewUuid ▸ hu)
      · obtain rfl := Option.some.inj (hv.symm.trans hu)
        exact .inr ⟨rfl, hlt⟩
    · rw [hne k hkn] at hu
      exact .inl hu
  refine .mk ⟨harena ▸ b.wf.shape, fun m hm => ?_, fun m hm => ?_⟩ hfull hswa
    (b.sizes.resized hsizes fun P _ => total_change hn h0 fun m _ hm => by rw [hne m hm]) (fun m hm hm0 ht hsp => ?_)
    (fun m hm hm0 => ?_)
    ⟨fun m hm k hk u hu hu' => ?_, fun m hm u hu => ?_⟩ ?_
  · rw [(hfields m).2.2.1]
    exact b.wf.aligned m hm
  · rw [(hfields m).2.2.1, (hfields m).2.2.2]
    exact b.wf.values m hm
  · by_cases hmn : m = n
    · rw [hmn] at ht ⊢
      exact (htomb ht).1
    · rw [hne m hmn] at ht ⊢
      exact b.leaf m hm hm0 ht hsp
  · by_cases hmn : m = n
    · rw [hmn]
      exact ⟨fun ht => (htomb ht).2, hnonneg.1, hnonneg.2⟩
    · rw [hne m hmn]
      exact b.flags m hm hm0
  · rcases hcases m u hu with h1 | ⟨h1, h2, -⟩ <;> rcases hcases k u hu' with h3 | ⟨h3, h4, -⟩
    · exact b.uuids.inj m hm k hk u h1 h3
    · exact absurd (b.uuids.le m hm u h1) (by omega)
    · exact absurd (b.uuids.le k hk u h3) (by omega)
    · rw [h1, h3]
  · rcases hcases m u hu with h1 | ⟨-, -, hle⟩
    · exact le_trans (b.uuids.le m hm u h1) huuid
    · exact hle
  · rw [hne 0 (Ne.symm h0)]
    exact b.root

/-- Only the order of the lists, the record of the calls and the like change. -/
theorem Base.relist (b : Base pageSize s live path spared) (hnode : s'.node = s.node) (hcounter : s'.counter = s.counter)
    (huuid : s'.swaUuidCounter = s.swaUuidCounter) (hfull : Lists s'.fullLruList false (InFull live))
    (hswa : Lists s'.swaLruList true (s.InSwa live)) (hsizes : Resized s s' fun _ t => t) :
    Base pageSize s' live path spared := by
  have harena : s'.arena pageSize = s.arena pageSize := by simp [arena, hnode, hcounter]
  refine .mk ⟨harena ▸ b.wf.shape, ?_, ?_⟩ hfull (hswa.congr fun n => ?_)
    (b.sizes.resized hsizes fun P _ => by rw [total, total, hnode]) ?_ (fun n hn h0 => ?_)
    (b.uuids.kept huuid fun n hn u hu => ⟨hn, hnode ▸ hu⟩) ?_
  · rw [hnode]
    exact b.wf.aligned
  · rw [hnode]
    exact b.wf.values
  · rw [InSwa, InSwa, hnode]
  · rw [hnode]
    exact b.leaf
  · rw [hnode]
    exact b.flags n hn h0
  · rw [hnode]
    exact b.root

end DynaSpec.MemCache.SwaRadix
