/-
  DynaSpec.MemCache.SwaRadixLocks — the locks of `SwaRadixCache`.

  A call of `inc_lock_ref` that has not been undone is a `Lock`: the node it was for and the
  uuid it gave. Its full part is on all nodes from there to the root, its sliding-window part
  on those below the place of the uuid (`Region`), which is above the node that has it and does
  not move when nodes are cut. `Locked` says that the two counters of a node count the locks
  whose parts it is in. `incLockRef_spec` and `decLockRef_spec` add and take away one lock.
-/

import DynaSpec.MemCache.SwaRadixTree

namespace DynaSpec.MemCache.SwaRadix

open DynaSpec.Lib List Finset SwaCache Nat Bool
open Option (some)

variable {pageSize : Nat} {s s' : SwaCache} {live : Finset NodeId} {path : NodeId → List ChildKey}
  {p cur m c : NodeId} {old new : Int} {s₀ : SwaCache} {P : NodeId → Prop} {value : List Nat} {key : RadixKey} {Q : Prop}
  {r : Nat} {y : ChildKey}

structure Lock where
  node : NodeId
  uuid : Option Nat

/-- Where the sliding-window part of a lock ends: at the place of its uuid, or at the root. -/
def place (top : Nat → Nat) : Option Nat → Nat
  | none => 0
  | some u => top u

/-- The node is on the way from the root to the lock. -/
def Covers (path : NodeId → List ChildKey) (n : NodeId) (l : Lock) : Prop := path n <+: path l.node

/-- The sliding-window part of a lock. -/
def Region (path : NodeId → List ChildKey) (top : Nat → Nat) (n : NodeId) (l : Lock) : Prop :=
  Covers path n l ∧ place top l.uuid < (path n).length

open Classical in
structure Locked (s : SwaCache) (live : Finset NodeId) (path : NodeId → List ChildKey) (top : Nat → Nat)
    (held : List Lock) : Prop where
  nodes : ∀ l ∈ held, l.node ∈ live
  full : ∀ n ∈ live, n ≠ 0 → (s.node n).fullLockRef = held.countP fun l => decide (Covers path n l)
  swa : ∀ n ∈ live, n ≠ 0 → (s.node n).swaLockRef = held.countP fun l => decide (Region path top n l)
  uuid_le : ∀ l ∈ held, ∀ u, l.uuid = some u → u ≤ s.swaUuidCounter
  /-- The place of a uuid is the end of the way above the node that has it. -/
  begins : ∀ n ∈ live, ∀ u p, (s.node n).swaUuid = some u → (s.node n).parent = some p → (path p).length = top u
  way : ∀ l ∈ held, ∀ u, l.uuid = some u → ∃ k ∈ live, (s.node k).swaUuid = some u ∧ Covers path k l

variable {held : List Lock} {n : NodeId} {top : Nat → Nat} {path' : NodeId → List ChildKey} {l : Lock} {x : ChildKey}
  {spared : Option NodeId}

section
variable (h : Locked s live path top held)
include h

/-- Each node has the locks that some node had before, or none, and its uuid and what is above it are some node's. -/
theorem Locked.transfer (w : Wf pageSize s live path) {live' : Finset NodeId} (hnodes : ∀ l ∈ held, l.node ∈ live')
    (hpath : ∀ n ∈ live, path' n = path n) (huuid : s.swaUuidCounter ≤ s'.swaUuidCounter)
    (hmap : ∀ n ∈ live', n ≠ 0 → (∃ m ∈ live, m ≠ 0 ∧ (s'.node n).fullLockRef = (s.node m).fullLockRef ∧
      (s'.node n).swaLockRef = (s.node m).swaLockRef ∧
      ∀ l ∈ held, (Covers path' n l ↔ Covers path m l) ∧ (Region path' top n l ↔ Region path top m l)) ∨
      ((s'.node n).fullLockRef = 0 ∧ (s'.node n).swaLockRef = 0 ∧ ∀ l ∈ held, ¬ Covers path' n l))
    (huuids : ∀ n ∈ live', ∀ u, (s'.node n).swaUuid = some u →
      ∃ m ∈ live, (s.node m).swaUuid = some u ∧ (s'.node n).parent = (s.node m).parent)
    (hway : ∀ l ∈ held, ∀ m ∈ live, Covers path m l → ∀ u, (s.node m).swaUuid = some u →
      ∃ n ∈ live', (s'.node n).swaUuid = some u ∧ Covers path' n l) : Locked s' live' path' top held := by
  refine ⟨hnodes, fun n hn h0 => ?_, fun n hn h0 => ?_, fun l hl u hu => le_trans (h.uuid_le l hl u hu) huuid,
    fun n hn u p hu hp => ?_, fun l hl u hu => ?_⟩
  · obtain ⟨m, hm, hm0, hfull, -, hlocks⟩ | ⟨hfull, -, hnone⟩ := hmap n hn h0
    · rw [hfull, h.full m hm hm0]
      congr 1
      exact countP_congr fun l hl => by simp [(hlocks l hl).1]
    · rw [hfull, countP_eq_zero.mpr fun l hl => by simpa using hnone l hl]
      rfl
  · obtain ⟨m, hm, hm0, -, hswa, hlocks⟩ | ⟨-, hswa, hnone⟩ := hmap n hn h0
    · rw [hswa, h.swa m hm hm0]
      congr 1
      exact countP_congr fun l hl => by simp [(hlocks l hl).2]
    · rw [hswa, countP_eq_zero.mpr fun l hl => by simpa using fun hreg : Region _ _ _ _ => hnone l hl hreg.1]
      rfl
  · obtain ⟨m, hm, hmu, hparent⟩ := huuids n hn u hu
    rw [hparent] at hp
    rw [hpath p (w.parent_mem hm hp)]
    exact h.begins m hm u p hmu hp
  · obtain ⟨k, hk, hku, hcov⟩ := h.way l hl u hu
    exact hway l hl k hk hcov u hku

theorem Locked.alike (hpath : ∀ n ∈ live, path' n = path n) (hn : n ∈ live) (hl : l ∈ held) :
    (Covers path' n l ↔ Covers path n l) ∧ (Region path' top n l ↔ Region path top n l) := by
  simp [Region, Covers, hpath n hn, hpath l.node (h.nodes l hl)]

/-- Neither locks nor uuids change. -/
theorem Locked.same (w : Wf pageSize s live path) (huuid : s.swaUuidCounter ≤ s'.swaUuidCounter)
    (hnode : ∀ n ∈ live, (s'.node n).fullLockRef = (s.node n).fullLockRef ∧ (s'.node n).swaLockRef = (s.node n).swaLockRef ∧
      (s'.node n).swaUuid = (s.node n).swaUuid ∧ (s'.node n).parent = (s.node n).parent) : Locked s' live path top held := by
  refine h.transfer w h.nodes (fun _ _ => rfl) huuid
    (fun n hn h0 => .inl ⟨n, hn, h0, (hnode n hn).1, (hnode n hn).2.1, fun l _ => ⟨Iff.rfl, Iff.rfl⟩⟩)
    (fun n hn u hu => ⟨n, hn, (hnode n hn).2.2.1 ▸ hu, (hnode n hn).2.2.2⟩)
    fun l _ m hm hcov u hu => ⟨m, hm, (hnode m hm).2.2.1.trans hu, hcov⟩

theorem Locked.perm {held' : List Lock} (hp : held'.Perm held) : Locked s live path top held' where
  nodes l hl := h.nodes l (hp.mem_iff.mp hl)
  full n hn h0 := by rw [h.full n hn h0, hp.countP_eq]
  swa n hn h0 := by rw [h.swa n hn h0, hp.countP_eq]
  uuid_le l hl := h.uuid_le l (hp.mem_iff.mp hl)
  begins := h.begins
  way l hl := h.way l (hp.mem_iff.mp hl)

/-- The place of a lock is the end of a way above its node. -/
theorem Locked.place_eq (b : Base pageSize s live path spared) (hl : l ∈ held) :
    ∃ q ∈ live, path q <+: path l.node ∧ place top l.uuid = (path q).length ∧
    (l.node ≠ 0 → (path q).length < (path l.node).length) := by
  have w := b.wf
  cases hu : l.uuid with
  | none =>
    refine ⟨0, w.shape.root_live, ?_, ?_, fun h0 => ?_⟩ <;> rw [w.shape.root_path]
    · exact nil_prefix
    · rfl
    · exact length_pos_iff.mpr (w.shape.path_ne_nil (h.nodes l hl) h0)
  | some u =>
    obtain ⟨k, hk, hku, hcov⟩ := h.way l hl u hu
    obtain ⟨q, -, hq, -, hq', -, -⟩ := w.up hk (b.uuid_ne_root hku)
    obtain ⟨-, hpath, hlt⟩ := w.shape.parent_lt hk (b.uuid_ne_root hku) hq'
    exact ⟨q, hq, List.IsPrefix.trans ⟨_, hpath.symm⟩ hcov, (h.begins k hk u q hku hq').symm,
      fun _ => hlt.trans_le hcov.length_le⟩

/-! ## Changes of the tree -/

/-- The upper part of a node that is cut in two takes the uuid, and both have the locks of the node. -/
theorem Locked.split (b : Base pageSize s live path spared) (hp : p ∈ live) (hc : (s.node p).children.get? x = some c)
    (hcut : Cut s s' p c x y r) (w' : Wf pageSize s' (insert s.counter live) (cutPath pageSize s path p c r)) :
    Locked s' (insert s.counter live) (cutPath pageSize s path p c r) top held := by
  have w := b.wf
  obtain ⟨hclive, hc0, hcp, -⟩ := w.child hp hc
  have hcn := w.ne_counter hclive
  have hnode := hcut.2.2
  have hnew : s'.node s.counter = _ := (hnode s.counter).trans (if_pos rfl)
  have hlower : s'.node c = _ := (hnode c).trans ((if_neg hcn).trans (if_pos rfl))
  have hpath : ∀ n ∈ live, cutPath pageSize s path p c r n = path n := fun n hn => w.cutPath_eq hn
  have hn0 : s.counter ≠ 0 := Ne.symm (w.ne_counter w.shape.root_live)
  obtain ⟨-, -, hlt⟩ := w'.shape.parent_lt (mem_insert_self _ _) hn0 (show (s'.node s.counter).parent = some p by rw [hnew])
  obtain ⟨-, hnewC, hlt'⟩ := w'.shape.parent_lt (mem_insert_of_mem hclive) hc0
    (show (s'.node c).parent = some s.counter by rw [hlower])
  have hnewC : cutPath pageSize s path p c r s.counter <+: path c := ⟨_, by rw [← hpath c hclive, hnewC]⟩
  rw [hpath p hp] at hlt
  rw [hpath c hclive] at hlt'
  -- a way that comes to the new node goes on to the lower part
  have hcovers : ∀ l ∈ held, Covers (cutPath pageSize s path p c r) s.counter l ↔ Covers path c l := by
    intro l hl
    rw [Covers, Covers, hpath l.node (h.nodes l hl)]
    exact ⟨w.shape.ends_isPrefix hclive hc0 (h.nodes l hl) ⟨p, hcp, hlt, hnewC⟩, hnewC.trans⟩
  have hold : ∀ n ∈ live, n ≠ c → Kept (s'.node n) (s.node n) := fun n hn hnc => hcut.kept (w.ne_counter hn) hnc
  refine h.transfer w (fun l hl => mem_insert_of_mem (h.nodes l hl)) hpath (le_of_eq hcut.2.1.symm) (fun n hn h0 => ?_)
    (fun n hn u hu => ?_)
    fun l hl m hm hcov u hu => ?_
  · rcases mem_insert.mp hn with rfl | hn
    · refine .inl ⟨c, hclive, hc0, by rw [hnew], by rw [hnew], fun l hl => ⟨hcovers l hl, ?_⟩⟩
      unfold Region
      rw [hcovers l hl]
      refine and_congr_right fun hcl => ⟨fun hr => hr.trans hlt', fun hr => ?_⟩
      -- no node ends on the edge that is cut
      obtain ⟨q, hq, hql, hplace, -⟩ := h.place_eq b hl
      rw [hplace] at hr ⊢
      refine lt_of_le_of_lt (w.shape.isPrefix_parent hq hclive hc0 hcp (prefix_of_prefix_length_le hql hcl (le_of_lt hr))
        ?_).length_le hlt
      rintro rfl
      exact lt_irrefl _ hr
    · have hflags := hcut.flags (w.ne_counter hn)
      exact .inl ⟨n, hn, h0, hflags.full, hflags.swa, fun l hl => h.alike hpath hn hl⟩
  · rcases mem_insert.mp hn with rfl | hn
    · rw [hnew] at hu ⊢
      exact ⟨c, hclive, hu, hcp.symm⟩
    by_cases hnc : n = c
    · rw [hnc, hlower] at hu
      cases hu
    · exact ⟨n, hn, (hold n hn hnc).uuid ▸ hu, (hold n hn hnc).parent⟩
  · by_cases hmc : m = c
    · subst hmc
      exact ⟨s.counter, mem_insert_self _ _, by rw [hnew]; exact hu, (hcovers l hl).mpr hcov⟩
    · exact ⟨m, mem_insert_of_mem hm, (hold m hm hmc).uuid.trans hu, (h.alike hpath hm hl).1.mpr hcov⟩

/-- No lock is on a new leaf. -/
theorem Locked.grow (hgrown : Grown s s' p x key value) (w : Wf pageSize s live path)
    (w' : Wf pageSize s' (insert s.counter live) path')
    (hpath : ∀ n ∈ live, path' n = path n) : Locked s' (insert s.counter live) path' top held := by
  have hnew : s'.node s.counter = _ := (hgrown.2.2 s.counter).trans (if_pos rfl)
  have hleaf : ∀ z, (s'.arena pageSize).child s.counter z = none := childless_iff.mp (by rw [hnew]; rfl)
  have hold : ∀ n ∈ live, Kept (s'.node n) (s.node n) := fun n hn => hgrown.kept (w.ne_counter hn)
  refine h.transfer w (fun l hl => mem_insert_of_mem (h.nodes l hl)) hpath (le_of_eq hgrown.2.1.symm) (fun n hn h0 => ?_)
    (fun n hn u hu => ?_)
    fun l hl m hm hcov u hu => ⟨m, mem_insert_of_mem hm, (hold m hm).uuid.trans hu, (h.alike hpath hm hl).1.mpr hcov⟩
  · rcases mem_insert.mp hn with rfl | hn
    · refine .inr ⟨by rw [hnew], by rw [hnew], fun l hl hcov => w.ne_counter (h.nodes l hl) ?_⟩
      exact w'.shape.leaf_isPrefix hn hleaf l.node (mem_insert_of_mem (h.nodes l hl)) hcov
    · exact .inl ⟨n, hn, h0, (hold n hn).full, (hold n hn).swa, fun l hl => h.alike hpath hn hl⟩
  · rcases mem_insert.mp hn with rfl | hn
    · rw [hnew] at hu
      cases hu
    · exact ⟨n, hn, (hold n hn).uuid ▸ hu, (hold n hn).parent⟩

/-- A leaf without a full lock goes. -/
theorem Locked.prune (w : Wf pageSize s live path) (hn : n ∈ live) (h0 : n ≠ 0) (hfree : (s.node n).fullLockRef = 0)
    (hpruned : Pruned s s' p x) : Locked s' (live.erase n) path top held := by
  have hnot : ∀ l ∈ held, ∀ k, Covers path k l → k ≠ n := by
    rintro l hl k hcov rfl
    have := h.full k hn h0
    rw [hfree] at this
    have hz := countP_eq_zero.mp (by exact_mod_cast this.symm) l hl
    simp [hcov] at hz
  have hold := hpruned.kept
  refine h.transfer w (fun l hl => mem_erase.mpr ⟨hnot l hl _ prefix_rfl, h.nodes l hl⟩) (fun _ _ => rfl)
    (le_of_eq hpruned.2.1.symm)
    (fun m hm hm0 => .inl ⟨m, mem_of_mem_erase hm, hm0, (hold m).full, (hold m).swa, fun l _ => ⟨Iff.rfl, Iff.rfl⟩⟩)
    (fun m hm u hu => ⟨m, mem_of_mem_erase hm, (hold m).uuid ▸ hu, (hold m).parent⟩)
    fun l hl m hm hcov u hu => ⟨m, mem_erase.mpr ⟨hnot l hl m hcov, hm⟩, (hold m).uuid.trans hu, hcov⟩

/-- A leaf that is locked is locked for the sliding-window layers too. -/
theorem Locked.leaf_swa (b : Base pageSize s live path spared) (hn : n ∈ live) (h0 : n ≠ 0)
    (hleaf : (s.node n).children.items = []) (hlock : 0 < (s.node n).fullLockRef) : 0 < (s.node n).swaLockRef := by
  rw [h.full n hn h0] at hlock
  obtain ⟨l, hl, hcov⟩ := countP_pos_iff.mp (by exact_mod_cast hlock)
  simp only [decide_eq_true_eq] at hcov
  rw [h.swa n hn h0]
  refine Int.ofNat_lt.mpr (countP_pos_iff.mpr ⟨l, hl, ?_⟩)
  obtain ⟨q, -, -, hplace, hlt⟩ := h.place_eq b hl
  have hnode := b.wf.shape.leaf_isPrefix hn (childless_iff.mp hleaf) l.node (h.nodes l hl) hcov
  rw [hnode] at hlt
  simp only [decide_eq_true_eq]
  exact ⟨hcov, hplace ▸ hlt h0⟩

end

/-! ## The way up from a node -/

open Classical in
/-- The nodes on the way from the root to `n`, without the root and without `n` if it is the root. -/
noncomputable def above (live : Finset NodeId) (path : NodeId → List ChildKey) (n : NodeId) : Finset NodeId :=
  (live.erase 0).filter fun k => path k <+: path n

theorem Wf.above_parent (w : Wf pageSize s live path) (hn : n ∈ live) (h0 : n ≠ 0) (hp : (s.node n).parent = some p) :
    (above live path p).card < (above live path n).card := by
  obtain ⟨-, hpath, hlt⟩ := w.shape.parent_lt hn h0 hp
  refine Finset.card_lt_card (Finset.ssubset_iff_subset_ne.mpr ⟨fun k hk => ?_, fun he => ?_⟩)
  · obtain ⟨hk, hpre⟩ := Finset.mem_filter.mp hk
    exact mem_filter.mpr ⟨hk, hpre.trans ⟨_, hpath.symm⟩⟩
  · have hmem : n ∈ above live path n := mem_filter.mpr ⟨mem_erase.mpr ⟨h0, hn⟩, prefix_rfl⟩
    rw [← he] at hmem
    have := (mem_filter.mp hmem).2.length_le
    omega

theorem Wf.card_live (w : Wf pageSize s live path) : live.card ≤ s.counter := by
  have hsub : live ⊆ Finset.range s.counter := fun n hn => Finset.mem_range.mpr (w.lt_counter hn)
  have := card_le_card hsub
  rwa [card_range] at this

theorem Wf.above_le (w : Wf pageSize s live path) (n : NodeId) : (above live path n).card ≤ s.counter :=
  le_trans (Finset.card_le_card ((Finset.filter_subset _ _).trans (Finset.erase_subset _ _))) w.card_live

/-! ## One node locked or unlocked -/

/-- Only counters and uuids differ. -/
structure Relocked (s s' : SwaCache) (n : NodeId) : Prop where
  counter : s'.counter = s.counter
  ne : ∀ m, m ≠ n → s'.node m = s.node m
  children : (s'.node n).children = (s.node n).children
  parent : (s'.node n).parent = (s.node n).parent
  key : (s'.node n).key = (s.node n).key
  value : (s'.node n).value = (s.node n).value
  tombstone : (s'.node n).swaTombstone = (s.node n).swaTombstone
  fullList : s'.fullLruList = s.fullLruList
  swaList : s'.swaLruList = s.swaLruList

theorem Base.relocked (b : Base pageSize s live path none) (h : Relocked s s' n) (hn : n ∈ live) (h0 : n ≠ 0)
    (huuid : s.swaUuidCounter ≤ s'.swaUuidCounter) (hsizes : Resized s s' fun P t => t - tokens P (s.node n) +
    tokens P (s'.node n))
    (hswa : (s.node n).swaTombstone = true → (s'.node n).swaLockRef = (s.node n).swaLockRef)
    (hnonneg : 0 ≤ (s'.node n).fullLockRef ∧ 0 ≤ (s'.node n).swaLockRef) (hnewUuid : (s'.node n).swaUuid = (s.node n).swaUuid ∨
      ∃ u, (s'.node n).swaUuid = some u ∧ s.swaUuidCounter < u ∧ u ≤ s'.swaUuidCounter) : Base pageSize s' live path none := by
  refine b.change hn h0 h.counter huuid h.ne ⟨h.children, h.parent, h.key, by rw [h.value]⟩
    (by rw [h.fullList]; exact b.full) ?_ hsizes
    (fun ht => ?_) hnonneg hnewUuid
  · rw [h.swaList]
    refine b.swa.congr fun m => ?_
    unfold InSwa
    by_cases hm : m = n
    · rw [hm, h.tombstone]
    · rw [h.ne m hm]
  · rw [h.tombstone] at ht
    rw [h.children, hswa ht]
    exact ⟨b.leaf n hn h0 ht nofun, (b.flags n hn h0).free ht⟩

/-- The two counters of the node have new values. -/
structure Relocks (s s' : SwaCache) (n : NodeId) (full swa : Int) : Prop where
  relocked : Relocked s s' n
  full : (s'.node n).fullLockRef = full
  swa : (s'.node n).swaLockRef = swa
  uuid : (s'.node n).swaUuid = (s.node n).swaUuid
  uuidCounter : s'.swaUuidCounter = s.swaUuidCounter

/-- The sizes change first, and then the counters of the node. -/
theorem relocks_modify {f : TreeNode → TreeNode} (h : s'.node = s.node ∧ s'.counter = s.counter ∧ s'.fullLruList = s.fullLruList ∧
      s'.swaLruList = s.swaLruList ∧ s'.swaUuidCounter = s.swaUuidCounter)
    (hf : ∀ m, f m = { m with fullLockRef := (f m).fullLockRef, swaLockRef := (f m).swaLockRef }) :
    Relocks s (s'.modify n f) n (f (s.node n)).fullLockRef (f (s.node n)).swaLockRef := by
  obtain ⟨hnode, hcounter, hfull, hswa, huuid⟩ := h
  have hsame : (s'.modify n f).node n = f (s.node n) := by rw [node_modify_same, hnode]
  refine ⟨⟨hcounter, fun m hm => ?_, ?_, ?_, ?_, ?_, ?_, hfull, hswa⟩, ?_, ?_, ?_, huuid⟩
  · rw [node_modify_ne _ _ hm, hnode]
  all_goals rw [hsame]
  all_goals rw [hf]

theorem lockFull_spec (s : SwaCache) (n : NodeId) :
    Relocks s (s.lockFull n) n ((s.node n).fullLockRef + 1) (s.node n).swaLockRef := by
  unfold lockFull
  dsimp only
  split <;> exact relocks_modify ⟨rfl, rfl, rfl, rfl, rfl⟩ fun _ => rfl

theorem lockSwa_spec (s : SwaCache) (n : NodeId) :
    Relocks s (s.lockSwa n) n (s.node n).fullLockRef ((s.node n).swaLockRef + 1) := by
  unfold lockSwa
  dsimp only
  split <;> exact relocks_modify ⟨rfl, rfl, rfl, rfl, rfl⟩ fun _ => rfl

theorem unlockFull_spec (s : SwaCache) (n : NodeId) :
    Relocks s (s.unlockFull n) n ((s.node n).fullLockRef - 1) (s.node n).swaLockRef := by
  unfold unlockFull
  dsimp only
  split <;> exact relocks_modify ⟨rfl, rfl, rfl, rfl, rfl⟩ fun _ => rfl

theorem unlockSwa_spec (s : SwaCache) (n : NodeId) :
    Relocks s (s.unlockSwa n) n (s.node n).fullLockRef ((s.node n).swaLockRef - 1) := by
  unfold unlockSwa
  dsimp only
  split <;> exact relocks_modify ⟨rfl, rfl, rfl, rfl, rfl⟩ fun _ => rfl

theorem tokens_swa {n m : TreeNode} (ht : n.swaTombstone = m.swaTombstone) (hl : n.swaLockRef = m.swaLockRef)
    (hk : n.key = m.key) :
    tokens swaEvictable n = tokens swaEvictable m ∧ tokens swaProtected n = tokens swaProtected m := by
  have hE : swaEvictable n = swaEvictable m := by simp [swaEvictable, ht, hl]
  have hP : swaProtected n = swaProtected m := by simp [swaProtected, ht, hl]
  unfold tokens
  rw [hE, hP, hk]
  exact ⟨rfl, rfl⟩

theorem tokens_full {n m : TreeNode} (hl : n.fullLockRef = m.fullLockRef) (hk : n.key = m.key) :
    tokens fullEvictable n = tokens fullEvictable m ∧ tokens fullProtected n = tokens fullProtected m := by
  have hE : fullEvictable n = fullEvictable m := by simp [fullEvictable, hl]
  have hP : fullProtected n = fullProtected m := by simp [fullProtected, hl]
  unfold tokens
  rw [hE, hP, hk]
  exact ⟨rfl, rfl⟩

/-- What the node counts for when its counter is `lockRef`. -/
def evictableTokens (n : TreeNode) (lockRef : Int) : Int := if lockRef = 0 then (n.value.length : Int) else 0

def protectedTokens (n : TreeNode) (lockRef : Int) : Int := if 0 < lockRef then (n.value.length : Int) else 0

section
variable (b : Base pageSize s live path none) (hn : n ∈ live) (h0 : n ≠ 0)
include b hn h0

theorem Base.relockFull {full : Int} (h : Relocks s s' n full (s.node n).swaLockRef) (hnonneg : 0 ≤ full)
    (hsizes : s'.fullEvictableSize = s.fullEvictableSize - evictableTokens (s.node n) (s.node n).fullLockRef +
    evictableTokens (s.node n) full ∧
      s'.fullProtectedSize = s.fullProtectedSize - protectedTokens (s.node n) (s.node n).fullLockRef +
      protectedTokens (s.node n) full ∧
      s'.swaEvictableSize = s.swaEvictableSize ∧ s'.swaProtectedSize = s.swaProtectedSize) : Base pageSize s' live path none := by
  obtain ⟨hre, hfull, hswa, huuid, hcount⟩ := h
  obtain ⟨hswaE, hswaP⟩ := tokens_swa hre.tombstone hswa hre.key
  refine b.relocked hre hn h0 (le_of_eq hcount.symm) ?_ (fun _ => hswa) ⟨hfull ▸ hnonneg,
    hswa ▸ (b.flags n hn h0).swa_nonneg⟩ (.inl huuid)
  simp only [Resized]
  rw [hsizes.1, hsizes.2.1, hsizes.2.2.1, hsizes.2.2.2, hswaE, hswaP]
  simp only [tokens, fullEvictable, fullProtected, evictableTokens, protectedTokens, hfull, hre.key, b.wf.values n hn,
    decide_eq_true_eq]
  exact ⟨trivial, trivial, by omega, by omega⟩

theorem Base.relockSwa {swa : Int} (h : Relocks s s' n (s.node n).fullLockRef swa)
    (ht : (s.node n).swaTombstone = false) (hnonneg : 0 ≤ swa)
    (hsizes : s'.fullEvictableSize = s.fullEvictableSize ∧ s'.fullProtectedSize = s.fullProtectedSize ∧
      s'.swaEvictableSize = s.swaEvictableSize - evictableTokens (s.node n) (s.node n).swaLockRef +
      evictableTokens (s.node n) swa ∧
      s'.swaProtectedSize = s.swaProtectedSize - protectedTokens (s.node n) (s.node n).swaLockRef +
      protectedTokens (s.node n) swa) :
    Base pageSize s' live path none := by
  obtain ⟨hre, hfull, hswa, huuid, hcount⟩ := h
  obtain ⟨hfullE, hfullP⟩ := tokens_full hfull hre.key
  refine b.relocked hre hn h0 (le_of_eq hcount.symm) ?_
    (fun h => by rw [ht] at h; cases h) ⟨hfull ▸ (b.flags n hn h0).full_nonneg, hswa ▸ hnonneg⟩
    (.inl huuid)
  simp only [Resized]
  rw [hsizes.1, hsizes.2.1, hsizes.2.2.1, hsizes.2.2.2, hfullE, hfullP]
  simp only [tokens, swaEvictable, swaProtected, evictableTokens, protectedTokens, hswa, hre.tombstone, ht, hre.key,
    b.wf.values n hn, Bool.not_false, Bool.true_and, decide_eq_true_eq]
  exact ⟨by omega, by omega, trivial, trivial⟩

theorem Base.lockFull : Base pageSize (s.lockFull n) live path none := by
  have hnonneg := (b.flags n hn h0).full_nonneg
  refine b.relockFull hn h0 (lockFull_spec s n) (by omega) ?_
  unfold evictableTokens protectedTokens SwaCache.lockFull SwaCache.modify
  dsimp only
  split_ifs <;> refine ⟨?_, ?_, rfl, rfl⟩ <;> first | omega | (dsimp only; omega)

theorem Base.lockSwa (ht : (s.node n).swaTombstone = false) : Base pageSize (s.lockSwa n) live path none := by
  have hnonneg := (b.flags n hn h0).swa_nonneg
  refine b.relockSwa hn h0 (lockSwa_spec s n) ht (by omega) ?_
  unfold evictableTokens protectedTokens SwaCache.lockSwa SwaCache.modify
  dsimp only
  split_ifs <;> refine ⟨rfl, rfl, ?_, ?_⟩ <;> first | omega | (dsimp only; omega)

theorem Base.unlockFull (hpos : 0 < (s.node n).fullLockRef) : Base pageSize (s.unlockFull n) live path none := by
  refine b.relockFull hn h0 (unlockFull_spec s n) (by omega) ?_
  unfold evictableTokens protectedTokens SwaCache.unlockFull SwaCache.modify
  dsimp only
  split_ifs <;> refine ⟨?_, ?_, rfl, rfl⟩ <;> first | omega | (dsimp only; omega)

theorem Base.unlockSwa (ht : (s.node n).swaTombstone = false)
    (hpos : 0 < (s.node n).swaLockRef) : Base pageSize (s.unlockSwa n) live path none := by
  refine b.relockSwa hn h0 (unlockSwa_spec s n) ht (by omega) ?_
  unfold evictableTokens protectedTokens SwaCache.unlockSwa SwaCache.modify
  dsimp only
  split_ifs <;> refine ⟨rfl, rfl, ?_, ?_⟩ <;> first | omega | (dsimp only; omega)

/-- A node that has no uuid gets one that no other has had. -/
theorem Base.uuidOf :
    ∃ s' u, s.uuidOf n = (s', u) ∧ Base pageSize s' live path none ∧ Relocked s s' n ∧
    (s'.node n).fullLockRef = (s.node n).fullLockRef ∧
      (s'.node n).swaLockRef = (s.node n).swaLockRef ∧ (s'.node n).swaUuid = some u ∧ s.swaUuidCounter ≤ s'.swaUuidCounter ∧
      u ≤ s'.swaUuidCounter ∧ ((s.node n).swaUuid = some u ∨ (s.node n).swaUuid = none ∧ s.swaUuidCounter < u) := by
  unfold SwaCache.uuidOf
  cases hu : (s.node n).swaUuid with
  | some u =>
    exact ⟨s, u, rfl, b, ⟨rfl, fun _ _ => rfl, rfl, rfl, rfl, rfl, rfl, rfl, rfl⟩, rfl, rfl, hu, le_refl _,
      b.uuids.le n hn u hu, .inl rfl⟩
  | none =>
    obtain ⟨s', hs'⟩ : ∃ s' : SwaCache, s' = ({ s with swaUuidCounter := s.swaUuidCounter + 1 } : SwaCache).modify n
      fun node => { node with swaUuid := some (s.swaUuidCounter + 1) } := ⟨_, rfl⟩
    have hnode : s'.node n = { s.node n with swaUuid := some (s.swaUuidCounter + 1) } := by
      rw [hs', node_modify_same]
    have hre : Relocked s s' n := by
      refine ⟨by rw [hs']; rfl, fun m hm => by rw [hs', node_modify_ne _ _ hm], ?_, ?_, ?_, ?_, ?_, by rw [hs']; rfl,
        by rw [hs']; rfl⟩ <;> rw [hnode]
    have hcounter : s'.swaUuidCounter = s.swaUuidCounter + 1 := by
      rw [hs']
      rfl
    have hsizes : s'.fullEvictableSize = s.fullEvictableSize ∧ s'.fullProtectedSize = s.fullProtectedSize ∧
        s'.swaEvictableSize = s.swaEvictableSize ∧ s'.swaProtectedSize = s.swaProtectedSize := by
      rw [hs']
      exact ⟨rfl, rfl, rfl, rfl⟩
    obtain ⟨h1, h2⟩ := tokens_full (n := s'.node n) (m := s.node n) (by rw [hnode]) hre.key
    obtain ⟨h3, h4⟩ := tokens_swa (n := s'.node n) (m := s.node n) (by rw [hnode]) (by rw [hnode]) hre.key
    refine ⟨s', s.swaUuidCounter + 1, by rw [hs'], ?_, hre, by rw [hnode], by rw [hnode], by rw [hnode], by omega, by omega,
      .inr ⟨rfl, lt_succ_self _⟩⟩
    refine b.relocked hre hn h0 (by omega) ?_ (fun _ => by rw [hnode]) ?_
      (.inr ⟨s.swaUuidCounter + 1, by rw [hnode], lt_succ_self _, by omega⟩)
    · simp only [Resized]
      rw [h1, h2, h3, h4, hsizes.1, hsizes.2.1, hsizes.2.2.1, hsizes.2.2.2]
      refine ⟨?_, ?_, ?_, ?_⟩ <;> omega
    · rw [hnode]
      exact ⟨(b.flags n hn h0).full_nonneg, (b.flags n hn h0).swa_nonneg⟩

end

/-! ## `inc_lock_ref` -/

/-- Going up from the node, the root or `k` tokens come before a tombstone. -/
inductive Window (s : SwaCache) : Nat → NodeId → Prop where
  | root {k : Nat} : Window s k 0
  | done {n : NodeId} : Window s 0 n
  | up {k : Nat} {n p : NodeId} : (s.node n).swaTombstone = false → (s.node n).parent = some p →
    Window s (k - (s.node n).key.len) p → Window s k n

/-- A walk up from `m` that is at `cur` has been at `n`. -/
def Passed (path : NodeId → List ChildKey) (m cur n : NodeId) : Prop := path n <+: path m ∧ (path cur).length < (path n).length

theorem not_passed_start (m n : NodeId) : ¬ Passed path m m n := fun h => by
  have := h.1.length_le
  have := h.2
  omega

theorem Wf.passed_root (w : Wf pageSize s live path) (hn : n ∈ live) (h0 : n ≠ 0) : Passed path m 0 n ↔ path n <+: path m := by
  refine and_iff_left ?_
  rw [w.shape.root_path]
  exact length_pos_iff.mpr (w.shape.path_ne_nil hn h0)

/-- A turn of a walk from `m` to the root. -/
theorem Wf.climb (w : Wf pageSize s live path) (hcur : cur ∈ live) (h0 : cur ≠ 0) (hway : path cur <+: path m) :
    ∃ p ∈ live, (s.node cur).parent = some p ∧ path p <+: path m ∧ (path p).length < (path cur).length ∧
      ∀ n ∈ live, n ≠ 0 → (Passed path m p n ↔ Passed path m cur n ∨ n = cur) := by
  obtain ⟨p, x, hp, -, hp', -, -⟩ := w.up hcur h0
  obtain ⟨-, hpath, hlt⟩ := w.shape.parent_lt hcur h0 hp'
  refine ⟨p, hp, hp', List.IsPrefix.trans ⟨_, hpath.symm⟩ hway, hlt, fun n hn hn0 => ⟨fun h => ?_, fun h => ?_⟩⟩
  · rcases lt_or_ge (path cur).length (path n).length with hlen | hlen
    · exact .inl ⟨h.1, hlen⟩
    · have hpre := prefix_of_prefix_length_le h.1 hway hlen
      exact .inr (w.shape.ends_unique _ (path n) rfl n hn hn0 cur hcur h0 (w.shape.ends_self hn hn0) ⟨p, hp', h.2, hpre⟩)
  · rcases h with h | rfl
    · exact ⟨h.1, hlt.trans h.2⟩
    · exact ⟨hway, hlt⟩

/-- The counter is one more for those that `P` is true of. -/
def Counts (old new : Int) (P : Prop) : Prop := (P → new = old + 1) ∧ (¬ P → new = old)

theorem Counts.congr {P : Prop} (h : Counts old new P) (hPQ : Q ↔ P) : Counts old new Q :=
  ⟨fun hq => h.1 (hPQ.mp hq), fun hq => h.2 fun hp => hq (hPQ.mpr hp)⟩

/-- The sliding-window locks of a walk up that has not come to the end of the window, or has ended it at `last`. -/
def IncPart (cfg : Config) (s₀ : SwaCache) (live : Finset NodeId) (path : NodeId → List ChildKey) (m : NodeId)
    (w : IncLock) : Prop :=
  (w.swaUuidForLock = none ∧ w.swaLockSize < cfg.slidingWindowSize ∧ Window s₀ (cfg.slidingWindowSize - w.swaLockSize) w.node ∧
    (∀ n ∈ live, (w.cache.node n).swaUuid = (s₀.node n).swaUuid) ∧
    ∀ n ∈ live, n ≠ 0 → Counts (s₀.node n).swaLockRef (w.cache.node n).swaLockRef (Passed path m w.node n)) ∨
  ∃ u last, w.swaUuidForLock = some u ∧ cfg.slidingWindowSize ≤ w.swaLockSize ∧ last ∈ live ∧ Passed path m w.node last ∧
    (w.cache.node last).swaUuid = some u ∧ u ≤ w.cache.swaUuidCounter ∧
    ((s₀.node last).swaUuid = some u ∨ (s₀.node last).swaUuid = none ∧ s₀.swaUuidCounter < u) ∧
    (∀ n ∈ live, n ≠ last → (w.cache.node n).swaUuid = (s₀.node n).swaUuid) ∧
    ∀ n ∈ live, n ≠ 0 → Counts (s₀.node n).swaLockRef (w.cache.node n).swaLockRef (path n <+: path m ∧ path last <+: path n)

/-- Only locks and uuids have changed. -/
def SameTree (s s' : SwaCache) : Prop :=
  ∀ n, (s'.node n).parent = (s.node n).parent ∧ (s'.node n).key = (s.node n).key ∧
    (s'.node n).swaTombstone = (s.node n).swaTombstone

structure Incs (cfg : Config) (s₀ : SwaCache) (live : Finset NodeId) (path : NodeId → List ChildKey) (m : NodeId)
    (w : IncLock) : Prop where
  base : Base cfg.pageSize w.cache live path none
  node : w.node ∈ live
  way : path w.node <+: path m
  tree : SameTree s₀ w.cache
  full : ∀ n ∈ live, n ≠ 0 → Counts (s₀.node n).fullLockRef (w.cache.node n).fullLockRef (Passed path m w.node n)
  uuid : s₀.swaUuidCounter ≤ w.cache.swaUuidCounter
  part : IncPart cfg s₀ live path m w

theorem Relocked.trans {s₁ s₂ s₃ : SwaCache} (h : Relocked s₁ s₂ n) (h' : Relocked s₂ s₃ n) : Relocked s₁ s₃ n where
  counter := h'.counter.trans h.counter
  ne m hm := (h'.ne m hm).trans (h.ne m hm)
  children := h'.children.trans h.children
  parent := h'.parent.trans h.parent
  key := h'.key.trans h.key
  value := h'.value.trans h.value
  tombstone := h'.tombstone.trans h.tombstone
  fullList := h'.fullList.trans h.fullList
  swaList := h'.swaList.trans h.swaList

/-- What is the same at the node is the same everywhere. -/
theorem Relocked.read {α : Type*} (h : Relocked s s' n) (f : TreeNode → α) (hn : f (s'.node n) = f (s.node n)) (m : NodeId) :
    f (s'.node m) = f (s.node m) := by
  by_cases hm : m = n
  · rw [hm, hn]
  · rw [h.ne m hm]

theorem Relocked.sameTree (h : Relocked s s' n) (h₀ : SameTree s₀ s) : SameTree s₀ s' := by
  intro m
  rw [h.read (·.parent) h.parent, h.read (·.key) h.key, h.read (·.swaTombstone) h.tombstone]
  exact h₀ m

/-- The walk counts the node it is at. -/
theorem Relocked.pass (hre : Relocked s s' cur) (f : TreeNode → Int)
    (h : Counts old (f (s.node n)) (P n)) (hQ : Q ↔ P n ∨ n = cur) (hcur : ¬ P cur) (heq : f (s'.node cur) = f (s.node cur) + 1) :
    Counts old (f (s'.node n)) Q := by
  by_cases hn : n = cur
  · subst hn
    refine ⟨fun _ => ?_, absurd (hQ.mpr (.inr rfl))⟩
    rw [heq, h.2 hcur]
  · rw [hre.ne n hn]
    exact h.congr (hQ.trans (or_iff_left hn))

theorem incLockStep_spec (cfg : Config) {w : IncLock} (h : Incs cfg s₀ live path m w) (hgo : w.node ≠ 0) :
    ∃ w' p, incLockStep cfg w = .ok w' ∧ Incs cfg s₀ live path m w' ∧ (w.cache.node w.node).parent = some p ∧ w'.node = p := by
  obtain ⟨p, hp, hp', hway, hlt, hpassed⟩ := h.base.wf.climb h.node hgo h.way
  have hcur : ¬ Passed path m w.node w.node := fun hc => lt_irrefl _ hc.2
  have hnonneg := (h.base.flags w.node h.node hgo).full_nonneg
  obtain ⟨hre1, hfull1, hswa1, huuid1, hcount1⟩ := lockFull_spec w.cache w.node
  have hb1 := h.base.lockFull h.node hgo
  unfold incLockStep
  dsimp only
  rw [hp']
  dsimp only
  rw [if_neg (by omega)]
  rcases h.part with ⟨hnone, hsize, hwindow, huuids, hcounts⟩ | ⟨u, last, hsome, hsize, hlast, hlastPassed, hlastUuid, hle,
    hold, huuids, hcounts⟩
  · -- still in the window, so that the node is not a tombstone
    obtain ⟨ht, hnext⟩ : (s₀.node w.node).swaTombstone = false ∧
        Window s₀ (cfg.slidingWindowSize - w.swaLockSize - (s₀.node w.node).key.len) p := by
      generalize hk : cfg.slidingWindowSize - w.swaLockSize = k at hwindow
      generalize hcurNode : w.node = cur at hwindow
      cases hwindow with
      | root => exact absurd hcurNode hgo
      | done => omega
      | up ht hq hrest =>
        rw [← hcurNode, ← (h.tree w.node).1, hp'] at hq
        obtain rfl := some.inj hq
        exact ⟨ht, hrest⟩
    have htc : (w.cache.node w.node).swaTombstone = false := by
      rw [(h.tree w.node).2.2]
      exact ht
    have hlen : (w.cache.node w.node).value.length = (s₀.node w.node).key.len := by
      rw [h.base.wf.values w.node h.node, (h.tree w.node).2.1]
    obtain ⟨hre2, hfull2, hswa2, huuid2, hcount2⟩ := lockSwa_spec (w.cache.lockFull w.node) w.node
    have hb2 := hb1.lockSwa h.node hgo (by rw [hre1.tombstone]; exact htc)
    rw [if_pos hsize, htc]
    simp only [false_eq_true, if_false]
    by_cases hend : cfg.slidingWindowSize ≤ w.swaLockSize + (w.cache.node w.node).value.length
    · obtain ⟨s3, u, hs3, hb3, hre3, hfull3, hswa3, huuid3, hcount3, hule, hwas⟩ := hb2.uuidOf h.node hgo
      rw [if_pos hend, hs3]
      have hre := (hre1.trans hre2).trans hre3
      have htree := hre.sameTree h.tree
      refine ⟨_, p, rfl, ⟨hb3, hp, hway, htree, fun n hn h0 => ?_, ?_, .inr ⟨u, w.node, rfl, hend, h.node,
        (hpassed w.node h.node hgo).mpr (.inr rfl), huuid3, hule, ?_, fun n hn hne => ?_, fun n hn h0 => ?_⟩⟩, rfl, rfl⟩
      · exact hre.pass (·.fullLockRef) (h.full n hn h0) (hpassed n hn h0) hcur (by rw [hfull3, hfull2, hfull1])
      · have := h.uuid
        show s₀.swaUuidCounter ≤ s3.swaUuidCounter
        omega
      · rw [huuid2, huuid1, huuids w.node h.node, hcount2, hcount1] at hwas
        have := h.uuid
        exact hwas.imp id fun hw => ⟨hw.1, by omega⟩
      · show (s3.node n).swaUuid = _
        rw [hre.ne n hne]
        exact huuids n hn
      have hpass : Counts (s₀.node n).swaLockRef (s3.node n).swaLockRef (Passed path m p n) :=
        hre.pass (·.swaLockRef) (hcounts n hn h0) (hpassed n hn h0) hcur (by rw [hswa3, hswa2, hswa1])
      refine hpass.congr ?_
      -- what has been passed is what is below the node that ends the window
      refine ⟨fun hc => ?_, fun hc => ⟨hc.1, ?_⟩⟩
      · have := hc.2.length_le
        exact ⟨hc.1, by omega⟩
      · refine prefix_of_prefix_length_le h.way hc.1 ?_
        rcases (hpassed n hn h0).mp hc with hc | hc
        · exact le_of_lt hc.2
        · rw [hc]
    · rw [if_neg hend]
      have hre := hre1.trans hre2
      have htree := hre.sameTree h.tree
      refine ⟨_, p, rfl, ⟨hb2, hp, hway, htree, fun n hn h0 => ?_, ?_, .inl ⟨hnone, Nat.lt_of_not_le hend, ?_, fun n hn => ?_,
        fun n hn h0 => ?_⟩⟩, rfl, rfl⟩
      · exact hre.pass (·.fullLockRef) (h.full n hn h0) (hpassed n hn h0) hcur (by rw [hfull2, hfull1])
      · show s₀.swaUuidCounter ≤ ((w.cache.lockFull w.node).lockSwa w.node).swaUuidCounter
        rw [hcount2, hcount1]
        exact h.uuid
      · rw [hlen, ← Nat.sub_sub]
        exact hnext
      · exact (hre.read (·.swaUuid) (huuid2.trans huuid1) n).trans (huuids n hn)
      · exact hre.pass (·.swaLockRef) (hcounts n hn h0) (hpassed n hn h0) hcur (by rw [hswa2, hswa1])
  · rw [if_neg (by omega)]
    have htree := hre1.sameTree h.tree
    refine ⟨_, p, rfl, ⟨hb1, hp, hway, htree, fun n hn h0 => ?_, ?_, .inr ⟨u, last, hsome, hsize, hlast, ?_, ?_, ?_,
      hold, fun n hn hne => ?_, fun n hn h0 => ?_⟩⟩, rfl, rfl⟩
    · exact hre1.pass (·.fullLockRef) (h.full n hn h0) (hpassed n hn h0) hcur hfull1
    · show s₀.swaUuidCounter ≤ (w.cache.lockFull w.node).swaUuidCounter
      rw [hcount1]
      exact h.uuid
    · exact ⟨hlastPassed.1, hlt.trans hlastPassed.2⟩
    · exact (hre1.read (·.swaUuid) huuid1 last).trans hlastUuid
    · show u ≤ (w.cache.lockFull w.node).swaUuidCounter
      rw [hcount1]
      exact hle
    · exact (hre1.read (·.swaUuid) huuid1 n).trans (huuids n hn hne)
    · show Counts _ ((w.cache.lockFull w.node).node n).swaLockRef _
      rw [hre1.read (·.swaLockRef) hswa1 n]
      exact hcounts n hn h0

open Classical in
theorem Counts.countP {P : Lock → Prop} (h : Counts old new (P l)) :
    old = held.countP (fun l => decide (P l)) ↔ new = (l :: held).countP fun l => decide (P l) := by
  rw [countP_cons]
  by_cases hp : P l
  · have := h.1 hp
    rw [if_pos (by simpa using hp)]
    omega
  · have := h.2 hp
    rw [if_neg (by simpa using hp)]
    omega

/-- At the root the walk has locked what is below some node; the place of that node is new, or was that of its uuid. -/
theorem Incs.place (cfg : Config) (b : Base cfg.pageSize s live path none) (h : Locked s live path top held) {w : IncLock}
    (hw : Incs cfg s live path m w) (hroot : w.node = 0) :
    ∃ top', (∀ u ≤ s.swaUuidCounter, top' u = top u) ∧
      (∀ n ∈ live, n ≠ 0 → Counts (s.node n).swaLockRef (w.cache.node n).swaLockRef (Region path top' n ⟨m, w.swaUuidForLock⟩)) ∧
      (∀ n ∈ live, ∀ u p, (w.cache.node n).swaUuid = some u → (s.node n).parent = some p → (path p).length = top' u) ∧
      (∀ u, w.swaUuidForLock = some u → u ≤ w.cache.swaUuidCounter ∧ ∃ k ∈ live, (w.cache.node k).swaUuid = some u ∧
      path k <+: path m) ∧ ∀ k ∈ live, ∀ u, (s.node k).swaUuid = some u → (w.cache.node k).swaUuid = some u := by
  have hpath := b.wf.shape.root_path
  rcases hw.part with ⟨hnone, -, -, huuids, hcounts⟩ | ⟨v, last, hsome, -, hlast, hpassed, hlastUuid, hle, hwas, huuids, hcounts⟩
  · rw [hnone]
    refine ⟨top, fun _ _ => rfl, fun n hn h0 => (hcounts n hn h0).congr ?_,
      fun n hn u p hu => h.begins n hn u p (huuids n hn ▸ hu), nofun, fun k hk u hu => (huuids k hk).trans hu⟩
    rw [hroot, Passed, hpath]
    rfl
  rw [hsome]
  have hlast0 := hw.base.uuid_ne_root hlastUuid
  obtain ⟨q, -, -, -, hq, -, -⟩ := b.wf.up hlast hlast0
  have hlt := (b.wf.shape.parent_lt hlast hlast0 hq).2.2
  have hold : ∀ u ≤ s.swaUuidCounter, upd top v (path q).length u = top u := by
    intro u hu
    by_cases huv : u = v
    · rcases hwas with hwas | ⟨-, hlt⟩
      · rw [huv, upd_same, h.begins last hlast v q hwas hq]
      · omega
    · rw [upd_ne _ _ huv]
  refine ⟨upd top v (path q).length, hold, fun n hn h0 => (hcounts n hn h0).congr (and_congr_right fun hnm => ?_),
    fun n hn u p hu hp => ?_,
    fun u hu => Option.some.inj hu ▸ ⟨hle, last, hlast, hlastUuid, hpassed.1⟩, fun k hk u hu => ?_⟩
  · show upd top v _ v < _ ↔ _
    rw [upd_same]
    refine ⟨fun hr => ?_, fun hr => hlt.trans_le hr.length_le⟩
    refine prefix_of_prefix_length_le hpassed.1 hnm (Nat.le_of_not_lt fun hshort => ?_)
    -- a node above the last one is above its parent
    have hpre := prefix_of_prefix_length_le hnm hpassed.1 (le_of_lt hshort)
    have := (b.wf.shape.isPrefix_parent hn hlast hlast0 hq hpre fun he => lt_irrefl _ (he ▸ hshort)).length_le
    omega
  · by_cases hnl : n = last
    · subst hnl
      obtain rfl := some.inj (hlastUuid.symm.trans hu)
      obtain rfl := some.inj (hq.symm.trans hp)
      exact (upd_same _ _ _).symm
    · rw [huuids n hn hnl] at hu
      rw [hold u (b.uuids.le n hn u hu)]
      exact h.begins n hn u p hu hp
  · by_cases hkl : k = last
    · subst hkl
      rcases hwas with hwas | ⟨hwas, -⟩
      · exact (hlastUuid.trans hwas.symm).trans hu
      · cases hwas.symm.trans hu
    · rw [huuids k hk hkl]
      exact hu

theorem incLockRef_spec (cfg : Config) (henabled : cfg.disable = false) (b : Base cfg.pageSize s live path none)
    (h : Locked s live path top held) (hm : m ∈ live) (hwindow : Window s cfg.slidingWindowSize m) :
    ∃ s' u top', incLockRef cfg s m = .ok (s', u) ∧ Base cfg.pageSize s' live path none ∧
    Locked s' live path top' (⟨m, u⟩ :: held) ∧
      ∀ l ∈ held, place top' l.uuid = place top l.uuid := by
  obtain ⟨w, -, hrun, ⟨hincs, -⟩, hend⟩ := whileLoop_bound PyError.outOfFuel (fun w : IncLock => decide (w.node ≠ 0))
    (incLockStep cfg)
    (fun w k => Incs cfg s live path m w ∧ k = (above live path w.node).card)
    (by
      intro w k hw hgo
      obtain ⟨hw, rfl⟩ := hw
      have hgo : w.node ≠ 0 := by simpa using hgo
      obtain ⟨w', p, hstep, hw', hp, hnode⟩ := incLockStep_spec cfg hw hgo
      refine ⟨w', _, hstep, ⟨hw', rfl⟩, ?_⟩
      rw [hnode]
      exact hw.base.wf.above_parent hw.node hgo hp)
    s.counter { cache := s, node := m } _
    ⟨⟨b, hm, prefix_rfl, fun n => ⟨rfl, rfl, rfl⟩, fun n _ _ => ⟨fun hp => absurd hp (not_passed_start m n), fun _ => rfl⟩,
      le_refl _,
      .inl ⟨rfl, cfg.slidingWindowSize_pos, hwindow, fun _ _ => rfl,
      fun n _ _ => ⟨fun hp => absurd hp (not_passed_start m n), fun _ => rfl⟩⟩⟩, rfl⟩
    (b.wf.above_le m)
  have hroot : w.node = 0 := by simpa using hend
  obtain ⟨top', hold, hnew, hbegins, huuid, hkept⟩ := hincs.place cfg b h hroot
  have hplace : ∀ l ∈ held, place top' l.uuid = place top l.uuid := by
    intro l hl
    cases hu : l.uuid with
    | none => rfl
    | some u => exact hold u (h.uuid_le l hl u hu)
  refine ⟨w.cache, w.swaUuidForLock, top', ?_, hincs.base,
    ⟨forall_mem_cons.mpr ⟨hm, h.nodes⟩, fun n hn h0 => ?_, fun n hn h0 => ?_,
    forall_mem_cons.mpr ⟨fun u hu => (huuid u hu).1, fun l hl u hu => le_trans (h.uuid_le l hl u hu) hincs.uuid⟩,
    fun n hn u p hu hp => hbegins n hn u p hu ((hincs.tree n).1 ▸ hp),
    forall_mem_cons.mpr ⟨fun u hu => (huuid u hu).2, fun l hl u hu => ?_⟩⟩, hplace⟩
  · rw [incLockRef, henabled]
    simp only [false_eq_true, if_false, hrun, ok_bind]
    rfl
  · refine (Counts.countP (P := Covers path n) ?_).mp (h.full n hn h0)
    refine (hincs.full n hn h0).congr ?_
    rw [hroot, b.wf.passed_root hn h0]
    rfl
  · refine (Counts.countP (P := Region path top' n) (hnew n hn h0)).mp ?_
    rw [h.swa n hn h0]
    congr 1
    exact countP_congr fun l hl => by simp [show Region path top' n l ↔ Region path top n l by rw [Region, Region, hplace l hl]]
  · obtain ⟨k, hk, hku, hcov⟩ := h.way l hl u hu
    exact ⟨k, hk, hkept k hk u hku, hcov⟩

/-! ## `dec_lock_ref` -/

structure Decs (pageSize : Nat) (s₀ : SwaCache) (live : Finset NodeId) (path : NodeId → List ChildKey) (top : Nat → Nat)
    (l : Lock) (w : DecLock) : Prop where
  base : Base pageSize w.cache live path none
  node : w.node ∈ live
  way : path w.node <+: path l.node
  tree : SameTree s₀ w.cache
  full : ∀ n ∈ live, n ≠ 0 → Counts (w.cache.node n).fullLockRef (s₀.node n).fullLockRef (Passed path l.node w.node n)
  swa : ∀ n ∈ live, n ≠ 0 → Counts (w.cache.node n).swaLockRef (s₀.node n).swaLockRef (Passed path l.node w.node n ∧
    Region path top n l)
  uuids : ∀ n, (w.cache.node n).swaUuid = (s₀.node n).swaUuid
  counter : w.cache.swaUuidCounter = s₀.swaUuidCounter
  goesOn : w.node ≠ 0 → (w.decLockSwa = true ↔ place top l.uuid < (path w.node).length)

/-- The counter of the node the walk is at goes down. -/
theorem Relocked.release (hre : Relocked s s' cur) (f : TreeNode → Int)
    (h : Counts (f (s.node n)) old (P n)) (hQ : Q ↔ P n ∨ n = cur) (hcur : ¬ P cur) (heq : f (s'.node cur) = f (s.node cur) - 1) :
    Counts (f (s'.node n)) old Q := by
  by_cases hn : n = cur
  · subst hn
    refine ⟨fun _ => ?_, absurd (hQ.mpr (.inr rfl))⟩
    have := h.2 hcur
    omega
  · rw [hre.ne n hn]
    exact h.congr (hQ.trans (or_iff_left hn))

/-- The part of a lock goes on above a node unless the node has the uuid. -/
theorem Locked.goesOn (b : Base pageSize s live path none) (h : Locked s live path top held) (hl : l ∈ held)
    (hcur : cur ∈ live) (h0 : cur ≠ 0)
    (hreg : Region path top cur l) (hp : (s.node cur).parent = some p) (hp0 : p ≠ 0) :
    (∀ u, l.uuid = some u → (s.node cur).swaUuid ≠ some u) ↔ place top l.uuid < (path p).length := by
  obtain ⟨hway, hlt⟩ := hreg
  cases hu : l.uuid with
  | none => exact iff_of_true nofun (length_pos_iff.mpr (b.wf.shape.path_ne_nil (b.wf.parent_mem hcur hp) hp0))
  | some u =>
    rw [hu] at hlt
    constructor
    · intro hne
      obtain ⟨k, hk, hku, hkl⟩ := h.way l hl u hu
      have hk0 := b.uuid_ne_root hku
      have hkc : k ≠ cur := fun he => hne u rfl (he ▸ hku)
      obtain ⟨q, -, -, -, hq, -, -⟩ := b.wf.up hk hk0
      have htop : (path q).length = place top (some u) := h.begins k hk u q hku hq
      have hqk := (b.wf.shape.parent_lt hk hk0 hq).2.2
      -- the node with the uuid is above, and so above the parent
      have hshort : (path k).length ≤ (path cur).length := by
        by_contra hlong
        have := (b.wf.shape.isPrefix_parent hcur hk hk0 hq (prefix_of_prefix_length_le hway hkl (by omega))
          (Ne.symm hkc)).length_le
        omega
      have := (b.wf.shape.isPrefix_parent hk hcur h0 hp (prefix_of_prefix_length_le hkl hway hshort) hkc).length_le
      omega
    · intro hlt v hv hcv
      obtain rfl := some.inj hv
      exact absurd (h.begins cur hcur u p hcv hp) (ne_of_gt hlt)

theorem decLockStep_spec (b : Base pageSize s₀ live path none) (h₀ : Locked s₀ live path top held) (hl : l ∈ held) {w : DecLock}
    (h : Decs pageSize s₀ live path top l w) (hgo : w.node ≠ 0) :
    ∃ w' p, decLockStep l.uuid w = .ok w' ∧ Decs pageSize s₀ live path top l w' ∧ (w.cache.node w.node).parent = some p ∧
    w'.node = p := by
  set s1 := w.cache.unlockFull w.node
  obtain ⟨p, hp, hp', hway, hlt, hpassed⟩ := h.base.wf.climb h.node hgo h.way
  have hcur : ¬ Passed path l.node w.node w.node := fun hc => lt_irrefl _ hc.2
  have hfullPos : 0 < (w.cache.node w.node).fullLockRef := by
    rw [← (h.full w.node h.node hgo).2 hcur, h₀.full w.node h.node hgo]
    exact Int.ofNat_lt.mpr (countP_pos_iff.mpr ⟨l, hl, by simpa using (show Covers path w.node l from h.way)⟩)
  obtain ⟨hre1, hfull1, hswa1, huuid1, hcount1⟩ := unlockFull_spec w.cache w.node
  have hb1 := h.base.unlockFull h.node hgo hfullPos
  have hregion : Region path top w.node l ↔ w.decLockSwa = true := (and_iff_right h.way).trans (h.goesOn hgo).symm
  unfold decLockStep
  dsimp only
  rw [hp']
  dsimp only
  rw [if_neg (by omega)]
  cases hflag : w.decLockSwa with
  | true =>
    have hreg := hregion.mpr hflag
    have hswaPos : 0 < (w.cache.node w.node).swaLockRef := by
      rw [← (h.swa w.node h.node hgo).2 fun hc => hcur hc.1, h₀.swa w.node h.node hgo]
      exact Int.ofNat_lt.mpr (countP_pos_iff.mpr ⟨l, hl, by simpa using hreg⟩)
    have ht : (w.cache.node w.node).swaTombstone = false := by
      by_contra hne
      have := (h.base.flags w.node h.node hgo).free (by simpa using hne)
      omega
    obtain ⟨hre2, hfull2, hswa2, huuid2, hcount2⟩ := unlockSwa_spec s1 w.node
    have hb2 := hb1.unlockSwa h.node hgo (by rw [hre1.tombstone]; exact ht) (by rw [hswa1]; exact hswaPos)
    have hre := hre1.trans hre2
    rw [if_pos rfl, if_neg (by
      rw [ht]
      intro hor
      rcases hor with hor | hor
      · cases hor
      · omega)]
    refine ⟨_, p, rfl, ⟨hb2, hp, hway, hre.sameTree h.tree, fun n hn h0 => ?_, fun n hn h0 => ?_, fun n => ?_, ?_, ?_⟩, rfl, rfl⟩
    · exact hre.release (·.fullLockRef) (h.full n hn h0) (hpassed n hn h0) hcur (by rw [hfull2, hfull1])
    · refine hre.release (P := fun n => Passed path l.node w.node n ∧ Region path top n l) (·.swaLockRef) (h.swa n hn h0) ?_
        (fun hc => hcur hc.1) (by rw [hswa2, hswa1])
      rw [hpassed n hn h0]
      constructor
      · intro hc
        exact hc.1.imp (fun h1 => ⟨h1, hc.2⟩) id
      · intro hc
        rcases hc with hc | rfl
        · exact ⟨.inl hc.1, hc.2⟩
        · exact ⟨.inr rfl, hreg⟩
    · exact (hre.read (·.swaUuid) (huuid2.trans huuid1) n).trans (h.uuids n)
    · show (s1.unlockSwa w.node).swaUuidCounter = _
      rw [hcount2, hcount1]
      exact h.counter
    intro hp0
    rw [← h₀.goesOn b hl h.node hgo hreg ((h.tree w.node).1 ▸ hp') hp0]
    show (!(l.uuid.isSome && decide ((w.cache.node w.node).swaUuid = l.uuid))) = true ↔ _
    rw [h.uuids]
    cases l.uuid <;> simp
  | false =>
    have hreg : ¬ Region path top w.node l := fun hr => by
      have := hregion.mp hr
      rw [hflag] at this
      cases this
    simp only [false_eq_true, if_false]
    refine ⟨_, p, rfl, ⟨hb1, hp, hway, hre1.sameTree h.tree, fun n hn h0 => ?_, fun n hn h0 => ?_, fun n => ?_, ?_, ?_⟩, rfl, rfl⟩
    · exact hre1.release (·.fullLockRef) (h.full n hn h0) (hpassed n hn h0) hcur hfull1
    · show Counts (s1.node n).swaLockRef _ (Passed path l.node p n ∧ _)
      rw [hre1.read (·.swaLockRef) hswa1 n]
      refine (h.swa n hn h0).congr ?_
      rw [hpassed n hn h0]
      constructor
      · intro hc
        rcases hc.1 with h1 | rfl
        · exact ⟨h1, hc.2⟩
        · exact absurd hc.2 hreg
      · exact fun hc => ⟨.inl hc.1, hc.2⟩
    · exact (hre1.read (·.swaUuid) huuid1 n).trans (h.uuids n)
    · show s1.swaUuidCounter = _
      rw [hcount1]
      exact h.counter
    · exact fun _ => iff_of_false nofun fun hr => hreg ⟨h.way, hr.trans hlt⟩

/-- A call with what the call before it gave takes away what that one added. -/
theorem decLockRef_spec (cfg : Config) (henabled : cfg.disable = false) (b : Base cfg.pageSize s live path none)
    (h : Locked s live path top (l :: held)) :
    ∃ s', decLockRef cfg s l.node l.uuid = .ok s' ∧ Base cfg.pageSize s' live path none ∧ Locked s' live path top held := by
  have hlive := h.nodes l mem_cons_self
  obtain ⟨q, -, -, hplace, hlt⟩ := h.place_eq b mem_cons_self
  obtain ⟨w, -, hrun, ⟨hdecs, -⟩, hend⟩ := whileLoop_bound PyError.outOfFuel (fun w : DecLock => decide (w.node ≠ 0))
    (decLockStep l.uuid)
    (fun w k => Decs cfg.pageSize s live path top l w ∧ k = (above live path w.node).card)
    (by
      intro w k hw hgo
      obtain ⟨hw, rfl⟩ := hw
      have hgo : w.node ≠ 0 := by simpa using hgo
      obtain ⟨w', p, hstep, hw', hp, hnode⟩ := decLockStep_spec b h mem_cons_self hw hgo
      refine ⟨w', _, hstep, ⟨hw', rfl⟩, ?_⟩
      rw [hnode]
      exact hw.base.wf.above_parent hw.node hgo hp)
    s.counter { cache := s, node := l.node } _
    ⟨⟨b, hlive, prefix_rfl, fun n => ⟨rfl, rfl, rfl⟩,
      fun n _ _ => ⟨fun hp => absurd hp (not_passed_start l.node n), fun _ => rfl⟩,
      fun n _ _ => ⟨fun hp => absurd hp.1 (not_passed_start l.node n), fun _ => rfl⟩, fun _ => rfl, rfl,
      fun h0 => iff_of_true rfl (hplace ▸ hlt h0)⟩, rfl⟩
    (b.wf.above_le l.node)
  have hroot : w.node = 0 := by simpa using hend
  have hrest : ∀ l' ∈ held, l' ∈ l :: held := fun l' hl' => mem_cons_of_mem _ hl'
  refine ⟨w.cache, ?_, hdecs.base, fun l' hl' => h.nodes l' (hrest l' hl'), fun n hn h0 => ?_, fun n hn h0 => ?_,
    fun l' hl' => ?_,
    fun n hn u p hu hp => h.begins n hn u p (hdecs.uuids n ▸ hu) ((hdecs.tree n).1 ▸ hp), fun l' hl' u hu => ?_⟩
  · rw [decLockRef, henabled]
    simp only [false_eq_true, if_false, hrun, ok_bind]
    rfl
  · refine (Counts.countP (P := Covers path n) ?_).mpr (h.full n hn h0)
    refine (hdecs.full n hn h0).congr ?_
    rw [hroot, b.wf.passed_root hn h0]
    rfl
  · refine (Counts.countP (P := Region path top n) ?_).mpr (h.swa n hn h0)
    refine (hdecs.swa n hn h0).congr ?_
    rw [hroot, b.wf.passed_root hn h0]
    exact ⟨fun hr => ⟨hr.1, hr⟩, fun hr => hr.2⟩
  · rw [hdecs.counter]
    exact h.uuid_le l' (hrest l' hl')
  · obtain ⟨k, hk, hku, hcov⟩ := h.way l' (hrest l' hl') u hu
    exact ⟨k, hk, (hdecs.uuids k).trans hku, hcov⟩

end DynaSpec.MemCache.SwaRadix
