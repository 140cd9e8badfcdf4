/-
  DynaSpec.Speculative.BuildTreeFaithful — the draft trees are encoded faithfully.

  Threads and the fallback's iterations keep to their own cells (`Local.frame`), so a
  launch in any order leaves each request's cells as its own threads do; the fallback
  computes the kernel's links and positions (`nativeNode_written`), also through its
  two-token shortcut (`shortcut_built`). The selection that `organize_draft_results`
  returns is a `Selection` when it is closed under parents (`selection_holds`).

  - `buildTree_faithful`: the links encode the tree whose parents are the beam entries the
    candidates were expanded from; every node has one root path, positions count it, and
    the kernel's mask rows are the lead columns and that path.
-/

import DynaSpec.Speculative.BuildTreeThread
import DynaSpec.Speculative.DraftTree

namespace DynaSpec.Speculative.BuildTree

open DynaSpec.Lib Option List Nat Links OrderedTree

variable {s0 : Buffers} {fuel : Nat}

section
variable {x : Inputs} {bid : Nat} {S : Selection x.topk x.draftTokenNum}

/-! ## The grid -/

/-- Buffers with the same contents in the cells of thread `t` of block `b`. -/
structure Agree (x : Inputs) (bt : Fin x.batchSize × Fin x.draftTokenNum) (s s' : Buffers) : Prop where
  mask : ∀ j < lead x bt.1 + x.draftTokenNum, s.treeMask (maskRow x bt.1 bt.2 + j : Nat) =
    s'.treeMask (maskRow x bt.1 bt.2 + j : Nat)
  position : s.positions (bt.1 * x.draftTokenNum + bt.2) = s'.positions (bt.1 * x.draftTokenNum + bt.2)
  links : bt.2.val = 0 → Same x.draftTokenNum (links x bt.1 s) (links x bt.1 s')
  index : bt.2.val = 0 → ∀ i < x.draftTokenNum, s.retriveIndex (bt.1 * x.draftTokenNum + i) =
    s'.retriveIndex (bt.1 * x.draftTokenNum + i)

theorem Agree.refl (bt : Fin x.batchSize × Fin x.draftTokenNum) (s : Buffers) : Agree x bt s s :=
  ⟨fun _ _ => rfl, rfl, fun _ _ _ => ⟨rfl, rfl⟩, fun _ _ _ => rfl⟩

variable {bt : Fin x.batchSize × Fin x.draftTokenNum} {s s' t t' : Buffers} {c : Nat}

theorem Agree.trans {u : Buffers} (h1 : Agree x bt s t) (h2 : Agree x bt t u) : Agree x bt s u where
  mask := fun j hj => (h1.mask j hj).trans (h2.mask j hj)
  position := h1.position.trans h2.position
  links := fun h0 i hi => ⟨(h1.links h0 i hi).1.trans (h2.links h0 i hi).1, (h1.links h0 i hi).2.trans (h2.links h0 i hi).2⟩
  index := fun h0 i hi => (h1.index h0 i hi).trans (h2.index h0 i hi)

theorem Local.frame {cu : Fin x.batchSize × Fin x.draftTokenNum} (hne : cu ≠ bt) (h : Local x cu.1 cu.2 S s s') :
    Agree x bt s' s := by
  have hne' : ¬ (cu.1.val = bt.1.val ∧ cu.2.val = bt.2.val) := fun e => hne (Prod.ext (Fin.ext e.1) (Fin.ext e.2))
  have hrow : cu.1.val ≠ bt.1.val → ∀ i < x.draftTokenNum, ∀ j < x.draftTokenNum,
      (bt.1 * x.draftTokenNum + i : Int) ≠ cu.1 * x.draftTokenNum + j :=
    fun hb i hi j hj e => hb (flat_inj hi hj e).1.symm
  refine ⟨fun j hj => h.maskRest _ fun i hi e => ?_, h.positionsRest _ fun e => ?_, fun h0 i hi => ?_, fun h0 i hi => ?_⟩
  · have hcell : maskRow x bt.1 bt.2 + j = maskRow x cu.1 cu.2 + (lead x cu.1 + i) := by omega
    obtain ⟨h1, h2, -⟩ := maskRow_inj bt.2.isLt cu.2.isLt hj (by omega) hcell
    exact hne' ⟨h1.symm, h2.symm⟩
  · obtain ⟨h1, h2⟩ := flat_inj bt.2.isLt cu.2.isLt e
    exact hne' ⟨h1.symm, h2.symm⟩
  · by_cases hb : cu.1.val = bt.1.val
    · have hl := h.links
      rw [if_neg (by omega), hb] at hl
      rw [hl]
      exact ⟨rfl, rfl⟩
    · exact ⟨h.outside.next _ (hrow hb i hi), h.outside.sib _ (hrow hb i hi)⟩
  · by_cases hb : cu.1.val = bt.1.val
    · rw [h.indexRest (by omega)]
    · exact h.outside.index _ (hrow hb i hi)

theorem Local.congr_links (hst : Agree x bt s t) (hs : Local x bt.1 bt.2 S s s') (ht : Local x bt.1 bt.2 S t t')
    (h0 : bt.2.val = 0) :
    Same x.draftTokenNum (BuildTree.links x bt.1 s') (BuildTree.links x bt.1 t') := by
  rw [hs.links, ht.links, if_pos h0, if_pos h0]
  exact (hst.links h0).pushDown S.nodeParent_lt _ (by have := bt.2.isLt; omega)

theorem Written.congr (hst : Agree x bt s t) (hs : Written x bt.1 bt.2 S s s') (ht : Written x bt.1 bt.2 S t t') :
    Agree x bt s' t' := by
  obtain ⟨p, hp, hpt, hps, hpm⟩ := hs.path
  obtain ⟨q, hq, hqt, hqs, hqm⟩ := ht.path
  obtain rfl := S.tree.rootPath_unique hp hq hpt hqt
  refine ⟨fun j hj => ?_, hps.trans hqs.symm, hs.toLocal.congr_links hst ht.toLocal, fun h0 i hi => ?_⟩
  · by_cases hlt : j < lead x bt.1
    · -- the lead columns are nobody's: both runs leave them
      have hne : ∀ i < x.draftTokenNum, ((maskRow x bt.1 bt.2 + j : Nat) : Int) ≠
        (maskRow x bt.1 bt.2 + lead x bt.1 + i : Nat) := by
        intro i _
        omega
      rw [hs.maskRest _ hne, ht.maskRest _ hne]
      exact hst.mask j hj
    · have e : maskRow x bt.1 bt.2 + j = maskRow x bt.1 bt.2 + lead x bt.1 + (j - lead x bt.1) := by omega
      rw [e, hpm _ (by omega), hqm _ (by omega)]
  · rw [hs.index h0 i hi, ht.index h0 i hi]

/-! ## One node of the fallback -/

section
variable (h : Holds x bid S)
include h

/-- The fallback's checked accesses are in range, so it computes what the kernel does. -/
theorem nativeParentPosition_eq (h0 : 0 < c) (hc : c < x.draftTokenNum) :
    nativeParentPosition x bid c = some (S.nodeParent c) := by
  obtain ⟨f, hget, hmem⟩ := S.exists_selected h0 hc
  simp only [nativeParentPosition, nativeSelectedAt, if_pos (show c - 1 < x.draftTokenNum - 1 by omega), selectedAt_ediv h hget,
    Selection.nodeParent, hget, bind_eq_bind, bind_some]
  by_cases hk : f < x.topk
  · simp [div_eq_of_lt hk, hk]
  have hpos := Nat.div_pos (Nat.le_of_not_lt hk) h.topk_pos
  rw [if_pos (by exact_mod_cast hpos), (scan_parent h hmem (Nat.le_of_not_lt hk)).2]
  simp [hk]

theorem nativeLinkNode_eq (h0 : 0 < c) (hc : c < x.draftTokenNum) (s : Buffers) :
    nativeLinkNode x bid c s = some { linkNode x bid c s with retriveIndex := s.retriveIndex } := by
  have hlt := S.nodeParent_lt c h0 hc
  simp only [nativeLinkNode, linkNode, nativeParentPosition_eq h h0 hc, parentPosition_eq h h0 hc, bind_eq_bind, bind_some]
  simp [show ¬ S.nodeParent c = x.draftTokenNum by omega, ite_not]

theorem nativeLinkNodes_spec {i : Nat} (hi : i < x.draftTokenNum) (s : Buffers) :
    ∃ s', nativeLinkNodes x bid i s = some s' ∧ s'.treeMask = s.treeMask ∧ s'.positions = s.positions ∧
      s'.retriveIndex = s.retriveIndex ∧ links x bid s' = (links x bid s).pushDown S.nodeParent i ∧ SameOutside x bid s' s := by
  induction i generalizing s with
  | zero => exact ⟨s, rfl, rfl, rfl, rfl, rfl, fun _ _ => rfl, fun _ _ => rfl, fun _ _ => rfl⟩
  | succ i ih =>
    obtain ⟨s', hs', hm, hp, hx, hl, ho⟩ := ih (by omega) { linkNode x bid (i + 1) s with retriveIndex := s.retriveIndex }
    obtain ⟨hm', hp', -⟩ := linkNode_rest (x := x) bid (i + 1) s
    have ho' := linkNode_outside h (succ_pos i) hi s
    refine ⟨s', ?_, hm.trans hm', hp.trans hp', hx, ?_, ho.trans ⟨fun _ _ => rfl, ho'.next, ho'.sib⟩⟩
    · simp [nativeLinkNodes, nativeLinkNode_eq h (succ_pos i) hi, hs']
    · rw [hl, pushDown, ← linkNode_links h (succ_pos i) hi s]
      rfl

theorem nativeClimb_eq (idx : Int) (fuel position : Nat) (mask : Int → Bool) (h0 : 0 < c) (hc : c < x.draftTokenNum) :
    nativeClimb x bid fuel position (c - 1) = (climb x bid idx fuel position (c - 1) mask).map (·.1) := by
  induction fuel generalizing c position mask with
  | zero => rfl
  | succ fuel ih =>
    obtain ⟨f, hget, hmem⟩ := S.exists_selected h0 hc
    simp only [nativeClimb, climb, nativeSelectedAt, if_pos (show c - 1 < x.draftTokenNum - 1 by omega), selectedAt_tdiv h hget,
      selectedAt_ediv h hget, bind_eq_bind, bind_some]
    by_cases hk : f < x.topk
    · rw [if_pos (by exact_mod_cast div_eq_of_lt hk), if_pos (by exact_mod_cast div_eq_of_lt hk)]
      rfl
    have hk' := Nat.le_of_not_lt hk
    have hdiv := pos_iff_ne_zero.mp (div_pos hk' h.topk_pos)
    have hlt := S.idxOf_parent_lt hget hk'
    obtain ⟨hscan, hnative⟩ := scan_parent h hmem hk'
    rw [if_neg (by exact_mod_cast hdiv), if_neg (by exact_mod_cast hdiv), hnative, hscan]
    exact ih (position + 1) _ (succ_pos (S.sel.idxOf (S.parent f))) (by omega)

end

/-- What one iteration of the fallback's loops leaves. -/
structure NativeWritten (x : Inputs) (b t : Nat) (S : Selection x.topk x.draftTokenNum) (s s' : Buffers) : Prop
    extends Local x b t S s s' where
  mask : s'.treeMask = s.treeMask
  index : s'.retriveIndex = s.retriveIndex
  path : ∃ path, S.tree.RootPath path ∧ path.getLast? = some t ∧
    s'.positions (b * x.draftTokenNum + t) = s.positions (b * x.draftTokenNum + t) + (path.length - 1 : Int)

theorem nativeNode_written {b t : Nat} (h : Holds x b S) (ht : t < x.draftTokenNum) (hf : x.draftTokenNum ≤ fuel)
    (s : Buffers) : ∃ s', nativeNode x fuel b t s = some s' ∧ NativeWritten x b t S s s' := by
  by_cases h0 : t = 0
  · subst h0
    obtain ⟨s', hs', hm, hp, hx, hl, ho⟩ := nativeLinkNodes_spec h (show x.draftTokenNum - 1 < _ by omega) s
    refine ⟨s', by rw [nativeNode, if_pos rfl, hs'], ⟨fun c _ => by rw [hm], fun c _ => by rw [hp], by rw [if_pos rfl, hl],
      fun hne => absurd rfl hne, ho⟩, hm, hx, ⟨[0], ⟨isChain_singleton 0, rfl⟩, rfl, by rw [hp]; simp⟩⟩
  obtain ⟨l, hroot, hlast, hclimb⟩ := climb_eq h 0 0 (fun _ => false) (by omega) ht (show t ≤ fuel by omega)
  have hnat := nativeClimb_eq h 0 fuel 0 (fun _ => false) (by omega) ht
  rw [hclimb] at hnat
  rw [nativeNode, if_neg h0, hnat]
  refine ⟨_, rfl, ⟨fun _ _ => rfl, fun c hc => upd_ne _ _ hc, by rw [if_neg h0]; rfl,
    fun _ => rfl, ⟨fun _ _ => rfl, fun _ _ => rfl, fun _ _ => rfl⟩⟩, rfl, rfl, ⟨0 :: l, hroot, ?_, ?_⟩⟩
  · rw [getLast?_cons, hlast]; rfl
  · simp only [upd_same, length_cons]; push_cast; ring

theorem NativeWritten.congr (hst : Agree x bt s t)
    (hs : NativeWritten x bt.1 bt.2 S s s') (ht : NativeWritten x bt.1 bt.2 S t t') : Agree x bt s' t' := by
  obtain ⟨p, hp, hpt, hps⟩ := hs.path
  obtain ⟨q, hq, hqt, hqs⟩ := ht.path
  obtain rfl := S.tree.rootPath_unique hp hq hpt hqt
  refine ⟨fun j hj => ?_, by rw [hps, hqs, hst.position], hs.toLocal.congr_links hst ht.toLocal, fun h0 i hi => ?_⟩
  · rw [hs.mask, ht.mask]; exact hst.mask j hj
  · rw [hs.index, ht.index]; exact hst.index h0 i hi

/-! ## The whole batch -/

/-- The links, indices and positions of request `b` are those of `T`. -/
structure Built (x : Inputs) (b : Nat) (T : OrderedTree x.draftTokenNum) (s : Buffers) : Prop where
  encodes : Encodes T (links x b s).next (links x b s).sib
  index : ∀ i < x.draftTokenNum, s.retriveIndex (b * x.draftTokenNum + i) = b * x.draftTokenNum + (i : Int)
  positions : ∀ i < x.draftTokenNum, ∀ path, T.RootPath path → path.getLast? = some i →
    s.positions (b * x.draftTokenNum + i) = x.verifiedSeqLen b + (path.length - 1 : Int)

/-- In the draft block of request `b`, entry `(i, j)` is set when `j` is on the path to `i`. -/
def BlockMasked (x : Inputs) (b : Nat) (T : OrderedTree x.draftTokenNum) (s : Buffers) : Prop :=
  ∀ i < x.draftTokenNum, ∀ path, T.RootPath path → path.getLast? = some i →
    ∀ j < x.draftTokenNum, s.treeMask (maskRow x b i + lead x b + j : Nat) = decide (j ∈ path)

/-- Row `i` of the request's mask: the lead columns, and the nodes on the path to `i`. -/
structure Masked (x : Inputs) (b : Nat) (T : OrderedTree x.draftTokenNum) (s : Buffers) : Prop where
  lead : ∀ i < x.draftTokenNum, ∀ j < lead x b, s.treeMask (maskRow x b i + j : Nat) = true
  tree : BlockMasked x b T s

/-- The lead columns of the mask are as they were. -/
def KeepsLead (x : Inputs) (s0 s : Buffers) : Prop :=
  ∀ (b : Fin x.batchSize) (i : Fin x.draftTokenNum), ∀ j < lead x b,
    s.treeMask (maskRow x b i + j : Nat) = s0.treeMask (maskRow x b i + j : Nat)

/-- The buffers as `build_tree_kernel_efficient` allocates them. -/
structure Fresh (s : Buffers) : Prop where
  mask : ∀ c, s.treeMask c = true
  next : ∀ c, s.retriveNextToken c = -1
  sib : ∀ c, s.retriveNextSibling c = -1

theorem Local.encodes {b : Fin x.batchSize} {i : Fin x.draftTokenNum} (h : Local x b i S s t) (ha : Agree x (b, i) s' t)
    (hi : i.1 = 0) (hnext : ∀ c, s.retriveNextToken c = -1) (hsib : ∀ c, s.retriveNextSibling c = -1) :
    Encodes S.tree (BuildTree.links x b s').next (BuildTree.links x b s').sib := by
  have hlinks := h.links
  rw [if_pos hi] at hlinks
  refine (pushDown_encodes (s := BuildTree.links x b s) S.nodeParent_lt (fun _ _ => hnext _) fun _ _ => hsib _).congr
    (fun j hj => ?_) fun j hj => ?_
  · rw [(ha.links hi j hj).1, hlinks]
  · rw [(ha.links hi j hj).2, hlinks]

theorem mem_nodes (bt : Fin x.batchSize × Fin x.draftTokenNum) : bt ∈ nodes x := by
  simp only [nodes, List.mem_flatMap, List.mem_finRange, List.mem_map, true_and]
  exact ⟨bt.1, bt.2, rfl⟩

theorem nodes_nodup (x : Inputs) : (nodes x).Nodup :=
  (nodup_finRange x.batchSize).product (nodup_finRange x.draftTokenNum)

variable {n : Nat} (T : OrderedTree n) {path : List Nat}

/-- The path to the root, and to a child of the root. -/
theorem rootPath_root (hp : T.RootPath path) (h : path.getLast? = some 0) : path = [0] :=
  T.rootPath_unique hp ⟨isChain_singleton 0, rfl⟩ h rfl

theorem rootPath_child (hc : c ∈ T.kids 0) (hp : T.RootPath path) (h : path.getLast? = some c) : path = [0, c] :=
  T.rootPath_unique hp ⟨isChain_cons_cons.mpr ⟨hc, isChain_singleton c⟩, rfl⟩ h rfl

/-- The shortcut: with two nodes the only tree is the chain. -/
theorem shortcut_built (S : Selection x.topk x.draftTokenNum) (hn : x.draftTokenNum = 2)
    (hfresh : Fresh s0) (b : Nat) (hpos : s.positions = fun c : Int => x.verifiedSeqLen (c / 2).toNat + c % 2)
    (hindex : s.retriveIndex = id) (hnext : s.retriveNextToken = fun c => if c % 2 = 0 then 1 else -1)
    (hsib : s.retriveNextSibling = s0.retriveNextSibling) : Built x b S.tree s := by
  have hpar : S.nodeParent 1 = 0 := by have := S.nodeParent_lt 1 one_pos (by omega); omega
  have hkid : 1 ∈ S.tree.kids 0 := S.mem_tree.mpr ⟨one_pos, by omega, hpar⟩
  refine ⟨?_, fun i _ => by rw [hindex]; rfl, fun i hi path hp hlast => ?_⟩
  · have henc := pushDown_encodes (s := links x b s0) S.nodeParent_lt (fun _ _ => hfresh.next _) (fun _ _ => hfresh.sib _)
    rw [show x.draftTokenNum - 1 = 0 + 1 by omega, pushDown, pushDown, hpar] at henc
    refine henc.congr (fun i hi => ?_) (fun i hi => ?_)
    · have hn' : (x.draftTokenNum : Int) = 2 := by exact_mod_cast hn
      simp only [links, push, hnext, hn']
      obtain rfl | rfl : i = 0 ∨ i = 1 := by omega
      · rw [upd_same, if_pos (by omega)]; rfl
      · rw [upd_ne _ _ (by omega), hfresh.next, if_neg (by omega)]
    · simp [links, push, hfresh.next, hsib]
  rw [hpos, hn]
  have hb : ((b * 2 + i : Int) / 2).toNat = b := by omega
  obtain rfl | rfl : i = 0 ∨ i = 1 := by omega
  · rw [rootPath_root _ hp hlast]
    simp only [cast_ofNat, hb, length_singleton]
    omega
  · rw [rootPath_child _ hkid hp hlast]
    simp only [cast_ofNat, hb, length_cons, length_nil]
    omega

end

section
variable {x : Inputs} (S : Fin x.batchSize → Selection x.topk x.draftTokenNum) (hold : ∀ b : Fin x.batchSize, Holds x b (S b))
include hold

variable {order : List (Fin x.batchSize × Fin x.draftTokenNum)}

omit hold in
/-- Steps that write their own node's cells, and there only what those cells determine:
    run in any order, each node ends with what its step leaves alone. -/
theorem launch_rows {f : Fin x.batchSize × Fin x.draftTokenNum → Buffers → Option Buffers}
    {W : Fin x.batchSize × Fin x.draftTokenNum → Buffers → Buffers → Prop} (hstep : ∀ bt s, ∃ s', f bt s = some s' ∧ W bt s s')
    (hlocal : ∀ {bt s s'}, W bt s s' → Local x bt.1 bt.2 (S bt.1) s s')
    (hcongr : ∀ {bt s t s' t'}, Agree x bt s t → W bt s s' → W bt t t' → Agree x bt s' t') (horder : order.Perm (nodes x))
    (s0 : Buffers) :
    ∃ s, launch f order s0 = some s ∧ ∀ bt, ∃ t, W bt s0 t ∧ Agree x bt s t := by
  have hind : Independent f (Agree x) := by
    refine ⟨Agree.refl, fun _ _ _ _ => Agree.trans, fun bt cu s s' hne hs => ?_, fun bt s t t' hst ht => ?_⟩
    · obtain ⟨s1, h1, hw⟩ := hstep cu s
      rw [h1, some.injEq] at hs
      exact hs ▸ (hlocal hw).frame hne
    · obtain ⟨s1, h1, hs⟩ := hstep bt s
      obtain ⟨t1, h2, ht'⟩ := hstep bt t
      rw [h2, some.injEq] at ht
      exact ⟨s1, h1, ht ▸ hcongr hst hs ht'⟩
  obtain ⟨s, hs, hown⟩ := launch_own hind order s0 s0 (horder.nodup_iff.mpr (nodes_nodup x)) (fun bt _ => hind.refl bt s0)
    (fun bt _ => by obtain ⟨t, ht, -⟩ := hstep bt s0; exact ⟨t, ht⟩)
  refine ⟨s, hs, fun bt => ?_⟩
  obtain ⟨t, ht, hw⟩ := hstep bt s0
  exact ⟨t, hw, hown bt (horder.mem_iff.mpr (mem_nodes bt)) t ht⟩

theorem buildTreeEfficient_spec (hf : x.draftTokenNum ≤ fuel) (horder : order.Perm (nodes x)) (s0 : Buffers) :
    ∃ s, buildTreeEfficient x fuel order s0 = some s ∧ KeepsLead x s0 s ∧ ∀ b : Fin x.batchSize, BlockMasked x b (S b).tree s ∧
      (Fresh s0 → Built x b (S b).tree s) := by
  obtain ⟨s, hs, hrow⟩ := launch_rows S (fun bt s => thread_written (hold bt.1) bt.2.isLt hf s) (fun hw => hw.toLocal)
    (fun hst hs ht => hs.congr hst ht) horder s0
  refine ⟨s, hs, fun b i j hj => ?_, fun b => ⟨fun i hi path hp hlast j hj => ?_, fun hfresh => ?_⟩⟩
  · obtain ⟨u, hu, hau⟩ := hrow (b, i)
    refine (hau.mask j (by simp only; omega)).trans (hu.maskRest _ fun k _ => ?_)
    simp only
    omega
  · obtain ⟨u, hu, hau⟩ := hrow (b, ⟨i, hi⟩)
    obtain ⟨q, hq, hqi, -, hmask⟩ := hu.path
    rw [(S b).tree.rootPath_unique hp hq hlast hqi, ← hmask j hj, add_assoc]
    exact hau.mask (lead x b + j) (by simp only; omega)
  -- thread 0 for the links, thread `i` for row `i`
  obtain ⟨t, hw, ha⟩ := hrow (b, ⟨0, by have := (S b).length; omega⟩)
  refine ⟨hw.encodes ha rfl hfresh.next hfresh.sib, fun i hi => (ha.index rfl i hi).trans (hw.index rfl i hi),
    fun i hi path hp hlast => ?_⟩
  obtain ⟨u, hu, hau⟩ := hrow (b, ⟨i, hi⟩)
  obtain ⟨q, hq, hqi, hpos, -⟩ := hu.path
  rw [(S b).tree.rootPath_unique hp hq hlast hqi]
  exact hau.position.trans hpos

/-- The buffers before the fallback's loops. -/
def nativeStart (x : Inputs) (s : Buffers) : Buffers :=
  { s with
    treeMask := nativeMask x s.treeMask
    positions := fun c => x.verifiedSeqLen (c / x.draftTokenNum).toNat
    retriveIndex := id }

theorem buildTreeEfficientNative_rows (hf : x.draftTokenNum ≤ fuel) (s0 : Buffers)
    (hsc : ¬(x.draftTokenNum = 2 ∧ x.topk = 1 ∧ x.treeMaskMode = .fullMask)) : ∃ s, buildTreeEfficientNative x fuel s0 = some s ∧
      ∀ bt, ∃ t, NativeWritten x bt.1 bt.2 (S bt.1) (nativeStart x s0) t ∧ Agree x bt s t := by
  rw [buildTreeEfficientNative, if_neg hsc]
  exact launch_rows S (fun bt s => nativeNode_written (hold bt.1) bt.2.isLt hf s) (fun hw => hw.toLocal)
    (fun hst hs ht => hs.congr hst ht) (List.Perm.refl _) (nativeStart x s0)

theorem buildTreeEfficientNative_built (hf : x.draftTokenNum ≤ fuel) (hn : 0 < x.draftTokenNum) (hfresh : Fresh s0) :
    ∃ s, buildTreeEfficientNative x fuel s0 = some s ∧ ∀ b : Fin x.batchSize, Built x b (S b).tree s := by
  by_cases hsc : x.draftTokenNum = 2 ∧ x.topk = 1 ∧ x.treeMaskMode = .fullMask
  · rw [buildTreeEfficientNative, if_pos hsc]
    exact ⟨_, rfl, fun b => shortcut_built (S b) hsc.1 hfresh b rfl rfl rfl rfl⟩
  obtain ⟨s, hs, hrow⟩ := buildTreeEfficientNative_rows S hold hf s0 hsc
  refine ⟨s, hs, fun b => ?_⟩
  obtain ⟨t, hw, ha⟩ := hrow (b, ⟨0, hn⟩)
  refine ⟨hw.encodes ha rfl hfresh.next hfresh.sib, fun i hi => ?_, fun i hi path hp hlast => ?_⟩
  · rw [ha.index rfl i hi, hw.index]; rfl
  obtain ⟨v, hv, hav⟩ := hrow (b, ⟨i, hi⟩)
  obtain ⟨q, hq, hqi, hpos⟩ := hv.path
  rw [(S b).tree.rootPath_unique hp hq hlast hqi, hav.position, hpos]
  simp only [nativeStart]
  congr 3
  rw [Int.add_comm, Int.add_mul_ediv_right _ _ (by omega), Int.ediv_eq_zero_of_lt (by omega) (by omega)]
  omega

end

/-! ## The two masks -/

/-- The masks agree on the cells of the tensor. -/
def SameMask (x : Inputs) (s t : Buffers) : Prop :=
  ∀ (b : Fin x.batchSize) (i : Fin x.draftTokenNum), ∀ j < lead x b + x.draftTokenNum,
    t.treeMask (maskRow x b i + j : Nat) = s.treeMask (maskRow x b i + j : Nat)

/-- The fallback's second assignment to a draft block covers its first: the block is all
    true, and the lead columns are untouched. -/
theorem nativeMask_row {x : Inputs} (mask : Int → Bool) (b : Fin x.batchSize) (i : Fin x.draftTokenNum) :
    (∀ j < lead x b, nativeMask x mask (maskRow x b i + j : Nat) = mask (maskRow x b i + j : Nat)) ∧
      ∀ j < x.draftTokenNum, nativeMask x mask (maskRow x b i + lead x b + j : Nat) = true := by
  have hidx : ∀ c : Int, c ∈ tokenTreeIndices x ↔ ∃ (b : Fin x.batchSize) (i : Fin x.draftTokenNum),
      (maskRow x b i + lead x b + 1 : Nat) = c := by
    intro c
    simp only [tokenTreeIndices, List.mem_map, tokenTreeIdx_eq]
    exact ⟨fun ⟨bt, _, e⟩ => ⟨bt.1, bt.2, e⟩, fun ⟨b, i, e⟩ => ⟨(b, i), mem_nodes _, e⟩⟩
  unfold nativeMask setCells
  constructor
  · intro j hj
    -- a cell of a draft block is no lead column
    have hne : ∀ (b' : Fin x.batchSize) (i' : Fin x.draftTokenNum), ∀ k < x.draftTokenNum,
        (maskRow x b' i' + lead x b' + k : Nat) ≠ maskRow x b i + j := by
      intro b' i' k hk e
      rw [add_assoc] at e
      obtain ⟨hb, -, hj'⟩ := maskRow_inj i'.isLt i.isLt (by omega) (by omega) e
      rw [hb] at hj'
      omega
    have hrest : ((maskRow x b i + j : Nat) : Int) ∉ (tokenTreeIndices x).flatMap
        fun idx : Int => (range (x.draftTokenNum - 1)).map fun i : Nat => idx + (i : Int) := by
      simp only [List.mem_flatMap, List.mem_map, List.mem_range, hidx]
      rintro ⟨c, ⟨b', i', rfl⟩, k, hk, e⟩
      exact hne b' i' (k + 1) (by omega) (by omega)
    rw [if_neg hrest, if_neg hrest, if_neg]
    simp only [List.mem_map, hidx]
    rintro ⟨c, ⟨b', i', rfl⟩, e⟩
    exact hne b' i' 0 i'.pos (by omega)
  · intro j hj
    rcases Nat.eq_zero_or_pos j with rfl | h0
    · have hhead : ((maskRow x b i + lead x b + 0 : Nat) : Int) ∈ (tokenTreeIndices x).map (· - 1) :=
        List.mem_map.mpr ⟨_, (hidx _).mpr ⟨b, i, rfl⟩, by omega⟩
      rw [if_pos hhead]
      split_ifs <;> rfl
    · refine if_pos (List.mem_flatMap.mpr ⟨_, (hidx _).mpr ⟨b, i, rfl⟩, List.mem_map.mpr ⟨j - 1, ?_, by omega⟩⟩)
      exact List.mem_range.mpr (by omega)

section
variable {x : Inputs} {s t s0 : Buffers} {b : Fin x.batchSize} {i j fuel : Nat}

/-- Masks with the same lead columns are compared on the draft blocks. -/
theorem sameMask_iff (hs : KeepsLead x s0 s) (ht : KeepsLead x s0 t) :
    SameMask x s t ↔ ∀ (b : Fin x.batchSize) (i : Fin x.draftTokenNum), ∀ j < x.draftTokenNum,
      t.treeMask (maskRow x b i + lead x b + j : Nat) = s.treeMask (maskRow x b i + lead x b + j : Nat) := by
  refine ⟨fun h b i j hj => ?_, fun h b i j hj => ?_⟩
  · rw [add_assoc]
    exact h b i _ (by omega)
  · rcases lt_or_ge j (lead x b) with hj' | hj'
    · rw [ht b i j hj', hs b i j hj']
    · have := h b i (j - lead x b) (by omega)
      rwa [show maskRow x b i + lead x b + (j - lead x b) = maskRow x b i + j by omega] at this

variable {S : Selection x.topk x.draftTokenNum} (h : BlockMasked x b S.tree s)
include h

theorem BlockMasked.root (hj : j < x.draftTokenNum) : s.treeMask (maskRow x b 0 + lead x b + j : Nat) = decide (j = 0) := by
  rw [h 0 (by omega) [0] ⟨isChain_singleton 0, rfl⟩ rfl j hj]
  simp

theorem BlockMasked.two (hn : x.draftTokenNum = 2) (hi : i < 2) (hj : j < 2) :
    s.treeMask (maskRow x b i + lead x b + j : Nat) = decide (j ≤ i) := by
  obtain rfl | rfl : i = 0 ∨ i = 1 := by omega
  · rw [h.root (by omega)]
    simp
  · have hpar := S.nodeParent_lt 1 one_pos (by omega)
    have hkid : 1 ∈ S.tree.kids 0 := S.mem_tree.mpr ⟨one_pos, by omega, by omega⟩
    rw [h 1 (by omega) [0, 1] ⟨isChain_cons_cons.mpr ⟨hkid, isChain_singleton 1⟩, rfl⟩ rfl j (by omega)]
    obtain rfl | rfl : j = 0 ∨ j = 1 := by omega
    · rfl
    · rfl

end

/-- The fallback's mask, but for the shortcut. -/
theorem buildTreeEfficientNative_mask {x : Inputs} {S : Fin x.batchSize → Selection x.topk x.draftTokenNum}
    (hold : ∀ b : Fin x.batchSize, Holds x b (S b)) (hf : x.draftTokenNum ≤ fuel) (s0 : Buffers)
    (hsc : ¬(x.draftTokenNum = 2 ∧ x.topk = 1 ∧ x.treeMaskMode = .fullMask)) :
    ∃ t, buildTreeEfficientNative x fuel s0 = some t ∧ KeepsLead x s0 t ∧ ∀ (b : Fin x.batchSize) (i : Fin x.draftTokenNum),
      ∀ j < x.draftTokenNum, t.treeMask (maskRow x b i + lead x b + j : Nat) = true := by
  obtain ⟨t, ht, hnat⟩ := buildTreeEfficientNative_rows S hold hf s0 hsc
  have hcell : ∀ (b : Fin x.batchSize) (i : Fin x.draftTokenNum), ∀ j < lead x b + x.draftTokenNum,
      t.treeMask (maskRow x b i + j : Nat) = nativeMask x s0.treeMask (maskRow x b i + j : Nat) := by
    intro b i j hj
    obtain ⟨u, hu, hau⟩ := hnat (b, i)
    rw [hau.mask j hj, hu.mask]
    rfl
  refine ⟨t, ht, fun b i j hj => ?_, fun b i j hj => ?_⟩
  · exact (hcell b i j (by omega)).trans ((nativeMask_row s0.treeMask b i).1 j hj)
  · rw [add_assoc, hcell b i _ (by omega), ← add_assoc]
    exact (nativeMask_row s0.treeMask b i).2 j hj

/-- The kernel's mask has the ancestors of each node, in any order of the threads. The
    fallback's has the whole draft block, and in the shortcut what the tensor had before:
    the two agree only on trees of one node, or if the shortcut was given the chain's mask. -/
theorem nativeMask_eq_kernelMask_iff (x : Inputs) (S : Fin x.batchSize → Selection x.topk x.draftTokenNum)
    (hold : ∀ b : Fin x.batchSize, Holds x b (S b)) (order : List (Fin x.batchSize × Fin x.draftTokenNum))
    (horder : order.Perm (nodes x)) (s0 : Buffers) (fuel : Nat) (hf : x.draftTokenNum ≤ fuel) :
    ∃ s t, buildTreeEfficient x fuel order s0 = some s ∧ buildTreeEfficientNative x fuel s0 = some t ∧
      (∀ b : Fin x.batchSize, BlockMasked x b (S b).tree s) ∧
      (SameMask x s t ↔ x.batchSize = 0 ∨ x.draftTokenNum = 1 ∨ (x.draftTokenNum = 2 ∧ x.topk = 1 ∧ x.treeMaskMode = .fullMask) ∧
          ∀ (b : Fin x.batchSize) (i j : Nat), i < 2 → j < 2 → s0.treeMask (maskRow x b i + lead x b + j : Nat) =
          decide (j ≤ i)) := by
  obtain ⟨s, hs, hlead, hspec⟩ := buildTreeEfficient_spec S hold hf horder s0
  have hblock := fun b => (hspec b).1
  by_cases hsc : x.draftTokenNum = 2 ∧ x.topk = 1 ∧ x.treeMaskMode = .fullMask
  · obtain ⟨t, ht, hmask⟩ : ∃ t, buildTreeEfficientNative x fuel s0 = some t ∧ t.treeMask = s0.treeMask := by
      rw [buildTreeEfficientNative, if_pos hsc]
      exact ⟨_, rfl, rfl⟩
    refine ⟨s, t, hs, ht, hblock, (sameMask_iff hlead fun _ _ _ _ => by rw [hmask]).trans ?_⟩
    simp only [hmask]
    refine ⟨fun h => .inr (.inr ⟨hsc, fun b i j hi hj => ?_⟩), ?_⟩
    · exact (h b ⟨i, by omega⟩ j (by omega)).trans ((hblock b).two hsc.1 hi hj)
    · rintro (h | h | ⟨-, h⟩) b i j hj
      · exact absurd b.isLt (by omega)
      · exact absurd hsc.1 (by omega)
      · exact (h b i j (by omega) (by omega)).trans ((hblock b).two hsc.1 (by omega) (by omega)).symm
  obtain ⟨t, ht, hleadt, htrue⟩ := buildTreeEfficientNative_mask hold hf s0 hsc
  refine ⟨s, t, hs, ht, hblock, (sameMask_iff hlead hleadt).trans ⟨fun h => ?_, ?_⟩⟩
  · rcases Nat.eq_zero_or_pos x.batchSize with h0 | h0
    · exact .inl h0
    refine .inr (.inl (by_contra fun h1 => ?_))
    have hn := (S ⟨0, h0⟩).length
    have := h ⟨0, h0⟩ ⟨0, by omega⟩ 1 (by omega)
    rw [htrue _ _ 1 (by omega), (hblock ⟨0, h0⟩).root (by omega)] at this
    cases this
  · rintro (h | h | h) b i j hj
    · exact absurd b.isLt (by omega)
    · obtain ⟨rfl, hi⟩ : j = 0 ∧ i.1 = 0 := by omega
      rw [htrue b i 0 hj, hi, (hblock b).root hj]
      rfl
    · exact absurd h.1 hsc

/-! One request with two children of the root. -/

def twoRoots : Inputs where
  batchSize := 1
  topk := 2
  depth := 1
  draftTokenNum := 3
  treeMaskMode := .fullMask
  parentList := fun _ => -1
  selectedIndex := id
  verifiedSeqLen := fun _ => 1

def twoRootsSelection : Selection 2 3 where
  sel := [0, 1]
  parent := id
  length := rfl
  sorted := by decide
  closed := by decide

theorem twoRoots_holds (b : Fin 1) : Holds twoRoots b twoRootsSelection where
  topk_pos := two_pos
  selected := by
    rintro (_ | _ | j) f hf
    · cases hf; simp [selectedAt, twoRoots]
    · cases hf; simp [selectedAt, twoRoots]
    · simp [twoRootsSelection] at hf
  parents := by decide +revert

def freshBuffers : Buffers := ⟨fun _ => true, fun _ => 0, fun _ => -1, fun _ => -1, fun _ => -1⟩

theorem nativeMask_eq_kernelMask_twoRoots : ∃ s t, buildTreeEfficient twoRoots 3 (nodes twoRoots) freshBuffers = some s ∧
      buildTreeEfficientNative twoRoots 3 freshBuffers = some t ∧ ¬SameMask twoRoots s t := by
  obtain ⟨s, t, hs, ht, -, h⟩ := nativeMask_eq_kernelMask_iff twoRoots (fun _ => twoRootsSelection) twoRoots_holds
    (nodes twoRoots) (List.Perm.refl _) freshBuffers 3 (by decide)
  refine ⟨s, t, hs, ht, fun hst => ?_⟩
  rcases h.mp hst with h | h | h
  · cases h
  · cases h
  · exact absurd h.1.1 (by decide)

/-- The root's row: the fallback lets the root attend to its child. -/
theorem native_root_attends_child :
    (buildTreeEfficient twoRoots 3 (nodes twoRoots) freshBuffers).map (fun s => [s.treeMask 1, s.treeMask 2, s.treeMask 3]) =
        some [true, false, false] ∧
      (buildTreeEfficientNative twoRoots 3 freshBuffers).map (fun s => [s.treeMask 1, s.treeMask 2, s.treeMask 3]) =
        some [true, true, true] := by
  decide

/-! ## The draft's tree -/

open DraftTree

section
variable {x : Inputs} {σ H : Type} [LinearOrder σ] [Mul σ] [Zero σ] [Inhabited H]

/-- The request's selected candidates. -/
def selectedOf (x : Inputs) (d : Draft σ H x.topk x.depth) : List Nat := (draftForward d x.draftTokenNum).topScoresIndex

/-- `T` has the selected candidates under the beam entries they were expanded from, the
    `j`-th of them as node `j + 1`, and siblings in increasing order. -/
structure IsDraftTree (x : Inputs) (d : Draft σ H x.topk x.depth) (T : OrderedTree x.draftTokenNum) : Prop where
  kids : ∀ p c : Nat, c ∈ T.kids p ↔ 0 < c ∧ c < x.draftTokenNum ∧ ∃ f, (selectedOf x d)[c - 1]? = some f ∧
    match candidateParent d f with
      | none => p = 0
      | some q => 0 < p ∧ (selectedOf x d)[p - 1]? = some q
  sorted : ∀ p, (T.kids p).Pairwise (· < ·)

/-- `parent_list` and `selected_index` are the rows that `organize_draft_results` returned. -/
structure Drafted (x : Inputs) (drafts : Fin x.batchSize → Draft σ H x.topk x.depth) : Prop where
  parents : ∀ (b : Fin x.batchSize) (j : Nat) (v : Int),
    (draftForward (drafts b) x.draftTokenNum).parentList[j]? = some v → parentAt x b j = v
  selected : ∀ (b : Fin x.batchSize) (j f : Nat), (selectedOf x (drafts b))[j]? = some f → selectedAt x b j = f

/-- The selected set is closed under parents. -/
def Closed (x : Inputs) (d : Draft σ H x.topk x.depth) : Prop :=
  ∀ f ∈ selectedOf x d, ∀ q, candidateParent d f = some q → q ∈ selectedOf x d

variable (d : Draft σ H x.topk x.depth)

def selection (hclosed : Closed x d) (hn : 0 < x.draftTokenNum)
    (hlen : x.draftTokenNum - 1 ≤ firstCandidate x.topk x.depth) : Selection x.topk x.draftTokenNum where
  sel := selectedOf x d
  parent := fun f => (candidateParent d f).getD 0
  length := by rw [selectedOf, topScoresIndex_length d hlen]; omega
  sorted := topScoresIndex_sorted d _
  closed := by
    intro f hf hk
    obtain ⟨q, hq, hlt⟩ := candidateParent_lt d hk (topScoresIndex_lt d _ f hf)
    rw [hq]
    exact ⟨hclosed f hf q hq, hlt⟩

theorem selection_holds {drafts : Fin x.batchSize → Draft σ H x.topk x.depth} (h : Drafted x drafts) (b : Fin x.batchSize)
    (hclosed : Closed x (drafts b)) (hn : 0 < x.draftTokenNum) (hlen : x.draftTokenNum - 1 ≤ firstCandidate x.topk x.depth) :
    Holds x b (selection (drafts b) hclosed hn hlen) where
  topk_pos := (drafts b).topk_pos
  selected := h.selected b
  parents := by
    intro f hf hk
    have hlt := topScoresIndex_lt (drafts b) _ f hf
    obtain ⟨q, hq, -⟩ := candidateParent_lt (drafts b) hk hlt
    have hlook := parentList_lookup (drafts b) x.draftTokenNum hk hlt
    rw [hq] at hlook
    rw [h.parents b _ _ hlook]
    simp [selection, hq]

theorem selection_isDraftTree (hclosed : Closed x d) (hn : 0 < x.draftTokenNum)
    (hlen : x.draftTokenNum - 1 ≤ firstCandidate x.topk x.depth) : IsDraftTree x d (selection d hclosed hn hlen).tree := by
  refine ⟨fun p c => ?_, ofParent_sorted⟩
  rw [Selection.mem_tree]
  refine and_congr_right fun h0 => and_congr_right fun hc => ?_
  obtain ⟨f, hget, hmem⟩ := (selection d hclosed hn hlen).exists_selected h0 hc
  have hget' : (selectedOf x d)[c - 1]? = some f := hget
  simp only [Selection.nodeParent, hget, hget', some.injEq, exists_eq_left']
  by_cases hk : f < x.topk
  · simp [hk, candidateParent, eq_comm]
  obtain ⟨q, hq, -⟩ := candidateParent_lt d (Nat.le_of_not_lt hk) (topScoresIndex_lt d _ f hmem)
  have hqm := hclosed f hmem q hq
  have hidx := idxOf_lt_length_iff.mpr hqm
  simp only [hk, if_false, hq, selection, getD_some]
  constructor
  · rintro rfl
    exact ⟨Nat.succ_pos _, by rw [Nat.add_sub_cancel, getElem?_eq_getElem hidx, getElem_idxOf hidx]⟩
  · rintro ⟨hp, hget⟩
    obtain ⟨hlt, e⟩ := List.getElem?_eq_some_iff.mp hget
    have hnd : (selectedOf x d).Nodup := (topScoresIndex_sorted d _).imp ne_of_lt
    rw [← e, hnd.idxOf_getElem _ hlt]
    omega

/-- The draft tree is encoded faithfully, by the kernel in any order of its threads and by
    the fallback: on the selected candidates the links are those of the tree whose parents
    are the beam entries the candidates were expanded from, every node has one root path,
    positions count it, and the kernel's mask rows are the lead columns and that path. -/
theorem buildTree_faithful (x : Inputs) (drafts : Fin x.batchSize → Draft σ H x.topk x.depth) (hdraft : Drafted x drafts)
    (hn : 0 < x.draftTokenNum) (hlen : x.draftTokenNum - 1 ≤ firstCandidate x.topk x.depth)
    (hclosed : ∀ b, Closed x (drafts b)) (order : List (Fin x.batchSize × Fin x.draftTokenNum))
    (horder : order.Perm (nodes x)) (s0 : Buffers) (hfresh : Fresh s0) (fuel : Nat) (hf : x.draftTokenNum ≤ fuel) :
    ∃ s t, buildTreeEfficient x fuel order s0 = some s ∧ buildTreeEfficientNative x fuel s0 = some t ∧
      ∀ b : Fin x.batchSize, ∃ T, IsDraftTree x (drafts b) T ∧
      (∀ i < x.draftTokenNum, ∃! path, T.RootPath path ∧ path.getLast? = some i) ∧
        Built x b T s ∧ Masked x b T s ∧ Built x b T t := by
  have hold : ∀ b : Fin x.batchSize, Holds x b (selection (drafts b) (hclosed b) hn hlen) :=
    fun b => selection_holds hdraft b (hclosed b) hn hlen
  obtain ⟨s, hs, hlead, hspec⟩ := buildTreeEfficient_spec _ hold hf horder s0
  obtain ⟨t, ht, hnative⟩ := buildTreeEfficientNative_built _ hold hf hn hfresh
  refine ⟨s, t, hs, ht, fun b => ⟨_, selection_isDraftTree (drafts b) (hclosed b) hn hlen, fun i hi => ?_,
    (hspec b).2 hfresh, ⟨fun i hi j hj => (hlead b ⟨i, hi⟩ j hj).trans (hfresh.mask _), (hspec b).1⟩, hnative b⟩⟩
  obtain ⟨path, hp, hlast⟩ := exists_rootPath _ i hi
  exact ⟨path, ⟨hp, hlast⟩, fun q hq => rootPath_unique _ hq.1 hp hq.2 hlast⟩

/-- Selecting every candidate is closed under parents. -/
theorem closed_of_all (hall : x.draftTokenNum - 1 = firstCandidate x.topk x.depth) : Closed x d := by
  intro f hf q hq
  have hlt := topScoresIndex_lt d _ f hf
  have hqf := (lt_of_candidateParent hlt hq).2
  have hsub : selectedOf x d ⊆ range (firstCandidate x.topk x.depth) :=
    fun g hg => mem_range.mpr (topScoresIndex_lt d _ g hg)
  have hnd : (selectedOf x d).Nodup := (topScoresIndex_sorted d _).imp ne_of_lt
  have hlen : (range (firstCandidate x.topk x.depth)).length ≤ (selectedOf x d).length := by
    rw [length_range, selectedOf, topScoresIndex_length d hall.le, hall]
  exact ((subperm_of_subset hnd hsub).perm_of_length_le hlen).mem_iff.mpr (mem_range.mpr (hqf.trans hlt))

end

/-! A beam of two over two steps, with all six candidates selected. -/

def twoSteps : Draft Nat Unit 2 2 where
  fastTopk := TopK.stable
  torchTopk := TopK.stable
  first := ⟨[[2, 1]], [[10, 11]], [()]⟩
  forward := fun _ _ _ => ⟨[[2, 1], [2, 1]], [[20, 21], [22, 23]], [(), ()]⟩
  topk_pos := two_pos
  steps_pos := two_pos
  first_shaped := ⟨rfl, by simp, rfl, by simp⟩
  forward_shaped := fun _ _ _ => ⟨rfl, by simp, rfl, by simp⟩

def twoStepsInputs : Inputs where
  batchSize := 1
  topk := 2
  depth := 2
  draftTokenNum := 7
  treeMaskMode := .fullMask
  parentList := fun c => (draftForward twoSteps 7).parentList.getD c.toNat 0
  selectedIndex := fun c => (draftForward twoSteps 7).topScoresIndex.getD c.toNat 0
  verifiedSeqLen := fun _ => 5

theorem twoSteps_drafted : Drafted twoStepsInputs (fun _ => twoSteps) where
  parents := by
    intro b j v hv
    obtain rfl : b = ⟨0, one_pos⟩ := Fin.ext (lt_one_iff.mp b.isLt)
    have hv' : (draftForward twoSteps 7).parentList[j]? = some v := hv
    simp [parentAt, twoStepsInputs, getD_eq_getElem?_getD, hv']
  selected := by
    intro b j f hf
    obtain rfl : b = ⟨0, one_pos⟩ := Fin.ext (lt_one_iff.mp b.isLt)
    have hf' : (draftForward twoSteps 7).topScoresIndex[j]? = some f := hf
    simp [selectedAt, twoStepsInputs, getD_eq_getElem?_getD, hf']

theorem buildTree_faithful_twoSteps : ∃ s t, buildTreeEfficient twoStepsInputs 7 (nodes twoStepsInputs).reverse
        ⟨fun _ => true, fun _ => 0, fun _ => -1, fun _ => -1, fun _ => -1⟩ = some s ∧
      buildTreeEfficientNative twoStepsInputs 7 ⟨fun _ => true, fun _ => 0, fun _ => -1, fun _ => -1, fun _ => -1⟩ = some t ∧
      ∃ T, IsDraftTree twoStepsInputs twoSteps T ∧ Built twoStepsInputs 0 T s ∧ Masked twoStepsInputs 0 T s ∧
        Built twoStepsInputs 0 T t := by
  obtain ⟨s, t, hs, ht, h⟩ := buildTree_faithful twoStepsInputs (fun _ => twoSteps) twoSteps_drafted (by decide) (by decide)
    (fun _ => closed_of_all (x := twoStepsInputs) twoSteps (by decide)) (nodes twoStepsInputs).reverse (reverse_perm _)
    ⟨fun _ => true, fun _ => 0, fun _ => -1, fun _ => -1, fun _ => -1⟩ ⟨fun _ => rfl, fun _ => rfl, fun _ => rfl⟩ 7 (by decide)
  obtain ⟨T, hT, -, h1, h2, h3⟩ := h ⟨0, one_pos⟩
  exact ⟨s, t, hs, ht, T, hT, h1, h2, h3⟩

end DynaSpec.Speculative.BuildTree
