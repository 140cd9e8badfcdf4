/-
  DynaSpec.MemCache.SwaRadixOps — `insert` and `evict` keep the invariant of `SwaRadixCache`.

  The loops are walks down the tree (`insertHelper_spec`), up from a leaf that was taken out
  (`iterativelyDeleteTombstoneLeaf_spec`) and along the LRU lists (`evict_spec`). No assertion
  of theirs fails, and each ends within the turns it has.
-/

import DynaSpec.MemCache.SwaRadixLocks

namespace DynaSpec.MemCache.SwaRadix

open DynaSpec.Lib List SwaCache Bool LruList

variable {pageSize : Nat} {s s' : SwaCache} {live : Finset NodeId} {path : NodeId → List ChildKey} {held : List Lock}
  {spared : Option NodeId} {S : NodeId → Prop} {prefixLen : Nat} {swa : Bool}

/-! ## Uses of nodes -/

variable {n : NodeId} {x : ChildKey} {value : List Nat} {w : Evict} {l : LruList} {p : NodeId} {key : RadixKey}

/-- The nodes on the way up are moved within the list. -/
theorem resetNodeAndParentsMru_spec (w : Wf pageSize s live path) (hl : Lists l swa S)
    (hS : ∀ n ∈ live, n ≠ 0 → (swa = true → (s.node n).swaTombstone = false) → S n) (hn : n ∈ live) :
    ∃ l', l.resetNodeAndParentsMru s.node s.counter n = .ok l' ∧ Lists l' swa S := by
  obtain ⟨t, -, hrun, ⟨ht, -⟩, -⟩ := whileLoop_bound PyError.outOfFuel (fun t : Refresh => decide (t.node ≠ 0))
    (refreshStep s.node)
    (fun t k => (t.node ∈ live ∧ Lists t.list swa S) ∧ k = (above live path t.node).card)
    (by
      intro t k ht hgo
      obtain ⟨⟨hnode, hlist⟩, rfl⟩ := ht
      have hgo : t.node ≠ 0 := by simpa using hgo
      obtain ⟨p, x, hp, -, hp', -, -⟩ := w.up hnode hgo
      have hlt := w.above_parent hnode hgo hp'
      unfold refreshStep
      rw [hp']
      dsimp only
      by_cases hbars : t.list.bars s.node t.node = true
      · exact ⟨{ t with node := p }, _, if_pos hbars, ⟨⟨hp, hlist⟩, rfl⟩, hlt⟩
      rw [if_neg hbars]
      have hmem : t.node ∈ t.list.nodes := by
        refine (hlist.2.2 _).mpr (hS _ hnode hgo fun hs => ?_)
        simp only [bars, hlist.1, hs, Bool.true_and] at hbars
        simpa using hbars
      rw [if_neg (not_not.mpr hmem)]
      refine ⟨_, _, rfl, ⟨⟨hp, hlist.perm rfl ?_⟩, rfl⟩, hlt⟩
      exact (addNodeAfter_perm t.prevNode t.node _).trans (perm_cons_erase hmem).symm)
    s.counter ⟨l, none, n⟩ _ ⟨⟨hn, hl⟩, rfl⟩ (w.above_le n)
  refine ⟨t.list, ?_, ht.2⟩
  rw [resetNodeAndParentsMru, hrun]
  rfl

theorem Base.refreshLists (b : Base pageSize s live path none) (hn : n ∈ live) :
    ∃ s', s.refreshLists n = .ok s' ∧ Base pageSize s' live path none ∧ s'.node = s.node ∧
    s'.swaUuidCounter = s.swaUuidCounter := by
  obtain ⟨full', hfull, hfull'⟩ := resetNodeAndParentsMru_spec b.wf b.full (fun m hm h0 _ => ⟨hm, h0⟩) hn
  obtain ⟨swa', hswa, hswa'⟩ := resetNodeAndParentsMru_spec b.wf b.swa (fun m hm h0 ht => ⟨hm, h0, ht rfl⟩) hn
  refine ⟨{ s with fullLruList := full', swaLruList := swa' }, ?_, b.relist rfl rfl rfl hfull' hswa' ⟨rfl, rfl, rfl, rfl⟩,
    rfl, rfl⟩
  simp only [SwaCache.refreshLists, hfull, hswa, ok_bind]
  rfl

theorem Base.touchLists (b : Base pageSize s live path none) (hn : n ∈ live) (h0 : n ≠ 0) :
    ∃ s', s.touchLists n = .ok s' ∧ Base pageSize s' live path none ∧ s'.node = s.node ∧ s'.counter = s.counter ∧
      s'.swaUuidCounter = s.swaUuidCounter := by
  obtain ⟨full', hfull, hfull'⟩ := b.full.touch s.node (n := n) ⟨hn, h0⟩ nofun
  obtain ⟨swa', hswa, hswa'⟩ : ∃ swa', unlessTombstone (s.node n) s.swaLruList (s.swaLruList.resetNodeMru s.node n) = .ok swa' ∧
      Lists swa' true (s.InSwa live) := by
    unfold unlessTombstone
    cases ht : (s.node n).swaTombstone with
    | true => exact ⟨s.swaLruList, if_pos rfl, b.swa⟩
    | false =>
      obtain ⟨swa', hswa, hswa'⟩ := b.swa.touch s.node (n := n) ⟨hn, h0, ht⟩ fun _ => ht
      exact ⟨swa', by rw [if_neg (by simp), hswa], hswa'⟩
  refine ⟨{ s with fullLruList := full', swaLruList := swa' }, ?_, b.relist rfl rfl rfl hfull' hswa' ⟨rfl, rfl, rfl, rfl⟩,
    rfl, rfl, rfl⟩
  simp only [SwaCache.touchLists, hfull, hswa, ok_bind]
  rfl

/-! ## The invariant -/

structure Inv (pageSize : Nat) (s : SwaCache) (live : Finset NodeId) (path : NodeId → List ChildKey)
    (spared : Option NodeId) (top : Nat → Nat) (held : List Lock) : Prop where
  base : Base pageSize s live path spared
  locked : Locked s live path top held

variable {top : Nat → Nat}

theorem Inv.of_node (h : Inv pageSize s live path spared top held) (b : Base pageSize s' live path spared)
    (hnode : s'.node = s.node) (huuid : s'.swaUuidCounter = s.swaUuidCounter) : Inv pageSize s' live path spared top held :=
  ⟨b, h.locked.same h.base.wf (le_of_eq huuid.symm) fun n _ => by rw [hnode]; exact ⟨rfl, rfl, rfl, rfl⟩⟩

variable (cfg : Config)

theorem Inv.split (h : Inv cfg.pageSize s live path none top held) {c : NodeId} {r : Nat} (hp : p ∈ live)
    (hc : (s.node p).children.get? x = some c) (hr : cfg.pageSize ∣ r) (hr0 : 0 < r) (hlt : r < (s.node c).key.len) :
    ∃ s' y, splitNode cfg s (s.node c).key c r = .ok (s', s.counter) ∧ Cut s s' p c x y r ∧
      Inv cfg.pageSize s' (insert s.counter live) (cutPath cfg.pageSize s path p c r) none top held := by
  obtain ⟨s', y, hs', hcut, hb⟩ := h.base.split cfg hp hc hr hr0 hlt
  exact ⟨s', y, hs', hcut, hb, h.locked.split h.base hp hc hcut hb.wf⟩

theorem Inv.grow (h : Inv cfg.pageSize s live path none top held)
    (hp : p ∈ live) (hfree : (s.node p).children.get? x = none) (hpos : 0 < key.len) (hdvd : cfg.pageSize ∣ key.len)
    (hlen : value.length = key.len)
    (hx : getChildKey cfg.pageSize key = .ok x) (total : Nat) :
    ∃ s' path', addLeaf ⟨s, p, key, x, value, total⟩ = .ok s' ∧
    Inv cfg.pageSize s' (insert s.counter live) path' none top held := by
  obtain ⟨s', hs', hgrown, hb⟩ := h.base.grow cfg hp hfree hpos hdvd hlen hx total
  have hpath : ∀ n ∈ live, upd path s.counter (path p ++ word cfg.pageSize key) n = path n :=
    fun n hn => upd_ne _ _ (h.base.wf.ne_counter hn)
  exact ⟨s', _, hs', hb, h.locked.grow hgrown h.base.wf hb.wf hpath⟩

/-- A node that the sliding-window layers may give up gets other slots, or is a tombstone from now on or no longer. -/
theorem Inv.retomb (h : Inv pageSize s live path none top held) (hn : n ∈ live) (h0 : n ≠ 0) (hfree : (s.node n).swaLockRef = 0)
    {v : List Nat} {t : Bool} (hv : v.length = (s.node n).key.len)
    (hnode : s'.node = upd s.node n { s.node n with value := v, swaTombstone := t })
    (hsame : s'.counter = s.counter ∧ s'.swaUuidCounter = s.swaUuidCounter ∧ s'.fullLruList = s.fullLruList ∧
      s'.fullEvictableSize = s.fullEvictableSize ∧ s'.fullProtectedSize = s.fullProtectedSize ∧
      s'.swaProtectedSize = s.swaProtectedSize)
    (hswa : Lists s'.swaLruList true (s'.InSwa live))
    (hsize : s'.swaEvictableSize = s.swaEvictableSize - tokens swaEvictable (s.node n) + tokens swaEvictable (s'.node n))
    (hchildren : t = true → (s.node n).children.items ≠ []) : Inv pageSize s' live path none top held := by
  have b := h.base
  obtain ⟨hcounter, huuid, hfull, hfe, hfp, hsp⟩ := hsame
  have hat : s'.node n = { s.node n with value := v, swaTombstone := t } := by rw [hnode, upd_same]
  have hfields : ∀ m, (s'.node m).fullLockRef = (s.node m).fullLockRef ∧ (s'.node m).swaLockRef = (s.node m).swaLockRef ∧
      (s'.node m).swaUuid = (s.node m).swaUuid ∧ (s'.node m).parent = (s.node m).parent := by
    intro m
    rw [hnode]
    exact ⟨upd_proj TreeNode.fullLockRef (by rfl) m, upd_proj TreeNode.swaLockRef (by rfl) m,
      upd_proj TreeNode.swaUuid (by rfl) m, upd_proj TreeNode.parent (by rfl) m⟩
  refine ⟨?_, h.locked.same b.wf huuid.ge fun m _ => hfields m⟩
  refine b.change hn h0 hcounter huuid.ge (fun m hm => by rw [hnode, upd_ne _ _ hm])
    (by rw [hat]; exact ⟨rfl, rfl, rfl, hv.trans (b.wf.values n hn).symm⟩) (hfull ▸ b.full) hswa ?_ (fun ht => ?_)
    (by rw [hat]; exact ⟨(b.flags n hn h0).full_nonneg, (b.flags n hn h0).swa_nonneg⟩) (.inl (by rw [hat]))
  · have htokens := tokens_full (hfields n).1 (show (s'.node n).key = (s.node n).key by rw [hat])
    have hzero : ∀ m : TreeNode, m.swaLockRef = 0 → tokens swaProtected m = 0 := by
      intro m hm
      simp [tokens, swaProtected, hm]
    dsimp only [Resized]
    rw [htokens.1, htokens.2, hzero _ hfree, hzero _ ((hfields n).2.1.trans hfree), hfe, hfp, hsp, hsize]
    refine ⟨?_, ?_, ?_, ?_⟩ <;> omega
  · rw [hat] at ht ⊢
    exact ⟨hchildren ht, hfree⟩

/-! ## `insert` -/

/-- A tombstone comes back with other slots. -/
theorem Inv.updateValue (h : Inv pageSize s live path none top held) (hn : n ∈ live) (h0 : n ≠ 0)
    (hlen : (value.take prefixLen).length = (s.node n).key.len) (firstDiffIdx : Nat) :
    ∃ s', s.updateValue n value prefixLen firstDiffIdx = .ok s' ∧ Inv pageSize s' live path none top held := by
  have b := h.base
  unfold SwaCache.updateValue
  cases ht : (s.node n).swaTombstone with
  | false =>
    simp only [false_eq_true, if_false]
    exact ⟨_, rfl, h.of_node (b.relist rfl rfl rfl b.full b.swa ⟨rfl, rfl, rfl, rfl⟩) rfl rfl⟩
  | true =>
    have hlock := (b.flags n hn h0).free ht
    simp only [if_true, hlock, ne_eq, not_true_eq_false, if_false]
    obtain ⟨s1, hs1⟩ : ∃ s1 : SwaCache,
      s1 = ({ s with freed := s.freed ++ [FreeCall.free ((s.node n).value.drop firstDiffIdx)] } : SwaCache).modify n
      fun node => { node with value := value.take prefixLen, swaTombstone := false } := ⟨_, rfl⟩
    have hnode : s1.node = upd s.node n { s.node n with value := value.take prefixLen, swaTombstone := false } := by
      rw [hs1]
      rfl
    have hlist : s1.swaLruList = s.swaLruList := by rw [hs1]; rfl
    obtain ⟨swa', hswa, hswa'⟩ := b.swa.insert s1.node (n := n) (fun hin => by
      have := hin.2.2
      rw [ht] at this
      cases this) fun _ => by rw [hnode, upd_same]
    rw [← hs1, hlist, hswa]
    refine ⟨_, rfl, h.retomb hn h0 hlock hlen hnode (by rw [hs1]; exact ⟨rfl, rfl, rfl, rfl, rfl, rfl⟩)
      (hswa'.congr fun m => ?_) ?_
      nofun⟩
    · show m ∈ live ∧ m ≠ 0 ∧ (s1.node m).swaTombstone = false ↔ _
      by_cases hm : m = n
      · rw [hm, hnode, upd_same]
        simp [hn, h0]
      · rw [hnode, upd_ne _ _ hm]
        exact ⟨.inr, fun hin => hin.resolve_left hm⟩
    · dsimp only
      rw [hnode, upd_same, hs1]
      show s.swaEvictableSize + _ = _
      simp only [tokens, swaEvictable, ht, hlock, hlen]
      simp

theorem Inv.updateBehind (h : Inv pageSize s live path none top held) (hn : n ∈ live) (h0 : n ≠ 0)
    (hlen : (value.take prefixLen).length = (s.node n).key.len) (totalPrefixLength updateKvAfterLen : Nat) :
    ∃ s', s.updateBehind n value prefixLen totalPrefixLength updateKvAfterLen = .ok s' ∧
    Inv pageSize s' live path none top held := by
  unfold SwaCache.updateBehind
  by_cases hlt : updateKvAfterLen < totalPrefixLength + prefixLen
  · rw [if_pos hlt]
    exact h.updateValue hn h0 hlen _
  · rw [if_neg hlt]
    exact ⟨s, rfl, h⟩

/-- The rest of a key and the child it is filed under begin with the same pages. -/
theorem Wf.keyMatch (hps : 0 < pageSize) (w : Wf pageSize s live path) {c : NodeId} (hp : p ∈ live)
    (hc : (s.node p).children.get? x = some c) (hpos : 0 < key.len) (hdvd : pageSize ∣ key.len)
    (hx : getChildKey pageSize key = .ok x) :
    ∃ r, keyMatchFn pageSize (s.node c).key key = .ok r ∧ pageSize ∣ r ∧ 0 < r ∧ r ≤ (s.node c).key.len ∧ r ≤ key.len ∧
      (s.node c).key.extraKey = key.extraKey ∧ Agrees pageSize (s.node c).key.tokenIds key.tokenIds r := by
  obtain ⟨hclive, hc0, -, hcx⟩ := w.child hp hc
  exact keyMatchFn_filed hps (w.key_pos hclive hc0) hpos (w.aligned c hclive) hdvd
    (getChildKey_of_head hps (w.aligned c hclive) hcx) hx

theorem nextChildKey_ok (key : RadixKey) (k : ChildKey) :
    ∃ k', nextChildKey cfg key k = .ok k' ∧ (0 < key.len → getChildKey cfg.pageSize key = .ok k') :=
  nextKey_ok cfg.pageSize key k

/-- The invariant of the loop of `_insert_helper`. -/
structure Inserting (cfg : Config) (top : Nat → Nat) (held : List Lock) (w : InsertWalk) (live : Finset NodeId)
    (path : NodeId → List ChildKey) : Prop where
  inv : Inv cfg.pageSize w.cache live path none top held
  node : w.node ∈ live
  dvd : cfg.pageSize ∣ w.key.len
  len : w.value.length = w.key.len
  childKey : 0 < w.key.len → getChildKey cfg.pageSize w.key = .ok w.childKey

theorem insertStep_spec (updateKvAfterLen : Nat) {w : InsertWalk} (h : Inserting cfg top held w live path)
    (hgo : w.goesOn = true) :
    ∃ w' live' path', insertStep cfg updateKvAfterLen w = .ok w' ∧ Inserting cfg top held w' live' path' ∧
    w'.key.len < w.key.len := by
  simp only [SwaCache.InsertWalk.goesOn, and_eq_true, decide_eq_true_eq, Option.isSome_iff_exists] at hgo
  obtain ⟨hpos, c, hc⟩ := hgo
  obtain ⟨hclive, hc0, -, -⟩ := h.inv.base.wf.child h.node hc
  obtain ⟨s1, hs1, b1, hnode1, hcounter1, huuid1⟩ := h.inv.base.touchLists hclive hc0
  have h1 : Inv cfg.pageSize s1 live path none top held := h.inv.of_node b1 hnode1 huuid1
  have hc1 : (s1.node w.node).children.get? w.childKey = some c := by
    rw [hnode1]
    exact hc
  obtain ⟨r, hr, hrdvd, hr0, hrc, hrk, -, -⟩ := b1.wf.keyMatch cfg.pageSize_pos h.node hc1 hpos h.dvd (h.childKey hpos)
  obtain ⟨ck, hck, hck'⟩ := nextChildKey_ok cfg (w.key.from_ r) w.childKey
  have hlen' : (w.key.from_ r).len = w.key.len - r := length_drop
  have htake : (w.value.take r).length = r := by
    rw [length_take, h.len]
    exact min_eq_left hrk
  -- the node with the first `r` tokens of the rest
  obtain ⟨s2, n, live', path', hs2, h2, hn, hn0, hnlen⟩ : ∃ s2 n live' path', splitIfPartial cfg s1 c r = .ok (s2, n) ∧
      Inv cfg.pageSize s2 live' path' none top held ∧ n ∈ live' ∧ n ≠ 0 ∧ (s2.node n).key.len = r := by
    unfold splitIfPartial
    by_cases hpart : r < (s1.node c).key.len
    · obtain ⟨s2, y, hs2, hcut, h2⟩ := h1.split cfg h.node hc1 hrdvd hr0 hpart
      refine ⟨s2, s1.counter, _, _, by rw [if_pos hpart, hs2], h2, Finset.mem_insert_self _ _,
        Ne.symm (b1.wf.ne_counter b1.wf.shape.root_live), ?_⟩
      rw [hcut.2.2, if_pos rfl]
      simp only [RadixKey.len, RadixKey.tokenIds_upto, length_take] at hpart ⊢
      omega
    · exact ⟨s1, c, live, path, by rw [if_neg hpart], h1, hclive, hc0, by omega⟩
  obtain ⟨s3, hs3, h3⟩ := h2.updateBehind hn hn0 (htake.trans hnlen.symm) w.totalPrefixLength updateKvAfterLen
  refine ⟨⟨s3, n, w.key.from_ r, ck, w.value.drop r, w.totalPrefixLength + r⟩, live', path', ?_, ⟨h3, hn, ?_, ?_, hck'⟩, ?_⟩
  · unfold insertStep
    rw [hc]
    simp only [hs1, hr, hs2, hs3, hck, ok_bind]
    rfl
  · rw [hlen']
    exact Nat.dvd_sub h.dvd hrdvd
  · rw [hlen', length_drop, h.len]
  · rw [hlen']
    omega

theorem Inv.insertHelper (h : Inv cfg.pageSize s live path none top held) (hdvd : cfg.pageSize ∣ key.len)
    (hlen : value.length = key.len) (updateKvAfterLen : Nat) :
    ∃ s' total live' path', insertHelper cfg s key value updateKvAfterLen = .ok (s', total) ∧
    Inv cfg.pageSize s' live' path' none top held := by
  unfold SwaCache.insertHelper
  by_cases h0 : key.len = 0
  · exact ⟨s, 0, live, path, if_pos h0, h⟩
  rw [if_neg h0]
  obtain ⟨ck, hck⟩ := getChildKey_ok cfg.pageSize (length_pos_iff.mp (Nat.pos_of_ne_zero h0))
  obtain ⟨w, -, hrun, ⟨live', path', hw, -⟩, hend⟩ := whileLoop_bound PyError.outOfFuel SwaCache.InsertWalk.goesOn
    (insertStep cfg updateKvAfterLen)
    (fun w m => ∃ live' path', Inserting cfg top held w live' path' ∧ m = w.key.len)
    (by
      intro w m hw hgo
      obtain ⟨live', path', hw, rfl⟩ := hw
      obtain ⟨w', live'', path'', hs', hw', hlt⟩ := insertStep_spec cfg updateKvAfterLen hw hgo
      exact ⟨w', _, hs', ⟨live'', path'', hw', rfl⟩, hlt⟩)
    key.len { cache := s, node := 0, key, childKey := ck, value } _
    ⟨live, path, ⟨h, h.base.wf.shape.root_live, hdvd, hlen, fun _ => hck⟩, rfl⟩ (le_refl _)
  obtain ⟨s', live'', path'', hs', h'⟩ : ∃ s' live'' path'', addLeaf w = .ok s' ∧
    Inv cfg.pageSize s' live'' path'' none top held := by
    by_cases hpos : 0 < w.key.len
    · -- the loop has ended at a node without the child
      have hfree : (w.cache.node w.node).children.get? w.childKey = none := by
        simp only [SwaCache.InsertWalk.goesOn, hpos, decide_true, Bool.true_and] at hend
        exact Option.not_isSome_iff_eq_none.mp (by simpa using hend)
      obtain ⟨s', path'', hs', h'⟩ := hw.inv.grow cfg hw.node hfree hpos hw.dvd hw.len (hw.childKey hpos) w.totalPrefixLength
      exact ⟨s', _, path'', hs', h'⟩
    · exact ⟨w.cache, live', path', by rw [addLeaf, if_pos (by omega)], hw.inv⟩
  refine ⟨s', w.totalPrefixLength, live'', path'', ?_, h'⟩
  simp only [hck, hrun, hs', ok_bind]
  rfl

/-! ## `evict` -/

open Classical in
theorem Locked.swa_le (h : Locked s live path top held) (hn : n ∈ live) (h0 : n ≠ 0) :
    (s.node n).swaLockRef ≤ (s.node n).fullLockRef := by
  rw [h.full n hn h0, h.swa n hn h0]
  refine Int.ofNat_le.mpr (countP_mono_left fun l _ hr => ?_)
  simp only [decide_eq_true_eq] at hr ⊢
  exact hr.1

/-- Nodes only lose children. -/
def Shrunk (s s' : SwaCache) : Prop := ∀ n, (s'.node n).fullLockRef = (s.node n).fullLockRef ∧
    (s'.node n).swaLockRef = (s.node n).swaLockRef ∧
  (s'.node n).swaTombstone = (s.node n).swaTombstone ∧ ((s.node n).children.items = [] → (s'.node n).children.items = [])

theorem Shrunk.trans {s₁ s₂ s₃ : SwaCache} (h : Shrunk s₁ s₂) (h' : Shrunk s₂ s₃) : Shrunk s₁ s₃ := fun n =>
  ⟨(h' n).1.trans (h n).1, (h' n).2.1.trans (h n).2.1, (h' n).2.2.1.trans (h n).2.2.1, fun hn => (h' n).2.2.2 ((h n).2.2.2 hn)⟩

theorem Pruned.shrunk (h : Pruned s s' p x) : Shrunk s s' := by
  intro n
  rw [h.2.2]
  split_ifs with hn
  · rw [hn]
    refine ⟨rfl, rfl, rfl, fun hnil => ?_⟩
    simp [Dict.erase, hnil, filter_nil]
  · exact ⟨rfl, rfl, rfl, id⟩

/-- A node is taken from the children of its parent. -/
theorem dropChild_pruned (w : Wf pageSize s live path) (hn : n ∈ live) (h0 : n ≠ 0) (s1 : SwaCache) (hnode : s1.node = s.node) :
    ∃ p x s2, p ∈ live.erase n ∧ (s.node n).parent = some p ∧ (word pageSize (s.node n).key).head? = some x ∧
    s1.dropChild p n = .ok s2 ∧
      Pruned s1 s2 p x ∧ s2.node n = s.node n ∧
      s2 = { s1 with node := s2.node } := by
  obtain ⟨p, x, hp, hpn, hp', hx, hdrop⟩ := dropChild_spec w hn h0
  refine ⟨p, x, s1.modify p fun node => { node with children := node.children.erase x }, Finset.mem_erase.mpr ⟨hpn, hp⟩,
    hp', hx, ?_, ⟨rfl, rfl, fun m => ?_⟩, ?_, rfl⟩
  · unfold dropChild at hdrop ⊢
    rw [hnode]
    dsimp only at hdrop ⊢
    cases hk : ((s.node p).children.items.find? fun e => decide (e.2 = n)).or (s.node p).children.items.getLast? with
    | none =>
      rw [hk] at hdrop
      cases hdrop
    | some e =>
      rw [hk] at hdrop
      have := congrFun (congrArg node (Except.ok.inj hdrop)) p
      rw [node_modify_same, node_modify_same] at this
      have hchildren := congrArg TreeNode.children this
      dsimp only at hchildren
      simp [SwaCache.modify, hnode, hchildren]
  · split_ifs with hm
    · rw [hm, node_modify_same]
    · rw [node_modify_ne _ _ hm]
  · rw [node_modify_ne _ _ (Ne.symm hpn), hnode]

/-- A leaf that is not locked goes, once it is in no list. -/
theorem Inv.detach (h : Inv pageSize s live path spared top held) (hspared : spared = none ∨ spared = some n)
    (hn : n ∈ live) (h0 : n ≠ 0)
    (hleaf : (s.node n).children.items = []) (hfree : (s.node n).fullLockRef = 0) (hswa : (s.node n).swaLockRef = 0)
    {full swa : LruList}
    (freed : List FreeCall) (hfull' : Lists full false fun m => InFull live m ∧ m ≠ n)
    (hswa' : Lists swa true fun m => s.InSwa live m ∧ m ≠ n) :
    ∃ p s2, (s.node n).parent = some p ∧ p ∈ live.erase n ∧ s2.node n = s.node n ∧
      ({ s with fullLruList := full, swaLruList := swa, freed := freed } : SwaCache).dropChild p n = .ok s2 ∧
      ∀ s3 size, s3 = { s2 with fullEvictableSize := s2.fullEvictableSize - (s2.node n).key.len, swaEvictableSize := size } →
        size = s2.swaEvictableSize - tokens swaEvictable (s.node n) →
        Inv pageSize s3 (live.erase n) path (some p) top held ∧ Shrunk s s3 := by
  obtain ⟨p, x, s2, hp, hp', hx, hdrop, hpruned, hnode2, hs2⟩ := dropChild_pruned h.base.wf hn h0
    { s with fullLruList := full, swaLruList := swa, freed := freed } rfl
  refine ⟨p, s2, hp', hp, hnode2, hdrop, fun s3 size hs3 hsize => ?_⟩
  have hpruned' : Pruned s s3 p x := by
    rw [hs3]
    exact ⟨hpruned.1, hpruned.2.1, hpruned.2.2⟩
  have htokens : tokens fullEvictable (s.node n) = (s.node n).key.len ∧ tokens fullProtected (s.node n) = 0 ∧
    tokens swaProtected (s.node n) = 0 := by
    simp [tokens, fullEvictable, fullProtected, swaProtected, hfree, hswa]
  refine ⟨⟨h.base.prune hn h0 hspared hp' hx hleaf hpruned' (by rw [hs3, hs2]; exact hfull') (by rw [hs3, hs2]; exact hswa') ?_,
    h.locked.prune h.base.wf hn h0 hfree hpruned'⟩, hpruned'.shrunk⟩
  dsimp only [Resized]
  rw [htokens.1, htokens.2.1, htokens.2.2, hs3, hsize, hnode2, hs2]
  exact ⟨rfl, (Int.sub_zero _).symm, rfl, (Int.sub_zero _).symm⟩

/-- A leaf that is not locked can be taken out. -/
theorem Inv.evictLeaf (h : Inv pageSize s live path none top held) (hn : n ∈ live) (h0 : n ≠ 0)
    (hleaf : (s.node n).children.items = []) (hfree : (s.node n).fullLockRef = 0) :
    ∃ s' p, s.evictLeaf n = .ok s' ∧ (s'.node n).parent = some p ∧ p ∈ live.erase n ∧
    Inv pageSize s' (live.erase n) path (some p) top held ∧ Shrunk s s' := by
  have b := h.base
  have ht : (s.node n).swaTombstone = false := by
    by_contra ht
    exact b.leaf n hn h0 (by simpa using ht) nofun hleaf
  have hswa : (s.node n).swaLockRef = 0 := by
    have := h.locked.swa_le hn h0
    have := (b.flags n hn h0).swa_nonneg
    omega
  obtain ⟨full', hfull, hfull', -⟩ := b.full.remove s.node (show InFull live n from ⟨hn, h0⟩) nofun
  obtain ⟨swa', hswa1, hswa', -⟩ := b.swa.remove s.node (show s.InSwa live n from ⟨hn, h0, ht⟩) fun _ => ht
  obtain ⟨p, s2, hp', hp, hnode2, hdrop, hgone⟩ := h.detach (.inl rfl) hn h0 hleaf hfree hswa
    (s.freed ++ [FreeCall.free (s.node n).value]) hfull' hswa'
  obtain ⟨h3, hshrunk⟩ := hgone _ (s2.swaEvictableSize - (s2.node n).key.len) rfl (by
    rw [hnode2]
    simp [tokens, swaEvictable, ht, hswa])
  refine ⟨_, p, ?_, hnode2.symm ▸ hp', hp, h3, hshrunk⟩
  unfold SwaCache.evictLeaf
  simp only [hfull, hswa1, ok_bind]
  rw [deleteLeaf, if_neg (by simp [ht, hleaf]), hp']
  dsimp only
  rw [hdrop]
  rfl

/-- A parent that is not a locked tombstone is like every other node. -/
theorem Inv.unspare (h : Inv pageSize s live path (some p) top held)
    (hp : p ∈ live → p ≠ 0 → (s.node p).swaTombstone = true → (s.node p).children.items ≠ []) :
    Inv pageSize s live path none top held := by
  refine ⟨⟨h.base.wf, h.base.full, h.base.swa, h.base.sizes, fun n hn h0 ht _ => ?_, h.base.flags, h.base.uuids,
    h.base.root⟩, h.locked⟩
  by_cases hnp : n = p
  · rw [hnp]
    exact hp (hnp ▸ hn) (hnp ▸ h0) (hnp ▸ ht)
  · exact h.base.leaf n hn h0 ht fun he => hnp (Option.some.inj he).symm

/-! ### The tombstones above a leaf that is gone -/

/-- The invariant of the loop of `_iteratively_delete_tombstone_leaf`: the last node is gone, its parent is
    still to be looked at. -/
structure Pruning (pageSize : Nat) (s : SwaCache) (path : NodeId → List ChildKey) (top : Nat → Nat) (held : List Lock) (w : Prune)
    (live : Finset NodeId) (p : NodeId) : Prop where
  parent : (w.cache.node w.node).parent = some p
  mem : p ∈ live
  inv : Inv pageSize w.cache live path (some p) top held
  shrunk : Shrunk s w.cache

theorem pruneStep_spec {w : Prune} {s₀ : SwaCache} (h : Pruning pageSize s₀ path top held w live p) (hgo : w.goesOn = true) :
    ∃ w' q, pruneStep w = .ok w' ∧ Pruning pageSize s₀ path top held w' (live.erase p) q := by
  have b := h.inv.base
  simp only [SwaCache.Prune.goesOn, h.parent, and_eq_true, decide_eq_true_eq] at hgo
  obtain ⟨⟨⟨ht, hleaf⟩, h0⟩, hle⟩ := hgo
  have hfree : (w.cache.node p).fullLockRef = 0 := by
    have := (b.flags p h.mem h0).full_nonneg
    omega
  have hswa := (b.flags p h.mem h0).free ht
  obtain ⟨full', hfull, hfull', -⟩ := b.full.remove w.cache.node (show InFull live p from ⟨h.mem, h0⟩) nofun
  have hswa' : Lists w.cache.swaLruList true fun m => w.cache.InSwa live m ∧ m ≠ p := by
    refine b.swa.congr fun m => ⟨fun hm => hm.1, fun hm => ⟨hm, fun he => ?_⟩⟩
    have := hm.2.2
    rw [he, ht] at this
    cases this
  obtain ⟨q, s2, hq', hq, hnode2, hdrop, hgone⟩ := h.inv.detach (.inr rfl) h.mem h0 hleaf hfree hswa
    (w.cache.freed ++ [FreeCall.free (w.cache.node p).value]) hfull' hswa'
  obtain ⟨h3, hshrunk⟩ := hgone _ s2.swaEvictableSize rfl (by simp [tokens, swaEvictable, ht])
  refine ⟨⟨_, p, w.fullNumEvicted + (w.cache.node p).value.length⟩, q, ?_, hnode2.symm ▸ hq', hq, h3, h.shrunk.trans hshrunk⟩
  unfold pruneStep
  rw [h.parent]
  dsimp only
  rw [if_neg (not_not.mpr hswa)]
  simp only [hfull, ok_bind]
  rw [deleteTombstoneLeaf, if_neg (by simp [ht, hleaf]), hq']
  dsimp only
  rw [hdrop]
  rfl

/-- A leaf goes, and the tombstones above that it was the last descendant of. -/
theorem Inv.evictUp (h : Inv pageSize s live path none top held) (hn : n ∈ live) (h0 : n ≠ 0)
    (hleaf : (s.node n).children.items = []) (hfree : (s.node n).fullLockRef = 0) :
    ∃ s1 s' m k p live', s.evictLeaf n = .ok s1 ∧ s1.iterativelyDeleteTombstoneLeaf n = .ok (s', m, k) ∧
    (s'.node m).parent = some p ∧
      Inv pageSize s' live' path none top held ∧ live' ⊆ live.erase n ∧ Shrunk s s' := by
  obtain ⟨s1, p, hs1, hp, hplive, h1, hshrunk⟩ := h.evictLeaf hn h0 hleaf hfree
  obtain ⟨w, -, hrun, ⟨live', q, hw, hsub, -⟩, hend⟩ := whileLoop_bound PyError.outOfFuel SwaCache.Prune.goesOn pruneStep
    (fun w m => ∃ live' q, Pruning pageSize s path top held w live' q ∧ live' ⊆ live.erase n ∧ m = live'.card)
    (by
      intro w m hw hgo
      obtain ⟨live', q, hw, hsub, rfl⟩ := hw
      obtain ⟨w', q', hs', hw'⟩ := pruneStep_spec hw hgo
      exact ⟨w', _, hs', ⟨_, q', hw', (Finset.erase_subset _ _).trans hsub, rfl⟩, Finset.card_erase_lt_of_mem hw.mem⟩)
    s1.counter { cache := s1, node := n } _ ⟨_, p, ⟨hp, hplive, h1, hshrunk⟩, Finset.Subset.refl _, rfl⟩ h1.base.wf.card_live
  refine ⟨s1, w.cache, w.node, w.fullNumEvicted, q, live', hs1, ?_, hw.parent, hw.inv.unspare fun hq hq0 ht hleaf => ?_,
    hsub, hw.shrunk⟩
  · rw [iterativelyDeleteTombstoneLeaf, hrun]
    rfl
  -- a tombstone without children would be locked for the sliding-window layers
  simp only [SwaCache.Prune.goesOn, hw.parent, ht, hleaf, hq0, ne_eq, not_false_eq_true, decide_true, Bool.true_and,
    decide_eq_false_iff_not, not_le] at hend
  have := hw.inv.locked.leaf_swa hw.inv.base hq hq0 hleaf hend
  rw [(hw.inv.base.flags q hq hq0).free ht] at this
  omega

/-! ### The loops along the lists -/

theorem length_lt_of_subset {l l' : List NodeId} (hl' : l'.Nodup) (hsub : ∀ m ∈ l', m ∈ l ∧ m ≠ n) (hn : n ∈ l) :
    l'.length < l.length := by
  have hle : l'.length ≤ (l.erase n).length :=
    (hl'.subperm fun m hm => (mem_erase_of_ne (hsub m hm).2).mpr (hsub m hm).1).length_le
  rw [length_erase_of_mem hn] at hle
  have := length_pos_of_mem hn
  omega

theorem Lists.length_le (h : Lists l swa S) (hS : ∀ n, S n → n ∈ live) : l.nodes.length ≤ live.card := by
  rw [← toFinset_card_of_nodup h.2.1]
  exact Finset.card_le_card fun n hn => hS n ((h.2.2 n).mp (mem_toFinset.mp hn))

/-- The next node of `evict_full`, if it is still there. -/
def FullVictim (s : SwaCache) (x : Option NodeId) : Prop := ∀ n, x = some n → (s.node n).children.items = [] ∧
    (s.node n).fullLockRef ≤ 0

theorem fullVictim_find (hl : l.swa = false) (nodes : List NodeId) : FullVictim s (nodes.find? (l.leafNoLock s.node)) := by
  intro n hn
  have := find?_some hn
  simp only [leafNoLock, noLock, lockRef, hl, false_eq_true, if_false, and_eq_true, decide_eq_true_eq] at this
  exact ⟨this.2, this.1⟩

theorem FullVictim.shrunk {x : Option NodeId} (h : FullVictim s x) (hs : Shrunk s s') : FullVictim s' x := fun n hn =>
  ⟨(hs n).2.2.2 (h n hn).1, by rw [(hs n).1]; exact (h n hn).2⟩

theorem exists_of_inList {l : LruList} {o : Option NodeId} (h : l.inList o = true) : ∃ x, o = some x ∧ x ∈ l.nodes := by
  cases o with
  | none => cases h
  | some x => exact ⟨x, rfl, by simpa [inList] using h⟩

theorem evictFullStep_spec (h : Inv pageSize w.cache live path none top held) (hx : FullVictim w.cache w.x)
    (hgo : w.cache.fullLruList.inList w.x = true) :
    ∃ w' live', evictFullStep w = .ok w' ∧ Inv pageSize w'.cache live' path none top held ∧ FullVictim w'.cache w'.x ∧
    live'.card < live.card := by
  obtain ⟨x, hwx, hmem⟩ := exists_of_inList hgo
  obtain ⟨hlive, h0⟩ := (h.base.full.2.2 x).mp hmem
  obtain ⟨hleaf, hle⟩ := hx x hwx
  have hfree : (w.cache.node x).fullLockRef = 0 := by
    have := (h.base.flags x hlive h0).full_nonneg
    omega
  obtain ⟨s1, s', m, k, p, live', hs1, hs', hp, h', hsub, hshrunk⟩ := h.evictUp hlive h0 hleaf hfree
  have hnext : w.cache.fullLruList.getPrevLeafNoLock w.cache.node x =
      .ok ((w.cache.fullLruList.moreRecent x).find? (w.cache.fullLruList.leafNoLock w.cache.node)) := if_neg (not_not.mpr hmem)
  have hcard : live'.card < live.card := lt_of_le_of_lt (Finset.card_le_card hsub) (Finset.card_erase_lt_of_mem hlive)
  refine ⟨⟨s', if (s'.node p).children.items = [] then s'.fullLruList.getLeafLruNoLock s'.node
      else (w.cache.fullLruList.moreRecent x).find? (w.cache.fullLruList.leafNoLock w.cache.node),
    w.fullNumEvicted + (w.cache.node x).value.length + k, w.swaNumEvicted + (w.cache.node x).value.length⟩, live', ?_, h',
      ?_, hcard⟩
  · unfold evictFullStep
    rw [hwx]
    dsimp only
    rw [if_neg (by simp [h0, hfree]), hnext]
    simp only [hs1, hs', hp, ok_bind]
    rfl
  · dsimp only
    split_ifs
    · exact fullVictim_find h'.base.full.1 _
    · exact (fullVictim_find h.base.full.1 _).shrunk hshrunk

theorem Inv.evictFull (h : Inv pageSize s live path none top held) (fullNumTokens : Nat) :
    ∃ w live', s.evictFull fullNumTokens = .ok w ∧ Inv pageSize w.cache live' path none top held := by
  unfold SwaCache.evictFull
  by_cases h0 : 0 < fullNumTokens
  · rw [if_pos h0]
    obtain ⟨w, -, hrun, ⟨live', hw, -, -⟩, -⟩ := whileLoop_bound PyError.outOfFuel
      (fun w : Evict => decide (w.fullNumEvicted < fullNumTokens) && w.cache.fullLruList.inList w.x) evictFullStep
      (fun w m => ∃ live', Inv pageSize w.cache live' path none top held ∧ FullVictim w.cache w.x ∧ m = live'.card)
      (by
        intro w m hw hgo
        obtain ⟨live', hw, hx, rfl⟩ := hw
        obtain ⟨w', live'', hs', hw', hx', hlt⟩ := evictFullStep_spec hw hx (and_eq_true _ _ ▸ hgo).2
        exact ⟨w', _, hs', ⟨live'', hw', hx', rfl⟩, hlt⟩)
      s.counter ⟨s, s.fullLruList.getLeafLruNoLock s.node, 0, 0⟩ _ ⟨live, h, fullVictim_find h.base.full.1 _,
        rfl⟩ h.base.wf.card_live
    exact ⟨w, live', hrun, hw⟩
  · exact ⟨_, live, if_neg h0, h⟩

/-- An internal node keeps its slots for the full layers only. -/
theorem Inv.tombstone (h : Inv pageSize s live path none top held) (hn : n ∈ live) (h0 : n ≠ 0)
    (ht : (s.node n).swaTombstone = false)
    (hchildren : (s.node n).children.items ≠ []) (hfree : (s.node n).swaLockRef = 0) (freed : List FreeCall) :
    ∃ l s', s.swaLruList.removeNode s.node n = .ok l ∧ tombstoneInternalNode { s with swaLruList := l, freed := freed } n =
    .ok s' ∧
      Inv pageSize s' live path none top held ∧ (∀ m, (s'.node m).swaLockRef = (s.node m).swaLockRef) ∧
      s'.swaLruList.nodes.length < s.swaLruList.nodes.length := by
  have b := h.base
  obtain ⟨l, hl, hl', hlt⟩ := b.swa.remove s.node (show s.InSwa live n from ⟨hn, h0, ht⟩) fun _ => ht
  obtain ⟨s1, hs1⟩ : ∃ s1 : SwaCache, s1 = ({ s with swaLruList := l, freed := freed } : SwaCache).modify n
    fun node => { node with swaTombstone := true } :=
    ⟨_, rfl⟩
  have hnode : s1.node = upd s.node n { s.node n with value := (s.node n).value, swaTombstone := true } := by
    rw [hs1]
    rfl
  refine ⟨l, { s1 with swaEvictableSize := s1.swaEvictableSize - (s1.node n).key.len }, hl, ?_,
    h.retomb hn h0 hfree (b.wf.values n hn) hnode (by rw [hs1]; exact ⟨rfl, rfl, rfl, rfl, rfl, rfl⟩) ?_ ?_ fun _ => hchildren,
    fun m => hnode ▸ upd_proj TreeNode.swaLockRef (by rfl) m, ?_⟩
  · rw [tombstoneInternalNode, if_neg hchildren, ← hs1]
  · have hlist : s1.swaLruList = l := by rw [hs1]; rfl
    rw [hlist]
    refine hl'.congr fun m => ?_
    show m ∈ live ∧ m ≠ 0 ∧ (s1.node m).swaTombstone = false ↔ _
    by_cases hm : m = n
    · rw [hm, hnode, upd_same]
      simp
    · rw [hnode, upd_ne _ _ hm]
      exact ⟨fun hin => ⟨hin, hm⟩, fun hin => hin.1⟩
  · dsimp only
    rw [hnode, upd_same, hs1]
    show s.swaEvictableSize - _ = _
    simp only [tokens, swaEvictable, ht, hfree]
    simp
  · show s1.swaLruList.nodes.length < _
    rw [hs1]
    exact hlt

/-- The next node of `evict_swa`, if it is still there. -/
def SwaVictim (s : SwaCache) (x : Option NodeId) : Prop := ∀ n, x = some n → (s.node n).swaLockRef ≤ 0

theorem swaVictim_find (hl : l.swa = true) (nodes : List NodeId) : SwaVictim s (nodes.find? (l.noLock s.node)) := by
  intro n hn
  have := find?_some hn
  simpa only [noLock, lockRef, hl, if_true, decide_eq_true_eq] using this

theorem SwaVictim.same {x : Option NodeId} (h : SwaVictim s x) (hs : ∀ m, (s'.node m).swaLockRef = (s.node m).swaLockRef) :
    SwaVictim s' x :=
  fun n hn => by
    rw [hs n]
    exact h n hn

theorem evictSwaStep_spec (h : Inv pageSize w.cache live path none top held) (hx : SwaVictim w.cache w.x)
    (hgo : w.cache.swaLruList.inList w.x = true) :
    ∃ w' live', evictSwaStep w = .ok w' ∧ Inv pageSize w'.cache live' path none top held ∧ SwaVictim w'.cache w'.x ∧
      w'.cache.swaLruList.nodes.length < w.cache.swaLruList.nodes.length := by
  obtain ⟨x, hwx, hmem⟩ := exists_of_inList hgo
  obtain ⟨hlive, h0, ht⟩ := (h.base.swa.2.2 x).mp hmem
  have hfree : (w.cache.node x).swaLockRef = 0 := by
    have := hx x hwx
    have := (h.base.flags x hlive h0).swa_nonneg
    omega
  have hnext : w.cache.swaLruList.getPrevNoLock w.cache.node x =
      .ok ((w.cache.swaLruList.moreRecent x).find? (w.cache.swaLruList.noLock w.cache.node)) := if_neg (not_not.mpr hmem)
  have hvictim := swaVictim_find (s := w.cache) h.base.swa.1 (w.cache.swaLruList.moreRecent x)
  have hstart : ¬ ((w.cache.node x).swaTombstone = true ∨ x = 0 ∨ (w.cache.node x).swaLockRef ≠ 0) := by simp [ht, h0, hfree]
  by_cases hchildren : (w.cache.node x).children.items = []
  · have hfull : (w.cache.node x).fullLockRef = 0 := by
      by_contra hne
      have := (h.base.flags x hlive h0).full_nonneg
      have := h.locked.leaf_swa h.base hlive h0 hchildren (by omega)
      omega
    obtain ⟨s1, s', m, k, p, live', hs1, hs', -, h', hsub, hshrunk⟩ := h.evictUp hlive h0 hchildren hfull
    refine ⟨⟨s', (w.cache.swaLruList.moreRecent x).find? (w.cache.swaLruList.noLock w.cache.node),
      w.fullNumEvicted + (w.cache.node x).value.length, w.swaNumEvicted + (w.cache.node x).value.length⟩, live', ?_, h',
      hvictim.same fun m => (hshrunk m).2.1, ?_⟩
    · unfold evictSwaStep
      rw [hwx]
      dsimp only
      rw [if_neg hstart, hnext]
      simp only [hchildren, hfull, hs1, hs', ok_bind, ne_eq, not_true_eq_false, if_false]
      rfl
    · refine length_lt_of_subset h'.base.swa.2.1 (fun m hm => ?_) hmem
      obtain ⟨hm, hm0, hmt⟩ := (h'.base.swa.2.2 m).mp hm
      rw [(hshrunk m).2.2.1] at hmt
      obtain ⟨hmx, hm⟩ := Finset.mem_erase.mp (hsub hm)
      exact ⟨(h.base.swa.2.2 m).mpr ⟨hm, hm0, hmt⟩, hmx⟩
  obtain ⟨l, s', hl, hs', h', hlocks, hlt⟩ := h.tombstone hlive h0 ht hchildren hfree
    (w.cache.freed ++ [FreeCall.freeSwa (w.cache.node x).value])
  refine ⟨⟨s', (w.cache.swaLruList.moreRecent x).find? (w.cache.swaLruList.noLock w.cache.node),
    w.fullNumEvicted, w.swaNumEvicted + (w.cache.node x).value.length⟩, live, ?_, h', hvictim.same hlocks, hlt⟩
  · unfold evictSwaStep
    rw [hwx]
    dsimp only
    rw [if_neg hstart, hnext]
    simp only [ne_eq, hchildren, not_false_eq_true, if_true, hl, hs', ok_bind]
    rfl

theorem Inv.evictSwa (h : Inv pageSize w.cache live path none top held) (swaNumTokens : Nat) :
    ∃ w' live', evictSwa w swaNumTokens = .ok w' ∧ Inv pageSize w'.cache live' path none top held := by
  unfold SwaCache.evictSwa
  by_cases h0 : w.swaNumEvicted < swaNumTokens
  · rw [if_pos h0]
    obtain ⟨w', -, hrun, ⟨live', hw, -, -⟩, -⟩ := whileLoop_bound PyError.outOfFuel
      (fun w : Evict => decide (w.swaNumEvicted < swaNumTokens) && w.cache.swaLruList.inList w.x) evictSwaStep
      (fun w m => ∃ live', Inv pageSize w.cache live' path none top held ∧ SwaVictim w.cache w.x ∧
      m = w.cache.swaLruList.nodes.length)
      (by
        intro w m hw hgo
        obtain ⟨live', hw, hx, rfl⟩ := hw
        obtain ⟨w', live'', hs', hw', hx', hlt⟩ := evictSwaStep_spec hw hx (and_eq_true _ _ ▸ hgo).2
        exact ⟨w', _, hs', ⟨live'', hw', hx', rfl⟩, hlt⟩)
      w.cache.counter { w with x := w.cache.swaLruList.getLruNoLock w.cache.node } _ ⟨live, h, swaVictim_find h.base.swa.1 _, rfl⟩
      (le_trans (h.base.swa.length_le fun n hn => hn.1) h.base.wf.card_live)
    exact ⟨w', live', hrun, hw⟩
  · exact ⟨_, live, if_neg h0, h⟩

theorem Inv.evict (cfg : Config) (h : Inv pageSize s live path none top held) (fullNumTokens swaNumTokens : Nat) :
    ∃ s' live', evict cfg s fullNumTokens swaNumTokens = .ok s' ∧ Inv pageSize s' live' path none top held := by
  unfold SwaCache.evict
  by_cases hd : cfg.disable = true
  · exact ⟨s, live, if_pos hd, h⟩
  obtain ⟨w, live', hw, h'⟩ := h.evictFull fullNumTokens
  obtain ⟨w', live'', hw', h''⟩ := h'.evictSwa swaNumTokens
  refine ⟨w'.cache, live'', ?_, h''⟩
  rw [if_neg hd, hw]
  simp only [ok_bind, hw']
  rfl

end DynaSpec.MemCache.SwaRadix
