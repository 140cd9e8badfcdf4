/-
  DynaSpec.MemCache.RadixWalk — the two loops that walk down the tree.

  `splitNode`, `addLeaf` and `deleteLeaf` do what `Split`, `Grown` and `Pruned` say. A walk
  only touches and splits (`Steps`), whatever the keys in the tree. When these are whole
  pages it ends at the node for the longest stored part of the key (`Stops`).
-/

import DynaSpec.MemCache.RadixTree

namespace DynaSpec.MemCache

open DynaSpec.Lib List RadixKey Nat

namespace RadixCache

variable {cfg : Config} {s s' : RadixCache} {t : View}

/-! ## What the helpers do to the heap -/

theorem recordStoreEvent_eq (cfg : Config) (s : RadixCache) (n : NodeId) :
    recordStoreEvent cfg s n = { s with kvEventQueue := (recordStoreEvent cfg s n).kvEventQueue } := by
  unfold recordStoreEvent
  split <;> rfl

theorem recordRemoveEvent_eq (cfg : Config) (s : RadixCache) (n : NodeId) :
    recordRemoveEvent cfg s n = { s with kvEventQueue := (recordRemoveEvent cfg s n).kvEventQueue } := by
  unfold recordRemoveEvent
  split <;> rfl

theorem splitNode_spec (cfg : Config) {c p : NodeId} {r : Nat} (hp : (s.node c).parent = some p) (hc : c ≠ s.counter)
    (hpc : p ≠ c) (hpn : p ≠ s.counter) (hr : r < (s.node c).key.len) :
    ∃ s', splitNode cfg s (s.node c).key c r = .ok (s', s.counter) ∧ Split cfg.pageSize s s' c p r := by
  have hne : (s.node c).key.tokenIds ≠ [] := length_pos_iff.mp (zero_lt_of_lt hr)
  have hrest : ((s.node c).key.from_ r).tokenIds ≠ [] := by
    refine length_pos_iff.mp ?_
    rw [tokenIds_from, length_drop]
    exact Nat.sub_pos_of_lt hr
  obtain ⟨k1, hk1⟩ := getChildKey_ok cfg.pageSize hrest
  obtain ⟨k0, hk0⟩ := getChildKey_ok cfg.pageSize hne
  rw [splitNode, recordRemoveEvent_eq]
  simp only [newTreeNode, hk1, hk0, ok_bind, modify, upd_same, upd_ne _ _ hc, hp]
  rw [recordStoreEvent_eq cfg _ c, recordStoreEvent_eq cfg _ s.counter]
  refine ⟨_, rfl, rfl, rfl, rfl, rfl, fun n => ?_, fun n => ?_, fun n => ?_, fun n => ?_, ?_, ?_, ?_⟩
  iterate 4
    · by_cases hn : n = s.counter <;> by_cases hnc : n = c <;> by_cases hnp : n = p <;> simp_all [upd]
  · intro k x
    simp only [upd_ne _ _ (Ne.symm hpn), upd_ne _ _ (Ne.symm hc), upd_same, Dict.mem_set, Dict.items_empty,
      not_mem_nil, and_false, or_false, hk1, Except.ok.injEq]
    exact ⟨fun h => ⟨h.2, h.1.symm⟩, fun h => ⟨h.2.symm, h.1⟩⟩
  · exact ⟨k0, hk0, by simp [hpc, hpn]⟩
  · intro n hn hnp
    by_cases hnc : n = c <;> simp_all [upd]

theorem addLeaf_spec (cfg : Config) {w : Walk} (hpos : 0 < w.key.len) (hn : w.node ≠ w.cache.counter) :
    Grown w.cache (addLeaf cfg w) w.node w.childKey w.key w.rest := by
  unfold addLeaf
  rw [if_pos hpos]
  simp only [newTreeNode, modify, upd_same, upd_ne _ _ hn]
  rw [recordStoreEvent_eq]
  refine ⟨rfl, rfl, rfl, rfl, fun n => ?_, fun n => ?_, fun n => ?_, fun n => ?_, ?_, by simp, ?_⟩
  iterate 4
    by_cases h : n = w.cache.counter <;> by_cases h' : n = w.node <;> simp_all [upd]
  · simp [upd_ne _ _ (Ne.symm hn)]
  · intro n h h'
    simp [upd, h, h']

theorem deleteLeaf_spec {x p : NodeId} {k : ChildKey} (hp : (s.node x).parent = some p)
    (hentry : (k, x) ∈ (s.node p).children.items) (honly : ∀ k', (k', x) ∈ (s.node p).children.items → k' = k) :
    ∃ s', deleteLeaf s x = .ok s' ∧ Pruned s s' x p k := by
  have hfind : (s.node p).children.items.find? (fun e => e.2 = x) = some (k, x) := by
    obtain ⟨e, he⟩ := Option.isSome_iff_exists.mp (find?_isSome (p := fun e : ChildKey × NodeId => decide (e.2 = x)).mpr
      ⟨(k, x), hentry, by simp⟩)
    have hx : e.2 = x := by simpa using find?_some he
    have hk : e.1 = k := honly e.1 (hx ▸ mem_of_find?_eq_some he)
    rw [he, ← hx, ← hk]
  unfold deleteLeaf
  rw [hp]
  simp only [hfind, Option.some_or, modify]
  refine ⟨_, rfl, rfl, rfl, ?_, rfl, fun n => ?_, fun n => ?_, fun n => ?_, fun n => ?_, hentry, by simp,
    fun n hn => by simp [hn]⟩
  · by_cases h : x = p <;> simp [upd, h]
  iterate 4
    by_cases h : n = p <;> simp [upd, h]

/-! ## Steps that a walk takes -/

structure SameLocks (s s' : RadixCache) : Prop where
  evictable : s'.evictableSize = s.evictableSize
  protected_ : s'.protectedSize = s.protectedSize
  lock : ∀ n, (s'.node n).lockRef = (s.node n).lockRef

theorem touch_sameTree (s : RadixCache) (n : NodeId) (a : Int) : SameTree s (s.touch n a) := by
  refine ⟨rfl, rfl, fun m => ?_, fun m => ?_, fun m => ?_, fun m => ?_, ?_⟩
  iterate 4
    by_cases h : m = n <;> simp [touch, modify, upd, h]
  by_cases h : s.rootNode = n <;> simp [touch, modify, upd, h]

theorem touch_sameLocks (s : RadixCache) (n : NodeId) (a : Int) : SameLocks s (s.touch n a) :=
  ⟨rfl, rfl, fun m => by by_cases h : m = n <;> simp [touch, modify, upd, h]⟩

/-- From `s` with view `t`, nodes were touched and split. -/
inductive Steps (pageSize : Nat) (s : RadixCache) (t : View) : RadixCache → View → Prop where
  | refl : Steps pageSize s t s t
  | still {s1 s2 t1} : Steps pageSize s t s1 t1 → SameTree s1 s2 → SameLocks s1 s2 → Steps pageSize s t s2 t1
  | split {s1 s2 t1} {c p : NodeId} {r : Nat} : Steps pageSize s t s1 t1 → c ∈ t1.live → c ≠ s1.rootNode →
      (s1.node c).parent = some p → pageSize ∣ r → 0 < r → r < (s1.node c).key.len → Split pageSize s1 s2 c p r →
      Steps pageSize s t s2 (t1.split c p s1.counter ((s1.node c).key.tokenIds.take r) ((s1.node c).value.take r))

variable {pageSize : Nat}

/-- What holds at the start and is kept by touching and by splitting holds at the end. -/
theorem Steps.keeps (hps : 0 < pageSize) (h : Steps pageSize s t s' t') (P : RadixCache → View → Prop) (w : Wf pageSize s t)
    (h0 : P s t) (still : ∀ s1 s2 t1, Wf pageSize s1 t1 → SameTree s1 s2 → SameLocks s1 s2 → P s1 t1 → P s2 t1)
    (split : ∀ s1 s2 t1 c p r, Wf pageSize s1 t1 → c ∈ t1.live → c ≠ s1.rootNode → (s1.node c).parent = some p →
      pageSize ∣ r → 0 < r → r < (s1.node c).key.len → Split pageSize s1 s2 c p r → P s1 t1 →
      P s2 (t1.split c p s1.counter ((s1.node c).key.tokenIds.take r) ((s1.node c).value.take r))) : Wf pageSize s' t' ∧
      P s' t' := by
  induction h with
  | refl => exact ⟨w, h0⟩
  | still _ hsame hlocks ih => exact ⟨ih.1.sameTree hsame, still _ _ _ ih.1 hsame hlocks ih.2⟩
  | split _ hc hcr hp hdvd hpos hlt hsplit ih =>
    exact ⟨ih.1.split hsplit hcr hp hps hc (le_of_dvd hpos hdvd) hlt, split _ _ _ _ _ _ ih.1 hc hcr hp hdvd hpos hlt hsplit ih.2⟩

theorem Steps.trans {s1 s2 : RadixCache} {t1 t2 : View} (h : Steps pageSize s t s1 t1)
    (h' : Steps pageSize s1 t1 s2 t2) : Steps pageSize s t s2 t2 := by
  induction h' with
  | refl => exact h
  | still _ hsame hlocks ih => exact .still ih hsame hlocks
  | split _ hc hcr hp hdvd hpos hlt hsplit ih => exact .split ih hc hcr hp hdvd hpos hlt hsplit

/-! ## Trees of whole pages -/

def AlignedTree (pageSize : Nat) (s : RadixCache) : Prop :=
  ∀ n, s.Known n → n ≠ s.rootNode → pageSize ∣ (s.node n).key.len

theorem AlignedTree.path (a : AlignedTree pageSize s) (w : Wf pageSize s t) : ∀ n, s.Known n → pageSize ∣ (t.path n).length := by
  refine w.climb ?_ ?_
  · rw [w.root_path]
    exact dvd_zero _
  · intro n p hn hr hp ih
    rw [hp.path, length_append]
    exact (Nat.dvd_add_right ih).mpr (a n hn hr)

theorem AlignedTree.rest (a : AlignedTree pageSize s) (w : Wf pageSize s t) {n : NodeId} (hn : n ∈ t.live) {key rest : RadixKey}
    (h : key.tokenIds = t.path n ++ rest.tokenIds) (hdvd : pageSize ∣ key.len) : pageSize ∣ rest.len := by
  refine (Nat.dvd_add_right (a.path w n (w.live_known n hn))).mp ?_
  rwa [len, h, length_append] at hdvd

theorem AlignedTree.split {c p : NodeId} {r : Nat} (a : AlignedTree pageSize s)
    (h : Split pageSize s s' c p r) (hc : s.Known c) (hcr : c ≠ s.rootNode) (hdvd : pageSize ∣ r)
    (hlt : r < (s.node c).key.len) : AlignedTree pageSize s' := by
  intro n hn hr
  rw [h.root] at hr
  rw [h.key]
  have hlen : (s.node c).key.tokenIds.length = (s.node c).key.len := rfl
  by_cases hnew : n = s.counter
  · simp only [hnew, if_true, len, tokenIds_upto, length_take]
    rwa [min_eq_left (by omega)]
  by_cases hnc : n = c
  · simp only [hnc, hc.ne_counter, if_true, if_false, len, tokenIds_from, length_drop]
    exact dvd_sub (hlen ▸ a c hc hcr) hdvd
  · simp only [hnew, hnc, if_false]
    exact a n (hn.old h.root h.counter hnew) hr

section
variable (h : Steps pageSize s t s' t')
include h

theorem Steps.wf (hps : 0 < pageSize) (w : Wf pageSize s t) : Wf pageSize s' t' :=
  (h.keeps hps (fun _ _ => True) w trivial (by intros; trivial) (by intros; trivial)).1

theorem Steps.root : s'.rootNode = s.rootNode := by
  induction h with
  | refl => rfl
  | still _ hsame _ ih => exact hsame.root.trans ih
  | split _ _ _ _ _ _ _ hsplit ih => exact hsplit.root.trans ih

theorem Steps.aligned (hps : 0 < pageSize) (w : Wf pageSize s t) (a : AlignedTree pageSize s) : AlignedTree pageSize s' := by
  refine (h.keeps hps (fun s _ => AlignedTree pageSize s) w a ?_ ?_).2
  · intro s1 s2 _ _ hsame _ h1 n hn hr
    rw [hsame.key]
    exact h1 n (hsame.known.mp hn) (by rwa [hsame.root] at hr)
  · intro s1 s2 t1 c p r w1 hc hcr _ hdvd _ hlt hsplit h1
    exact h1.split hsplit (w1.live_known c hc) hcr hdvd hlt

end

/-- The walk for `key` has come to `n`: the rest of the key has no child to go to. -/
structure Stops (pageSize : Nat) (s : RadixCache) (t : View) (key : RadixKey) (n : NodeId) : Prop where
  live : n ∈ t.live
  extra : n = s.rootNode ∨ key.extraKey = (s.node n).key.extraKey
  path : ∃ rest, key.tokenIds = t.path n ++ rest ∧
    (rest ≠ [] → ∃ k, getChildKey pageSize ⟨rest, key.extraKey⟩ = .ok k ∧ (s.node n).children.get? k = none)

/-- The child that a walk at `n` goes to. -/
theorem Wf.child (w : Wf pageSize s t) {n c : NodeId} {key : RadixKey} {k : ChildKey} (hn : n ∈ t.live)
    (hpos : 0 < key.len) (hk : getChildKey pageSize key = .ok k) (hc : (s.node n).children.get? k = some c) :
    c ∈ t.live ∧ c ≠ s.rootNode ∧ Hangs s t c n ∧ (s.node c).key.extraKey = key.extraKey ∧
      (s.node c).key.tokenIds.take pageSize = key.tokenIds.take pageSize := by
  obtain ⟨hlive, hroot, hparent, hck⟩ := (w.child_iff n hn k c).mp (Dict.get?_eq_some.mp hc)
  have hsame := (getChildKey_inj hck (length_pos_iff.mp hpos)).mp hk
  exact ⟨hlive, hroot, w.parent_hangs (w.live_known c hlive) hroot hparent, hsame⟩

/-! ## One turn of a walk -/

/-- A turn of a walk went from `n` to `n'` and used up `r` tokens of `key`. -/
structure Reached (pageSize : Nat) (s : RadixCache) (t : View) (n : NodeId) (key : RadixKey) (r : Nat) (s' : RadixCache)
    (t' : View) (n' : NodeId) : Prop where
  steps : Steps pageSize s t s' t'
  live : n' ∈ t'.live
  extra : key.extraKey = (s'.node n').key.extraKey
  slots : t'.slots n' = t.slots n ++ (s'.node n').value
  path : AlignedTree pageSize s → pageSize ∣ key.len → t'.path n' = t.path n ++ key.tokenIds.take r
  /-- Past a split there is no way on. -/
  stops : AlignedTree pageSize s → pageSize ∣ key.len → n' = s.counter → 0 < (key.from_ r).len →
    ∃ k, getChildKey pageSize (key.from_ r) = .ok k ∧ (s'.node n').children.get? k = none

section turn
variable {n c : NodeId} {key : RadixKey} {k : ChildKey} {r : Nat} (w : Wf cfg.pageSize s t) (hn : n ∈ t.live) (hpos : 0 < key.len)
  (hk : getChildKey cfg.pageSize key = .ok k) (hc : (s.node n).children.get? k = some c)
  (hr : Agrees cfg.pageSize (s.node c).key.tokenIds key.tokenIds r)
include w hn hpos hk hc hr

theorem reached_child (hlen : (s.node c).key.len ≤ r) (a : Int) : Reached cfg.pageSize s t n key r (s.touch c a) t c := by
  obtain ⟨hclive, hcr, hcn, hextra, -⟩ := w.child hn hpos hk hc
  have hsame := touch_sameTree s c a
  refine ⟨.still .refl hsame (touch_sameLocks s c a), hclive, by rw [hsame.key]; exact hextra.symm, ?_, ?_, ?_⟩
  · rw [hsame.value]
    exact hcn.slots
  · intro hal hdvd
    have heq := hr.take_eq
    rw [take_of_length_le hlen] at heq
    rw [hcn.path, ← heq]
  · intro _ _ hnew
    exact absurd hnew (w.live_known c hclive).ne_counter

theorem reached_split (hps : 0 < cfg.pageSize) (hlen : r < (s.node c).key.len) (a : Int) :
    ∃ s' t', splitNode cfg (s.touch c a) ((s.touch c a).node c).key c r = .ok (s', s.counter) ∧
      Reached cfg.pageSize s t n key r s' t' s.counter := by
  obtain ⟨hclive, hcr, hcn, hextra, hfirst⟩ := w.child hn hpos hk hc
  have hsame := touch_sameTree s c a
  have hck := w.live_known c hclive
  have hr0 : cfg.pageSize ≤ r := hr.page_le (length_pos_iff.mp hcn.key_pos) (length_pos_iff.mp hpos) hfirst
  have hnc : n ≠ c := by
    rintro rfl
    exact lt_irrefl _ hcn.path_lt
  have hnn := hcn.known.ne_counter
  have hlen' : r < ((s.touch c a).node c).key.len := by rwa [hsame.key]
  obtain ⟨s', hs', hsplit⟩ := splitNode_spec cfg (s := s.touch c a) (c := c) (p := n) (r := r)
    (by rw [hsame.parent]; exact hcn.parent) (by rw [hsame.counter]; exact hck.ne_counter) hnc
    (by rw [hsame.counter]; exact hnn) hlen'
  rw [hsame.counter] at hs'
  have hcounter : (s.touch c a).counter = s.counter := hsame.counter
  refine ⟨s', _, hs', ⟨.split (.still .refl hsame (touch_sameLocks s c a)) hclive (by rw [hsame.root]; exact hcr)
    (by rw [hsame.parent]; exact hcn.parent) hr.aligned (lt_of_lt_of_le hps hr0) hlen' hsplit, ?_, ?_, ?_, ?_, ?_⟩⟩
  · rw [hcounter]
    exact Finset.mem_insert_self _ _
  · rw [hsplit.key, hcounter, if_pos rfl, hsame.key]
    exact hextra.symm
  · rw [hsplit.value, hcounter, if_pos rfl]
    simp [View.split]
  · intro hal hdvd
    simp only [hcounter, View.split, upd_same, hsame.key]
    rw [hr.take_eq]
  intro hal hdvd _ hrest
  obtain ⟨k', hk'⟩ := getChildKey_ok cfg.pageSize (length_pos_iff.mp hrest)
  refine ⟨k', hk', Dict.get?_eq_none.mpr fun x hx => ?_⟩
  have hx' := (hsplit.children_new k' x).mp (by rw [hcounter]; exact hx)
  rw [hsame.key] at hx'
  -- the page of the key after the split differs from the one of the child
  have hpage := ((getChildKey_inj hx'.2 (length_pos_iff.mp hrest)).mp hk').2
  rcases hr.stops with hmin | hne
  · simp only [len, tokenIds_from, length_drop] at hrest hlen
    omega
  · exact hne hpage

end turn

variable {value : List Nat} {w : Walk} {t' : View}

theorem Walk.child_of_goesOn (h : w.goesOn = true) :
    w.broke = false ∧ 0 < w.key.len ∧ ∃ c, (w.cache.node w.node).children.get? w.childKey = some c := by
  simp only [Walk.goesOn, Bool.and_eq_true, Bool.not_eq_true', decide_eq_true_eq] at h
  exact ⟨h.1.1, h.1.2, Option.isSome_iff_exists.mp h.2⟩

theorem Walk.ends (h : w.goesOn = false) (hb : w.broke = false) (hpos : 0 < w.key.len) :
    (w.cache.node w.node).children.get? w.childKey = none := by
  simpa [Walk.goesOn, hb, hpos] using h

theorem nextChildKey_ok (cfg : Config) (key : RadixKey) (k : ChildKey) :
    ∃ k', nextChildKey cfg key k = .ok k' ∧ (0 < key.len → getChildKey cfg.pageSize key = .ok k') :=
  nextKey_ok cfg.pageSize key k

/-! ## `match_prefix` -/

/-- The invariant of the loop of `_match_prefix_helper`. -/
structure Matching (pageSize : Nat) (s : RadixCache) (t : View) (key : RadixKey) (w : Walk) (t' : View) : Prop where
  steps : Steps pageSize s t w.cache t'
  live : w.node ∈ t'.live
  extra : w.node = w.cache.rootNode ∨ key.extraKey = (w.cache.node w.node).key.extraKey
  key_extra : w.key.extraKey = key.extraKey
  childKey : 0 < w.key.len → getChildKey pageSize w.key = .ok w.childKey
  value : w.value.flatten = t'.slots w.node
  on : AlignedTree pageSize s → pageSize ∣ key.len → w.broke = false → key.tokenIds = t'.path w.node ++ w.key.tokenIds
  off : AlignedTree pageSize s → pageSize ∣ key.len → w.broke = true → Stops pageSize w.cache t' key w.node

theorem matchStep_spec (hps : 0 < cfg.pageSize) {key : RadixKey} (a : Int)
    (wf : Wf cfg.pageSize s t) (m : Matching cfg.pageSize s t key w t') (hc : w.goesOn = true) :
    ∃ w', matchStep cfg a w = .ok w' ∧ (∃ t'', Matching cfg.pageSize s t key w' t'') ∧
      (w'.broke = true ∨ (w'.broke = false ∧ w'.key.len < w.key.len)) := by
  obtain ⟨hb, hpos, c, hget⟩ := Walk.child_of_goesOn hc
  have wf' := m.steps.wf hps wf
  have hk := m.childKey hpos
  obtain ⟨hclive, hcr, hcn, hextra, hfirst⟩ := wf'.child m.live hpos hk hget
  have hkey := (touch_sameTree w.cache c a).key c
  obtain ⟨r, hr, hagrees⟩ := keyMatchFn_spec hps hextra
  have hr0 : 0 < r := lt_of_lt_of_le hps
    (hagrees.page_le (length_pos_iff.mp hcn.key_pos) (length_pos_iff.mp hpos) hfirst)
  have haligned : AlignedTree cfg.pageSize s → cfg.pageSize ∣ key.len → AlignedTree cfg.pageSize w.cache ∧
    cfg.pageSize ∣ w.key.len := by
    intro hal hdvd
    have hal' := m.steps.aligned hps wf hal
    exact ⟨hal', hal'.rest wf' m.live (m.on hal hdvd hb) hdvd⟩
  unfold matchStep
  rw [hget]
  simp only [hkey, hr, ok_bind]
  by_cases hlt : r < (w.cache.node c).key.len
  · obtain ⟨s', t'', hs', hreach⟩ := reached_split wf' m.live hpos hk hget hagrees hps hlt a
    rw [hkey] at hs'
    rw [if_pos hlt, hs']
    refine ⟨_, rfl, ⟨t'', ?_⟩, .inl rfl⟩
    refine ⟨m.steps.trans hreach.steps, hreach.live, .inr (m.key_extra ▸ hreach.extra), m.key_extra, m.childKey, ?_, ?_, ?_⟩
    · rw [flatten_append, m.value, hreach.slots]
      simp
    · nofun
    intro hal hdvd _
    obtain ⟨hal', hdvd'⟩ := haligned hal hdvd
    refine ⟨hreach.live, .inr (m.key_extra ▸ hreach.extra), w.key.tokenIds.drop r, ?_, fun hrest => ?_⟩
    · rw [hreach.path hal' hdvd', append_assoc, take_append_drop]
      exact m.on hal hdvd hb
    · have := hreach.stops hal' hdvd' rfl (length_pos_iff.mpr hrest)
      rwa [from_, m.key_extra] at this
  have hreach := reached_child wf' m.live hpos hk hget hagrees (Nat.le_of_not_lt hlt) a
  obtain ⟨k', hk', hck⟩ := nextChildKey_ok cfg (w.key.from_ r) w.childKey
  rw [if_neg hlt, hk']
  refine ⟨_, rfl, ⟨t', ?_⟩, .inr ⟨hb, ?_⟩⟩
  · refine ⟨m.steps.trans hreach.steps, hreach.live, .inr (m.key_extra ▸ hreach.extra), m.key_extra, hck, ?_, ?_, ?_⟩
    · rw [flatten_append, m.value, hreach.slots]
      simp
    · intro hal hdvd _
      obtain ⟨hal', hdvd'⟩ := haligned hal hdvd
      rw [hreach.path hal' hdvd', tokenIds_from, append_assoc, take_append_drop]
      exact m.on hal hdvd hb
    · intro _ _ hb'
      rw [hb] at hb'
      cases hb'
  · simp only [len, tokenIds_from, length_drop] at hpos ⊢
    omega

theorem readClock_sameTree (cfg : Config) (s : RadixCache) : SameTree s (readClock cfg s).1 :=
  ⟨rfl, rfl, fun _ => rfl, fun _ => rfl, fun _ => rfl, fun _ => rfl, rfl⟩

theorem readClock_sameLocks (cfg : Config) (s : RadixCache) : SameLocks s (readClock cfg s).1 := ⟨rfl, rfl, fun _ => rfl⟩

theorem matchPrefixHelper_spec (hps : 0 < cfg.pageSize) (wf : Wf cfg.pageSize s t) {key : RadixKey} (hpos : 0 < key.len) :
    ∃ w t', matchPrefixHelper cfg s s.rootNode key = .ok w ∧ Steps cfg.pageSize s t w.cache t' ∧ w.node ∈ t'.live ∧
      w.value.flatten = t'.slots w.node ∧
      (AlignedTree cfg.pageSize s → cfg.pageSize ∣ key.len → Stops cfg.pageSize w.cache t' key w.node) := by
  obtain ⟨k, hk⟩ := getChildKey_ok cfg.pageSize (length_pos_iff.mp hpos)
  set a := cfg.monotonic s.readings
  set s1 := (readClock cfg s).1.touch s.rootNode a with hs1
  have hstart : Matching cfg.pageSize s t key { cache := s1, node := s.rootNode, key, childKey := k } t := by
    have hroot : s1.rootNode = s.rootNode := rfl
    refine ⟨.still (.still .refl (readClock_sameTree cfg s) (readClock_sameLocks cfg s)) (touch_sameTree _ _ _)
      (touch_sameLocks _ _ _), wf.root_live, .inl hroot.symm, rfl, fun _ => hk, ?_, ?_, ?_⟩
    · rw [wf.root_slots]
      rfl
    · intro _ _ _
      rw [wf.root_path]
      rfl
    · nofun
  obtain ⟨w, hw, ⟨t', m⟩, hend⟩ := whileLoop_ok PyError.outOfFuel Walk.goesOn (matchStep cfg a)
    (fun w => ∃ t', Matching cfg.pageSize s t key w t') (fun w => if w.broke then 0 else w.key.len)
    (by
      rintro w ⟨t', m⟩ hc
      obtain ⟨hb, hpos', -⟩ := Walk.child_of_goesOn hc
      obtain ⟨w', hw', m', hless⟩ := matchStep_spec hps a wf m hc
      refine ⟨w', hw', m', ?_⟩
      rcases hless with h | ⟨h, hlt⟩
      · simpa [h, hb] using hpos'
      · simpa [h, hb] using hlt)
    (key.len + 1) _ ⟨t, hstart⟩ (le_succ _)
  refine ⟨w, t', ?_, m.steps, m.live, m.value, fun hal hdvd => ?_⟩
  · unfold matchPrefixHelper
    simp only [readClock, hk, ok_bind]
    exact hw
  rcases hb : w.broke with _ | _
  · refine ⟨m.live, m.extra, w.key.tokenIds, m.on hal hdvd hb, fun hrest => ?_⟩
    have hpos' : 0 < w.key.len := length_pos_iff.mpr hrest
    have hck := m.childKey hpos'
    refine ⟨w.childKey, ?_, Walk.ends hend hb hpos'⟩
    rw [← m.key_extra]
    exact hck
  · exact m.off hal hdvd hb

/-- The key that `match_prefix` looks up. -/
def lookupKey (cfg : Config) (key : RadixKey) : RadixKey :=
  ⟨(keyConvertFn cfg key.tokenIds).take (pageAlign cfg (keyConvertFn cfg key.tokenIds).length), key.extraKey⟩

theorem pageAlign_one (h : cfg.pageSize = 1) (n : Nat) : pageAlign cfg n = n := by
  unfold pageAlign
  rw [h, Nat.div_one, mul_one]

theorem lookupKey_aligned (cfg : Config) (key : RadixKey) : cfg.pageSize ∣ (lookupKey cfg key).len := by
  simp only [lookupKey, len, length_take]
  have : pageAlign cfg (keyConvertFn cfg key.tokenIds).length ≤ (keyConvertFn cfg key.tokenIds).length := div_mul_le_self _ _
  rw [min_eq_left this]
  exact dvd_mul_left _ _

theorem matchPrefix_spec (hps : 0 < cfg.pageSize) (hd : cfg.disable = false) (wf : Wf cfg.pageSize s t) (key : RadixKey) :
    ∃ s' t' n, matchPrefix cfg s key = .ok (s', ⟨t'.slots n, n⟩) ∧ Steps cfg.pageSize s t s' t' ∧ n ∈ t'.live ∧
      (AlignedTree cfg.pageSize s → Stops cfg.pageSize s' t' (lookupKey cfg key) n) := by
  have hroot : (lookupKey cfg key).tokenIds = [] → Stops cfg.pageSize s t (lookupKey cfg key) s.rootNode := fun h =>
    ⟨wf.root_live, .inl rfl, [], by rw [wf.root_path, h]; rfl, absurd rfl⟩
  unfold matchPrefix
  simp only [hd, Bool.false_eq_true, false_or]
  have hkey : (if cfg.pageSize ≠ 1 then
      upto { key with tokenIds := keyConvertFn cfg key.tokenIds }
        (pageAlign cfg (len { key with tokenIds := keyConvertFn cfg key.tokenIds }))
      else { key with tokenIds := keyConvertFn cfg key.tokenIds }) = lookupKey cfg key := by
    split
    · rfl
    rename_i h1
    unfold lookupKey
    rw [pageAlign_one (not_not.mp h1), take_length]
  by_cases h0 : len { key with tokenIds := keyConvertFn cfg key.tokenIds } = 0
  · refine ⟨s, t, s.rootNode, ?_, .refl, wf.root_live, fun _ => hroot ?_⟩
    · rw [if_pos h0, wf.root_slots]
    · have : keyConvertFn cfg key.tokenIds = [] := length_eq_zero_iff.mp h0
      simp [lookupKey, this]
  rw [if_neg h0, hkey]
  by_cases h1 : (lookupKey cfg key).len = 0
  · refine ⟨s, t, s.rootNode, ?_, .refl, wf.root_live, fun _ => hroot (length_eq_zero_iff.mp h1)⟩
    rw [if_pos h1, wf.root_slots]
  obtain ⟨w, t', hw, hsteps, hlive, hvalue, hstops⟩ := matchPrefixHelper_spec hps wf (pos_of_ne_zero h1)
  refine ⟨w.cache, t', w.node, ?_, hsteps, hlive, fun hal => hstops hal (lookupKey_aligned cfg key)⟩
  rw [if_neg h1, hw, ← hvalue]
  rfl

/-! ## `insert` -/

/-- The invariant of the loop of `_insert_helper`. -/
structure Inserting (pageSize : Nat) (s : RadixCache) (t : View) (key : RadixKey) (value : List Nat) (w : Walk)
    (t' : View) : Prop where
  steps : Steps pageSize s t w.cache t'
  live : w.node ∈ t'.live
  extra : w.node = w.cache.rootNode ∨ key.extraKey = (w.cache.node w.node).key.extraKey
  key_extra : w.key.extraKey = key.extraKey
  childKey : 0 < w.key.len → getChildKey pageSize w.key = .ok w.childKey
  broke : w.broke = false
  rest_len : w.rest.length = w.key.len
  on : AlignedTree pageSize s → pageSize ∣ key.len → key.tokenIds = t'.path w.node ++ w.key.tokenIds ∧
    w.totalPrefixLength = (t'.path w.node).length ∧ w.rest = value.drop w.totalPrefixLength

theorem insertStep_spec (hps : 0 < cfg.pageSize) {key : RadixKey} (a : Int)
    (wf : Wf cfg.pageSize s t) (m : Inserting cfg.pageSize s t key value w t') (hc : w.goesOn = true) :
    ∃ w', insertStep cfg a w = .ok w' ∧ (∃ t'', Inserting cfg.pageSize s t key value w' t'') ∧ w'.key.len < w.key.len := by
  obtain ⟨-, hpos, c, hget⟩ := Walk.child_of_goesOn hc
  have wf' := m.steps.wf hps wf
  have hk := m.childKey hpos
  obtain ⟨hclive, hcr, hcn, hextra, hfirst⟩ := wf'.child m.live hpos hk hget
  have hkey := (touch_sameTree w.cache c a).key c
  obtain ⟨r, hr, hagrees⟩ := keyMatchFn_spec hps hextra
  have hr0 : 0 < r := lt_of_lt_of_le hps
    (hagrees.page_le (length_pos_iff.mp hcn.key_pos) (length_pos_iff.mp hpos) hfirst)
  -- either way the turn ends at some node, `r` tokens further
  have hturn : ∃ s' t'' n', splitIfPartial cfg (w.cache.touch c a) c r = .ok (s', n') ∧
      Reached cfg.pageSize w.cache t' w.node w.key r s' t'' n' := by
    unfold splitIfPartial
    rw [hkey]
    by_cases hlt : r < (w.cache.node c).key.len
    · obtain ⟨s', t'', hs', hreach⟩ := reached_split wf' m.live hpos hk hget hagrees hps hlt a
      rw [hkey] at hs'
      exact ⟨s', t'', _, by rw [if_pos hlt, hs'], hreach⟩
    · exact ⟨_, t', c, by rw [if_neg hlt], reached_child wf' m.live hpos hk hget hagrees (Nat.le_of_not_lt hlt) a⟩
  obtain ⟨s', t'', n', hs', hreach⟩ := hturn
  obtain ⟨k', hk', hck⟩ := nextChildKey_ok cfg (w.key.from_ r) w.childKey
  have hkeylen : (w.key.from_ r).len = w.key.len - r := by simp [len]
  unfold insertStep
  rw [hget]
  simp only [hkey, hr, ok_bind, hs', hk']
  refine ⟨_, rfl, ⟨t'', ?_⟩, hkeylen ▸ sub_lt hpos hr0⟩
  refine ⟨m.steps.trans hreach.steps, hreach.live, .inr (m.key_extra ▸ hreach.extra), m.key_extra, hck, m.broke, ?_, ?_⟩
  · simp [hkeylen, m.rest_len]
  intro hal hdvd
  obtain ⟨hon, htotal, hrest⟩ := m.on hal hdvd
  have hal' := m.steps.aligned hps wf hal
  have hdvd' := hal'.rest wf' m.live hon hdvd
  have hle := hagrees.le_min (hal' c (wf'.live_known c hclive) hcr) hdvd'
  refine ⟨?_, ?_, ?_⟩
  · rw [hreach.path hal' hdvd', tokenIds_from, append_assoc, take_append_drop]
    exact hon
  · rw [hreach.path hal' hdvd', length_append, length_take, ← htotal, min_eq_left (by omega)]
  · rw [hrest, drop_drop]

/-- What `insert` did: the walk came to an end at a node, and what was left of the key, if
    anything, became a new leaf there. -/
inductive Inserted (pageSize : Nat) (s : RadixCache) (t : View) (key : RadixKey) (value : List Nat) :
    RadixCache → View → Nat → Prop where
  | present {s1 t1 n r} : Steps pageSize s t s1 t1 → n ∈ t1.live →
      (n = s1.rootNode ∨ key.extraKey = (s1.node n).key.extraKey) →
      (AlignedTree pageSize s → pageSize ∣ key.len → key.tokenIds = t1.path n ∧ r = key.len) →
      Inserted pageSize s t key value s1 t1 r
  | leaf {s1 t1 n r s2 k rest restValue} : Steps pageSize s t s1 t1 → n ∈ t1.live →
      (n = s1.rootNode ∨ key.extraKey = (s1.node n).key.extraKey) → Grown s1 s2 n k rest restValue → 0 < rest.len →
      rest.extraKey = key.extraKey → restValue.length = rest.len → getChildKey pageSize rest = .ok k →
      (s1.node n).children.get? k = none →
      (AlignedTree pageSize s → pageSize ∣ key.len →
        key.tokenIds = t1.path n ++ rest.tokenIds ∧ r = (t1.path n).length ∧ restValue = value.drop r) →
      Inserted pageSize s t key value s2 (t1.grow n s1.counter rest.tokenIds restValue) r

theorem Inserted.wf (hps : 0 < pageSize) (w : Wf pageSize s t) {key : RadixKey} {r : Nat}
    (h : Inserted pageSize s t key value s' t' r) : Wf pageSize s' t' := by
  cases h with
  | present hsteps _ _ _ => exact hsteps.wf hps w
  | leaf hsteps hlive hextra hgrown hpos hrest hlen hk hfree _ =>
    exact (hsteps.wf hps w).grow hgrown hlive hpos hlen hk hfree (hrest ▸ hextra)

theorem insertHelper_spec (hps : 0 < cfg.pageSize) (wf : Wf cfg.pageSize s t) (key : RadixKey) (hlen : value.length = key.len) :
    ∃ s' t' r, insertHelper cfg s s.rootNode key value = .ok (s', r) ∧ Inserted cfg.pageSize s t key value s' t' r := by
  set a := cfg.monotonic s.readings
  set s1 := (readClock cfg s).1.touch s.rootNode a with hs1
  have hsteps : Steps cfg.pageSize s t s1 t :=
    .still (.still .refl (readClock_sameTree cfg s) (readClock_sameLocks cfg s)) (touch_sameTree _ _ _) (touch_sameLocks _ _ _)
  have hroot : s1.rootNode = s.rootNode := rfl
  by_cases h0 : key.len = 0
  · refine ⟨s1, t, 0, ?_, .present hsteps wf.root_live (.inl hroot.symm) fun _ _ => ?_⟩
    · unfold insertHelper
      simp only [readClock, h0, if_true]
      rfl
    · rw [wf.root_path]
      exact ⟨length_eq_zero_iff.mp h0, h0.symm⟩
  obtain ⟨k, hk⟩ := getChildKey_ok cfg.pageSize (length_pos_iff.mp (pos_of_ne_zero h0))
  have hstart : Inserting cfg.pageSize s t key value { cache := s1, node := s.rootNode, key, childKey := k, rest := value }
    t := by
    refine ⟨hsteps, wf.root_live, .inl hroot.symm, rfl, fun _ => hk, rfl, hlen, fun _ _ => ?_⟩
    rw [wf.root_path]
    exact ⟨rfl, rfl, rfl⟩
  obtain ⟨w, hw, ⟨t', m⟩, hend⟩ := whileLoop_ok PyError.outOfFuel Walk.goesOn (insertStep cfg a)
    (fun w => ∃ t', Inserting cfg.pageSize s t key value w t') (fun w => w.key.len)
    (by
      rintro w ⟨t', m⟩ hc
      exact insertStep_spec hps a wf m hc)
    (key.len + 1) _ ⟨t, hstart⟩ (le_succ _)
  have hres : insertHelper cfg s s.rootNode key value = .ok (addLeaf cfg w, w.totalPrefixLength) := by
    unfold insertHelper
    simp only [readClock, h0, if_false, hk, ok_bind]
    exact congrArg (fun x => x >>= fun w : Walk => pure (addLeaf cfg w, w.totalPrefixLength)) hw
  by_cases hpos : 0 < w.key.len
  · have wf' := m.steps.wf hps wf
    refine ⟨_, _, _, hres, .leaf m.steps m.live m.extra
      (addLeaf_spec cfg hpos (wf'.live_known _ m.live).ne_counter) hpos m.key_extra m.rest_len (m.childKey hpos)
      (Walk.ends hend m.broke hpos) m.on⟩
  have hnil : w.key.tokenIds = [] := length_eq_zero_iff.mp (Nat.eq_zero_of_not_pos hpos)
  have hsame : addLeaf cfg w = w.cache := by
    unfold addLeaf
    rw [if_neg hpos]
  refine ⟨_, _, _, hsame ▸ hres, .present m.steps m.live m.extra fun hal hdvd => ?_⟩
  obtain ⟨hon, htotal, -⟩ := m.on hal hdvd
  rw [hnil, append_nil] at hon
  exact ⟨hon, by rw [htotal, ← hon]; rfl⟩

/-- The key that `insert` files the value under. -/
def insertKey (cfg : Config) (key : RadixKey) : RadixKey := ⟨keyConvertFn cfg key.tokenIds, key.extraKey⟩

theorem insert_spec (hps : 0 < cfg.pageSize) (hd : cfg.disable = false) (wf : Wf cfg.pageSize s t) (key : RadixKey)
    (hlen : value.length = (insertKey cfg key).len ∨
      (cfg.isEagle = true ∧ (insertKey cfg key).len ≤ value.length)) : ∃ s' t' r,
      RadixCache.insert cfg s key value = .ok (s', r) ∧
      Inserted cfg.pageSize s t (insertKey cfg key) (value.take (insertKey cfg key).len) s' t' r := by
  have htake : (if cfg.isEagle then value.take (insertKey cfg key).len else value) = value.take (insertKey cfg key).len := by
    split
    · rfl
    rename_i he
    rcases hlen with h | ⟨h, -⟩
    · rw [← h, take_length]
    · exact absurd h he
  have hlen' : (value.take (insertKey cfg key).len).length = (insertKey cfg key).len := by
    rw [length_take]
    omega
  obtain ⟨s', t', r, hs', h⟩ := insertHelper_spec hps wf (insertKey cfg key) hlen'
  refine ⟨s', t', r, ?_, h⟩
  unfold RadixCache.insert
  simp only [hd, Bool.false_eq_true, if_false]
  rw [← hs', ← htake]
  rfl

end RadixCache

end DynaSpec.MemCache
