/-
  DynaSpec.MemCache.HiRadixShape — the shape of the hierarchical cache's tree.

  A key is read as the word of its pages, so that the nodes form a tree of `Lib.EdgeTree`
  (`Wf`). `insertHelperHost` adds to the host slots of the tree what it did not find there and
  takes nothing away (`insertHelperHost_spec`). `evictHost` gives host slots back to the pool
  with the nodes that held them, and leaves the nodes that are protected (`evictHost_spec`).
-/

import DynaSpec.Lib.EdgeTree
import DynaSpec.MemCache.HiRadixTree
import DynaSpec.MemCache.RadixWalk

namespace DynaSpec.MemCache.HiRadix

open DynaSpec.Lib Finset HiTree Option Nat EdgeTree Dict Heapq
open Prod (snd)
open List (drop nodup_cons range take)

variable {p n m c : NodeId} {x : ChildKey} {live' : Finset NodeId} {hostValue : List Nat} {key : RadixKey} {t : HostWalk}
  {r : Nat}

namespace HiTree

def arena (pageSize : Nat) (s : HiTree) : EdgeTree ChildKey where
  label n := word pageSize (s.node n).key
  parent n := (s.node n).parent
  child n x := (s.node n).children.get? x
  next := s.counter

structure Wf (pageSize : Nat) (s : HiTree) (live : Finset NodeId) (path : NodeId → List ChildKey) : Prop where
  shape : (s.arena pageSize).Shape live path
  aligned : ∀ n ∈ live, pageSize ∣ (s.node n).key.len
  stored : ∀ n ∈ live, (s.node n).value = none → (s.node n).hostValue ≠ none
  root_value : (s.node 0).value ≠ none
  root_host : (s.node 0).hostValue = some []

/-- How often a slot is among the host slots of the nodes. -/
def held (s : HiTree) (live : Finset NodeId) (x : Nat) : Nat := ∑ n ∈ live, ((s.node n).hostValue.getD []).count x

@[simp] theorem node_modify_same (s : HiTree) (n : NodeId) (f : TreeNode → TreeNode) : (s.modify n f).node n = f (s.node n) := by
  simp [modify]

theorem node_modify_ne (s : HiTree) (f : TreeNode → TreeNode) (h : m ≠ n) : (s.modify n f).node m = s.node m := by
  simp [modify, upd, h]

theorem wf_reset (cfg : Config) (s : HiTree) : (s.reset cfg).Wf cfg.pageSize {0} fun _ => [] := by
  have hnode : ((s.reset cfg).node 0).key = ⟨[], none⟩ ∧ ((s.reset cfg).node 0).parent = none ∧
    ((s.reset cfg).node 0).children = empty ∧
      ((s.reset cfg).node 0).value = some [] ∧ ((s.reset cfg).node 0).hostValue = some [] := by
    simp [reset, newTreeNode, modify]
  obtain ⟨hkey, hparent, hchildren, hvalue, hhost⟩ := hnode
  have h0 : ∀ {n : NodeId}, n ∈ ({0} : Finset NodeId) → n = 0 := mem_singleton.mp
  refine ⟨.single (word_eq_nil (by rw [hkey]; rfl)) hparent zero_lt_one fun x => ?_, fun n hn => ?_, fun n hn => ?_, ?_, hhost⟩
  · exact (congrArg (·.get? x) hchildren).trans (get?_empty x)
  · rw [h0 hn, hkey]
    exact dvd_zero _
  · rw [h0 hn, hvalue]
    intro h
    cases h
  · rw [hvalue]
    exact Option.some_ne_none _

variable {pageSize : Nat} {s s' : HiTree} {live : Finset NodeId} {path : NodeId → List ChildKey}

theorem sum_change {f g : NodeId → Nat} (hm : m ∈ live) (h : ∀ x ∈ live, x ≠ m → g x = f x) :
    ∑ n ∈ live, g n + f m = ∑ n ∈ live, f n + g m := by
  have hf := add_sum_erase live f hm
  have hg := add_sum_erase live g hm
  have hrest : ∑ x ∈ live.erase m, g x = ∑ x ∈ live.erase m, f x :=
    sum_congr rfl fun x hx => h x (mem_of_mem_erase hx) (ne_of_mem_erase hx)
  omega

/-! ## What leaves the tree as it is -/

/-- Times, locks and counters may change. -/
structure Same (s s' : HiTree) : Prop where
  counter : s'.counter = s.counter
  children : ∀ n, (s'.node n).children = (s.node n).children
  parent : ∀ n, (s'.node n).parent = (s.node n).parent
  key : ∀ n, (s'.node n).key = (s.node n).key
  value : ∀ n, (s'.node n).value = (s.node n).value
  hostValue : ∀ n, (s'.node n).hostValue = (s.node n).hostValue

theorem Same.arena (h : Same s s') : s'.arena pageSize = s.arena pageSize := by
  simp [HiTree.arena, h.counter, h.children, h.parent, h.key]

/-- Nodes that keep their keys and values, in a tree of another shape. -/
theorem Wf.keep (w : Wf pageSize s live path) (hlive : live' ⊆ live) (hshape : (s'.arena pageSize).Shape live' path)
    (hnode : ∀ n, (s'.node n).key = (s.node n).key ∧ (s'.node n).value = (s.node n).value ∧
    (s'.node n).hostValue = (s.node n).hostValue) :
    Wf pageSize s' live' path where
  shape := hshape
  aligned n hn := by
    rw [(hnode n).1]
    exact w.aligned n (hlive hn)
  stored n hn := by
    rw [(hnode n).2.1, (hnode n).2.2]
    exact w.stored n (hlive hn)
  root_value := by
    rw [(hnode 0).2.1]
    exact w.root_value
  root_host := by
    rw [(hnode 0).2.2]
    exact w.root_host

theorem Wf.same (w : Wf pageSize s live path) (h : Same s s') : Wf pageSize s' live path :=
  w.keep (Finset.Subset.refl live) (h.arena ▸ w.shape) fun n => ⟨h.key n, h.value n, h.hostValue n⟩

theorem Same.held (h : Same s s') (x : Nat) : s'.held live x = s.held live x := by
  simp [HiTree.held, h.hostValue]

/-- A change of one node that keeps what the tree is made of. -/
theorem same_modify {f : TreeNode → TreeNode}
    (hf : ∀ node, (f node).children = node.children ∧ (f node).parent = node.parent ∧ (f node).key = node.key ∧
      (f node).value = node.value ∧ (f node).hostValue = node.hostValue) : Same s (s.modify n f) := by
  refine ⟨rfl, fun m => ?_, fun m => ?_, fun m => ?_, fun m => ?_, fun m => ?_⟩
  all_goals
    by_cases h : m = n <;> simp [modify, upd, h, hf]

theorem same_touch (cfg : Config) (n : NodeId) : Same s (s.touch cfg n) := by
  refine ⟨rfl, fun m => ?_, fun m => ?_, fun m => ?_, fun m => ?_, fun m => ?_⟩
  all_goals
    by_cases h : m = n <;> simp [touch, modify, upd, h]

theorem hostRefCounter_touch (cfg : Config) (n m : NodeId) :
    ((s.touch cfg n).node m).hostRefCounter = (s.node m).hostRefCounter := by
  simp only [touch, modify, upd]
  split <;> rename_i h
  · rw [h]
  · rfl

/-! ## Nodes of the tree -/

namespace Wf

variable (w : Wf pageSize s live path)
include w

theorem ne_counter (hn : n ∈ live) : n ≠ s.counter := w.shape.ne_next hn

theorem key_pos (hn : n ∈ live) (h0 : n ≠ 0) : 0 < (s.node n).key.len :=
  len_pos_of_word (w.shape.label_ne_nil hn h0)

theorem child (hp : p ∈ live) (hc : (s.node p).children.get? x = some c) :
    c ∈ live ∧ c ≠ 0 ∧ (s.node c).parent = some p ∧ (word pageSize (s.node c).key).head? = some x :=
  w.shape.down p hp x c hc

end Wf

/-! ## Splitting a node -/

structure Split (pageSize : Nat) (s s' : HiTree) (p c : NodeId) (x : ChildKey) (r : Nat) : Prop where
  counter : s'.counter = s.counter + 1
  arena : ∃ y, (word pageSize ((s.node c).key.from_ r)).head? = some y ∧
    s'.arena pageSize = (s.arena pageSize).split p x c (word pageSize ((s.node c).key.upto r))
    (word pageSize ((s.node c).key.from_ r)) y
  key : ∀ m, (s'.node m).key = if m = s.counter then (s.node c).key.upto r else if m = c then (s.node c).key.from_ r
    else (s.node m).key
  value : ∀ m, (s'.node m).value = if m = s.counter then (s.node c).value.map (take r) else
    if m = c then (s.node c).value.map (drop r) else (s.node m).value
  hostValue : ∀ m, (s'.node m).hostValue = if m = s.counter then (s.node c).hostValue.map (take r) else
    if m = c then (s.node c).hostValue.map (drop r) else (s.node m).hostValue
  hostRefCounter : ∀ m, m ≠ s.counter → (s'.node m).hostRefCounter = (s.node m).hostRefCounter

variable (cfg : Config)

theorem splitNode_spec (hps : 0 < cfg.pageSize) (w : Wf cfg.pageSize s live path)
    (hp : p ∈ live) (hc : (s.node p).children.get? x = some c) (hr : cfg.pageSize ∣ r) (hlt : r < (s.node c).key.len) :
    ∃ s', splitNode cfg s (s.node c).key c r = .ok (s', s.counter) ∧ Split cfg.pageSize s s' p c x r := by
  obtain ⟨hclive, hc0, hcp, hcx⟩ := w.child hp hc
  have hcn := w.ne_counter hclive
  have hpn := w.ne_counter hp
  have hfirst := getChildKey_of_head hps (w.aligned c hclive) hcx
  have hrest := (s.node c).key.len_from r
  have hrest_pos : 0 < ((s.node c).key.from_ r).len := by omega
  have hrest_dvd : cfg.pageSize ∣ ((s.node c).key.from_ r).len := by
    rw [hrest]
    exact dvd_sub (w.aligned c hclive) hr
  obtain ⟨y, hy⟩ := getChildKey_ok cfg.pageSize (List.ne_nil_of_length_pos hrest_pos)
  have hyhead := word_head hps hrest_pos hrest_dvd hy
  unfold splitNode
  simp only [newTreeNode, hy, upd_ne _ _ hcn, hcp, hfirst, bind, Except.bind, pure, Except.pure]
  refine ⟨_, rfl, rfl,
    ⟨y, hyhead, EdgeTree.ext (funext fun m => ?_) (funext fun m => ?_) (funext fun m => funext fun z => ?_) rfl⟩,
    fun m => ?_, fun m => ?_, fun m => ?_, fun m hm => ?_⟩
  -- where each of the three nodes ends up
  all_goals
    simp only [arena, EdgeTree.split, modify, upd]
    by_cases h1 : m = p <;> by_cases h2 : m = c <;> by_cases h3 : m = s.counter <;> simp_all [get?_set]

theorem Wf.split (hps : 0 < pageSize) (w : Wf pageSize s live path) (hp : p ∈ live)
    (hc : (s.node p).children.get? x = some c) (hr : pageSize ∣ r) (hr0 : 0 < r) (hlt : r < (s.node c).key.len)
    (h : Split pageSize s s' p c x r) :
    ∃ path', Wf pageSize s' (insert s.counter live) path' ∧ ∀ slot, s'.held (insert s.counter live) slot = s.held live slot := by
  obtain ⟨hclive, hc0, hcp, hcx⟩ := w.child hp hc
  have hcn := w.ne_counter hclive
  have h0n : (0 : NodeId) ≠ s.counter := w.ne_counter w.shape.root_live
  obtain ⟨y, hy, harena⟩ := h.arena
  have hlen := RadixKey.len_upto (le_of_lt hlt)
  have hupper : word pageSize ((s.node c).key.upto r) ≠ [] := word_ne_nil hps (by omega) (by rw [hlen]; exact hr)
  have hshape := w.shape.split hp hc (word_split hps hr (le_of_lt hlt)) hupper hy
  refine ⟨_, ⟨harena ▸ hshape, ?_, ?_, ?_, ?_⟩, ?_⟩
  · intro n hn
    rw [h.key]
    split_ifs with h1 h2
    · rw [hlen]
      exact hr
    · rw [RadixKey.len_from]
      exact dvd_sub (w.aligned c hclive) hr
    · exact w.aligned n ((mem_insert.mp hn).resolve_left h1)
  · intro n hn
    rw [h.value, h.hostValue]
    have := w.stored c hclive
    split_ifs with h1 h2
    · simpa using this
    · simpa using this
    · exact w.stored n ((mem_insert.mp hn).resolve_left h1)
  · rw [h.value, if_neg h0n, if_neg (Ne.symm hc0)]
    exact w.root_value
  · rw [h.hostValue, if_neg h0n, if_neg (Ne.symm hc0)]
    exact w.root_host
  · intro slot
    have hfresh : s.counter ∉ live := fun hn => w.ne_counter hn rfl
    have hsum : s'.held live slot + ((s.node c).hostValue.getD []).count slot =
        s.held live slot + ((s'.node c).hostValue.getD []).count slot :=
      sum_change (f := fun n => ((s.node n).hostValue.getD []).count slot) hclive fun n hn hne => by
        rw [h.hostValue, if_neg (w.ne_counter hn), if_neg hne]
    have hparts : ((s'.node s.counter).hostValue.getD []).count slot + ((s'.node c).hostValue.getD []).count slot =
        ((s.node c).hostValue.getD []).count slot := by
      rw [h.hostValue, h.hostValue, if_pos rfl, if_neg hcn, if_pos rfl]
      cases (s.node c).hostValue with
      | none => rfl
      | some l =>
        simp only [map_some, getD_some]
        rw [← List.count_append, List.take_append_drop]
    have hins : s'.held (insert s.counter live) slot = ((s'.node s.counter).hostValue.getD []).count slot + s'.held live slot :=
      sum_insert hfresh
    omega

/-! ## A new leaf -/

structure Grown (pageSize : Nat) (s s' : HiTree) (p : NodeId) (x : ChildKey) (key : RadixKey) (hostValue : List Nat) : Prop where
  arena : s'.arena pageSize = (s.arena pageSize).grow p x (word pageSize key)
  key : ∀ m, (s'.node m).key = if m = s.counter then key else (s.node m).key
  value : ∀ m, (s'.node m).value = if m = s.counter then none else (s.node m).value
  hostValue : ∀ m, (s'.node m).hostValue = if m = s.counter then some hostValue else (s.node m).hostValue
  hostRefCounter : ∀ m, m ≠ s.counter → (s'.node m).hostRefCounter = (s.node m).hostRefCounter

theorem addHostLeaf_spec (hlen : 0 < t.key.len) (hn : t.node ≠ t.tree.counter) :
    Grown cfg.pageSize t.tree (addHostLeaf cfg t) t.node t.childKey t.key t.hostValue := by
  unfold addHostLeaf
  rw [if_pos hlen]
  simp only [newTreeNode]
  refine ⟨EdgeTree.ext (funext fun m => ?_) (funext fun m => ?_) (funext fun m => funext fun z => ?_) rfl, fun m => ?_,
    fun m => ?_, fun m => ?_, fun m hm => ?_⟩
  all_goals
    simp only [arena, EdgeTree.grow, modify, upd]
    by_cases h1 : m = t.node <;> by_cases h3 : m = t.tree.counter <;> simp_all [get?_set]

theorem Wf.grow (hps : 0 < pageSize) (w : Wf pageSize s live path)
    (hp : p ∈ live) (hfree : (s.node p).children.get? x = none) (hpos : 0 < key.len) (hdvd : pageSize ∣ key.len)
    (hx : getChildKey pageSize key = .ok x) (h : Grown pageSize s s' p x key hostValue) :
    ∃ path', Wf pageSize s' (insert s.counter live) path' ∧
      ∀ slot, s'.held (insert s.counter live) slot = s.held live slot + hostValue.count slot := by
  have h0n : (0 : NodeId) ≠ s.counter := w.ne_counter w.shape.root_live
  have hshape := w.shape.grow hp (word_head hps hpos hdvd hx) hfree
  refine ⟨_, ⟨h.arena ▸ hshape, ?_, ?_, ?_, ?_⟩, ?_⟩
  · intro n hn
    rw [h.key]
    split_ifs with h1
    · exact hdvd
    · exact w.aligned n ((mem_insert.mp hn).resolve_left h1)
  · intro n hn
    rw [h.value, h.hostValue]
    split_ifs with h1
    · simp
    · exact w.stored n ((mem_insert.mp hn).resolve_left h1)
  · rw [h.value, if_neg h0n]
    exact w.root_value
  · rw [h.hostValue, if_neg h0n]
    exact w.root_host
  · intro slot
    have hfresh : s.counter ∉ live := fun hn => w.ne_counter hn rfl
    have hold : s'.held live slot = s.held live slot :=
      sum_congr rfl fun n hn => by rw [h.hostValue, if_neg (w.ne_counter hn)]
    have hnew : ((s'.node s.counter).hostValue.getD []).count slot = hostValue.count slot := by
      rw [h.hostValue, if_pos rfl]
      rfl
    have hins : s'.held (insert s.counter live) slot = ((s'.node s.counter).hostValue.getD []).count slot + s'.held live slot :=
      sum_insert hfresh
    rw [hins, hold, hnew, add_comm]

/-! ## `_insert_helper_host` -/

/-- A walk down that has matched `matchedLength` tokens. -/
structure Walking (cfg : Config) (s : HiTree) (live : Finset NodeId) (key : RadixKey) (hostValue : List Nat) (t : HostWalk)
    (live' : Finset NodeId) (path : NodeId → List ChildKey) : Prop where
  wf : Wf cfg.pageSize t.tree live' path
  node : t.node ∈ live'
  grows : live ⊆ live'
  held : ∀ slot, t.tree.held live' slot = s.held live slot
  refs : ∀ n ∈ live, (t.tree.node n).hostRefCounter = (s.node n).hostRefCounter
  rest : t.key = key.from_ t.matchedLength
  restValue : t.hostValue = hostValue.drop t.matchedLength
  aligned : cfg.pageSize ∣ t.matchedLength
  le : t.matchedLength ≤ key.len
  childKey : 0 < t.key.len → getChildKey cfg.pageSize t.key = .ok t.childKey

theorem Walking.key_len (h : Walking cfg s live key hostValue t live' path) : t.key.len = key.len - t.matchedLength := by
  rw [h.rest]
  exact key.len_from _

theorem insertHostStep_spec (hps : 0 < cfg.pageSize)
    (hkey : cfg.pageSize ∣ key.len) (h : Walking cfg s live key hostValue t live' path) (hgo : t.goesOn = true) :
    ∃ t' live'' path', insertHostStep cfg t = .ok t' ∧ Walking cfg s live key hostValue t' live'' path' ∧
    t'.key.len < t.key.len := by
  simp only [HostWalk.goesOn, Bool.and_eq_true, decide_eq_true_eq, isSome_iff_exists] at hgo
  obtain ⟨hpos, c, hc⟩ := hgo
  have hsame := same_touch (s := t.tree) cfg c
  have w := h.wf.same hsame
  have hc' : ((t.tree.touch cfg c).node t.node).children.get? t.childKey = some c := by
    rw [hsame.children]
    exact hc
  obtain ⟨hclive, hc0, -, hcx⟩ := w.child h.node hc'
  have hlen := h.key_len
  have hdvd : cfg.pageSize ∣ t.key.len := by
    rw [hlen]
    exact dvd_sub hkey h.aligned
  obtain ⟨r, hr, hrdvd, hr0, hrc, hrk, -, -⟩ := keyMatchFn_filed hps (w.key_pos hclive hc0) hpos (w.aligned c hclive) hdvd
    (getChildKey_of_head hps (w.aligned c hclive) hcx) (h.childKey hpos)
  have hlen' := t.key.len_from r
  -- the key of the next turn
  obtain ⟨ck, hck, hck'⟩ := RadixCache.nextChildKey_ok cfg (t.key.from_ r) t.childKey
  have hrest : t.key.from_ r = key.from_ (t.matchedLength + r) ∧ t.hostValue.drop r = hostValue.drop (t.matchedLength + r) := by
    rw [h.rest, h.restValue, List.drop_drop]
    exact ⟨by simp [RadixKey.from_, List.drop_drop], rfl⟩
  have hle : t.matchedLength + r ≤ key.len := by
    omega
  have hrefs := hostRefCounter_touch (s := t.tree) cfg c
  -- either way the turn ends at some node
  obtain ⟨s', n', live'', path', hs', w', hn', hsub, hheld, hrefs'⟩ : ∃ s' n' live'' path',
    splitIfPartial cfg (t.tree.touch cfg c) c r = .ok (s', n') ∧
      Wf cfg.pageSize s' live'' path' ∧ n' ∈ live'' ∧ live' ⊆ live'' ∧ (∀ slot, s'.held live'' slot = t.tree.held live' slot) ∧
      ∀ n ∈ live', (s'.node n).hostRefCounter = (t.tree.node n).hostRefCounter := by
    unfold splitIfPartial
    by_cases hpart : r < ((t.tree.touch cfg c).node c).key.len
    · obtain ⟨s', hs', hsplit⟩ := splitNode_spec cfg hps w h.node hc' hrdvd hpart
      obtain ⟨path', w', hheld⟩ := w.split hps h.node hc' hrdvd hr0 hpart hsplit
      refine ⟨s', _, _, path', by rw [if_pos hpart, hs'], w', mem_insert_self _ _, subset_insert _ _, fun slot => ?_,
        fun n hn => ?_⟩
      · rw [hheld, hsame.held]
      · rw [hsplit.hostRefCounter n (w.ne_counter hn), hrefs]
    · exact ⟨_, c, live', path, by rw [if_neg hpart], w, hclive, Finset.Subset.refl _, hsame.held, fun n _ => hrefs n⟩
  unfold insertHostStep
  rw [hc]
  simp only [hr, hck, hs', ok_bind]
  refine ⟨_, live'', path', rfl, ⟨w', hn', h.grows.trans hsub, fun slot => ?_, fun n hn => ?_, hrest.1, hrest.2,
    Nat.dvd_add h.aligned hrdvd, hle, hck'⟩, by rw [hlen']; omega⟩
  · rw [hheld, h.held]
  · rw [hrefs' n (h.grows hn), h.refs n hn]

/-- What was found is reported, and what was not becomes part of the tree. -/
theorem insertHelperHost_spec (hps : 0 < cfg.pageSize) (w : Wf cfg.pageSize s live path) {node : NodeId} (hnode : node ∈ live)
    (hkey : cfg.pageSize ∣ key.len) (hostValue : List Nat) (hashValue : List Hash) (hlen : hostValue.length = key.len) :
    ∃ s' matched live' path', insertHelperHost cfg s node key hostValue hashValue = .ok (s', matched) ∧
    Wf cfg.pageSize s' live' path' ∧
      live ⊆ live' ∧ matched ≤ key.len ∧ (∀ slot, s'.held live' slot = s.held live slot + (hostValue.drop matched).count slot) ∧
      ∀ n ∈ live, (s'.node n).hostRefCounter = (s.node n).hostRefCounter := by
  have hsame := same_touch (s := s) cfg node
  have w' := w.same hsame
  have hrefs : ∀ n, ((s.touch cfg node).node n).hostRefCounter = (s.node n).hostRefCounter := hostRefCounter_touch cfg node
  unfold insertHelperHost
  by_cases h0 : key.len = 0
  · have hnil : hostValue = [] := List.length_eq_zero_iff.mp (hlen.trans h0)
    refine ⟨_, 0, live, path, by rw [if_pos h0]; rfl, w', Finset.Subset.refl _, zero_le _, fun slot => ?_, fun n _ => hrefs n⟩
    rw [hsame.held, hnil]
    rfl
  obtain ⟨ck, hck⟩ := getChildKey_ok cfg.pageSize (List.length_pos_iff.mp (pos_of_ne_zero h0))
  obtain ⟨t, m, hrun, ⟨live', path', h, -⟩, hend⟩ := whileLoop_bound PyError.outOfFuel HostWalk.goesOn (insertHostStep cfg)
    (fun t m => ∃ live' path', Walking cfg s live key hostValue t live' path' ∧ m = t.key.len)
    (by
      intro t m ht hgo
      obtain ⟨live', path', h, rfl⟩ := ht
      obtain ⟨t', live'', path'', hs', h', hlt⟩ := insertHostStep_spec cfg hps hkey h hgo
      exact ⟨t', _, hs', ⟨live'', path'', h', rfl⟩, hlt⟩)
    key.len ⟨s.touch cfg node, node, key, ck, hostValue, hashValue, 0⟩ _
    ⟨live, path, ⟨w', hnode, Finset.Subset.refl _, hsame.held, fun n _ => hrefs n, rfl, rfl, dvd_zero _, zero_le _,
      fun _ => hck⟩, rfl⟩
    (le_refl _)
  rw [if_neg h0, hck, ok_bind, hrun]
  by_cases hpos : 0 < t.key.len
  · -- the loop has ended at a node without the child
    have hfree : (t.tree.node t.node).children.get? t.childKey = none := by
      simp only [HostWalk.goesOn, hpos, decide_true, Bool.true_and] at hend
      exact not_isSome_iff_eq_none.mp (by simpa using hend)
    have hdvd : cfg.pageSize ∣ t.key.len := by
      rw [h.key_len]
      exact dvd_sub hkey h.aligned
    have hgrown := addHostLeaf_spec cfg hpos (h.wf.ne_counter h.node)
    obtain ⟨path'', w'', hheld⟩ := h.wf.grow hps h.node hfree hpos hdvd (h.childKey hpos) hgrown
    refine ⟨_, _, _, path'', rfl, w'', h.grows.trans (subset_insert _ _), h.le, ?_, ?_⟩
    · intro slot
      rw [hheld, h.held, h.restValue]
    · intro n hn
      rw [hgrown.hostRefCounter n (h.wf.ne_counter (h.grows hn)), h.refs n hn]
  have hleaf : addHostLeaf cfg t = t.tree := by
    unfold addHostLeaf
    rw [if_neg hpos]
  refine ⟨_, _, live', path', rfl, hleaf ▸ h.wf, h.grows, h.le, ?_, ?_⟩
  · intro slot
    have hall : hostValue.drop t.matchedLength = [] := by
      rw [List.drop_eq_nil_iff, hlen]
      have := h.key_len
      omega
    rw [hleaf, h.held, hall]
    rfl
  · intro n hn
    rw [hleaf, h.refs n hn]

/-! ## `_collect_leaves` -/

theorem mem_values : c ∈ (s.node m).children.values ↔ ∃ x, (s.arena pageSize).child m x = some c := by
  rw [Dict.mem_values]
  simp [arena, Dict.get?_eq_some]

namespace Wf

variable (w : Wf pageSize s live path)
include w

theorem values_nodup (hm : m ∈ live) : (s.node m).children.values.Nodup := by
  refine Dict.values_nodup fun x y c hx hy => ?_
  exact some.inj ((w.child hm hx).2.2.2.symm.trans (w.child hm hy).2.2.2)

theorem card_live : live.card ≤ s.counter := by
  have hsub : live ⊆ range s.counter := fun n hn => mem_range.mpr (w.shape.lt_next n hn)
  simpa using card_le_card hsub

end Wf

theorem Wf.rooted (w : Wf pageSize s live path) :
    Rooted (· ∈ live) 0 (fun n => (s.node n).parent) fun n => (s.node n).children.values where
  root_live := w.shape.root_live
  nodup _ := w.values_nodup
  mem p hp c := by
    rw [mem_values]
    constructor
    · rintro ⟨x, hx⟩
      obtain ⟨h1, h2, h3, -⟩ := w.shape.down p hp x c hx
      exact ⟨h1, h2, h3⟩
    · rintro ⟨hc, h0, hparent⟩
      obtain ⟨q, x, -, hq, -, -, hx⟩ := w.shape.up c hc h0
      obtain rfl : q = p := some.inj (hq.symm.trans hparent)
      exact ⟨x, hx⟩
  climb P hroot hstep := w.shape.climb hroot fun n hn h0 p _ hp => hstep n p hn h0 hp

theorem collectLeaves_leaves (w : Wf pageSize s live path) :
    ∃ leaves, collectLeaves s = .ok leaves ∧ leaves.Nodup ∧ leaves.length ≤ s.counter ∧
      ∀ n ∈ leaves, n ∈ live ∧ (s.node n).children.items = [] := by
  have hturns : ∀ l : List NodeId, l.Nodup → (∀ n ∈ l, n ∈ live) → l.length ≤ s.counter := fun _ hl hlive =>
    length_le_of_lt hl fun n hn => w.shape.lt_next n (hlive n hn)
  obtain ⟨leaves, hleaves, hnodup, hmem⟩ := collectLeaves_spec PyError.indexError .outOfFuel
    (fun n => decide ((s.node n).lockRef = 0)) w.rooted hturns
  refine ⟨leaves, hleaves, hnodup, hturns _ hnodup fun n hn => ((hmem n).mp hn).1, fun n hn => ?_⟩
  obtain ⟨h1, -, h3, -⟩ := (hmem n).mp hn
  exact ⟨h1, Dict.values_eq_nil.mp h3⟩

/-! ## `evict_host` -/

theorem childless_iff : (s.node n).children.items = [] ↔ ∀ z, (s.arena pageSize).child n z = none := items_eq_nil

/-- A childless node is taken out of the tree. -/
theorem dropChild_spec (w : Wf pageSize s live path) {x : NodeId} (hx : x ∈ live) (hx0 : x ≠ 0) (hp : (s.node x).parent = some p)
    (hleaf : (s.node x).children.items = []) : ∃ s', dropChild s p x = .ok s' ∧ Wf pageSize s' (live.erase x) path ∧
      (∀ n ≠ p, s'.node n = s.node n) ∧ ∀ n, ∃ c, s'.node n = { s.node n with children := c } := by
  obtain ⟨q, k, -, hq, -, hk, hc⟩ := w.shape.up x hx hx0
  obtain rfl : q = p := some.inj (hq.symm.trans hp)
  obtain ⟨hplive, -, -⟩ := w.shape.parent_lt hx hx0 hp
  obtain ⟨s', hs'⟩ : ∃ s', s' = s.modify q fun node => { node with children := node.children.erase k } := ⟨_, rfl⟩
  have hne : ∀ n ≠ q, s'.node n = s.node n := by
    intro n hn
    rw [hs', node_modify_ne _ _ hn]
  have hkept : ∀ n, ∃ c, s'.node n = { s.node n with children := c } := by
    intro n
    by_cases hn : n = q
    · exact ⟨_, by rw [hs', hn, node_modify_same]⟩
    · exact ⟨_, hne n hn⟩
  have harena : s'.arena pageSize = (s.arena pageSize).prune q k := by
    refine EdgeTree.ext (funext fun m => ?_) (funext fun m => ?_) (funext fun m => funext fun z => ?_) (by rw [hs']; rfl)
    · obtain ⟨c, hm⟩ := hkept m
      simp [arena, prune, hm]
    · obtain ⟨c, hm⟩ := hkept m
      simp [arena, prune, hm]
    · simp only [hs', arena, prune, modify, upd]
      by_cases hm : m = q
      · simp [hm, get?_erase]
      · simp [hm]
  refine ⟨s', ?_, w.keep (erase_subset x live) ?_ fun n => ?_, hne, hkept⟩
  · unfold dropChild
    dsimp only
    rw [find_value hc fun k' hk' => some.inj ((w.child hplive hk').2.2.2.symm.trans hk), hs']
    rfl
  · rw [harena]
    exact w.shape.prune hx hx0 hp hk (childless_iff.mp hleaf)
  · obtain ⟨c, hn⟩ := hkept n
    rw [hn]
    exact ⟨rfl, rfl, rfl⟩

structure Evicting (pageSize : Nat) (s : HiTree) (live : Finset NodeId) (pool : HostPool) (t : HostEvict) (live' : Finset NodeId)
    (path : NodeId → List ChildKey) : Prop where
  wf : Wf pageSize t.tree live' path
  shrinks : live' ⊆ live
  nodup : (t.heap.map snd).Nodup
  heap : ∀ n ∈ t.heap.map snd, n ∈ live' ∧ (t.tree.node n).children.items = []
  counts : ∀ slot, t.pool.freeSlots.count slot + t.tree.held live' slot = pool.freeSlots.count slot + s.held live slot
  kept : ∀ n ∈ live, 0 < (s.node n).hostRefCounter → n ∈ live'
  refs : ∀ n, (t.tree.node n).hostRefCounter = (s.node n).hostRefCounter
  pageSize_eq : t.pool.pageSize = pool.pageSize

theorem evictHostStep_spec (cfg : Config) {pool : HostPool} {t : HostEvict} {numTokens : Nat}
    (h : Evicting cfg.pageSize s live pool t live' path) (hgo : t.goesOn numTokens = true) :
    ∃ t' live'', evictHostStep cfg t = .ok t' ∧ Evicting cfg.pageSize s live pool t' live'' path ∧
      t'.heap.length + live''.card < t.heap.length + live'.card := by
  simp only [HostEvict.goesOn, Bool.and_eq_true, decide_eq_true_eq] at hgo
  obtain ⟨e, heap, hpop⟩ := heappop_isSome t.tree.entryLt hgo.2.2
  obtain ⟨priority, x⟩ := e
  have hperm := heappop_perm t.tree.entryLt hpop
  have hpermSnd : (x :: heap.map snd).Perm (t.heap.map snd) := hperm.map snd
  have hlen : heap.length + 1 = t.heap.length := hperm.length_eq
  have hnodup := hpermSnd.nodup_iff.mpr h.nodup
  obtain ⟨hxheap, hrest⟩ := nodup_cons.mp hnodup
  obtain ⟨hx, hleaf⟩ := h.heap x (hpermSnd.mem_iff.mp List.mem_cons_self)
  have hheap : ∀ n ∈ heap.map snd, n ∈ live' ∧ (t.tree.node n).children.items = [] := fun n hn =>
    h.heap n (hpermSnd.mem_iff.mp (List.mem_cons_of_mem _ hn))
  unfold evictHostStep
  rw [hpop]
  dsimp only
  have hskipped : ∀ broke, Evicting cfg.pageSize s live pool { t with heap, broke } live' path := fun _ =>
    ⟨h.wf, h.shrinks, hrest, hheap, h.counts, h.kept, h.refs, h.pageSize_eq⟩
  by_cases hx0 : x = 0
  · rw [if_pos hx0]
    exact ⟨_, live', rfl, hskipped _, by dsimp only; omega⟩
  rw [if_neg hx0]
  by_cases hskip : !(t.tree.node x).evicted ∨ 0 < (t.tree.node x).hostRefCounter
  · rw [if_pos hskip]
    exact ⟨_, live', rfl, hskipped _, by dsimp only; omega⟩
  rw [if_neg hskip]
  obtain ⟨hev, href⟩ := not_or.mp hskip
  have hvalue : (t.tree.node x).value = none := by simpa [TreeNode.evicted] using hev
  obtain ⟨hostValue, hhost⟩ := ne_none_iff_exists'.mp (h.wf.stored x hx hvalue)
  obtain ⟨p, k, hplive, hp, -, -, hk⟩ := h.wf.shape.up x hx hx0
  have hp : (t.tree.node x).parent = some p := hp
  obtain ⟨tree, hdrop, w', hne, hchildren⟩ := dropChild_spec h.wf hx hx0 hp hleaf
  have hpx := h.wf.shape.parent_ne hx hx0 hp
  rw [hhost, hp]
  dsimp only
  rw [hdrop]
  -- the parent was no leaf until now, so it is not in the heap
  have hpheap : p ∉ heap.map snd := by
    intro hmem
    rw [childless_iff.mp (hheap p hmem).2 k] at hk
    cases hk
  have hcounts : ∀ slot, (t.pool.free hostValue).freeSlots.count slot + tree.held (live'.erase x) slot =
      pool.freeSlots.count slot + s.held live slot := by
    intro slot
    have hheld : ((t.tree.node x).hostValue.getD []).count slot + tree.held (live'.erase x) slot = t.tree.held live' slot := by
      rw [held, held, ← add_sum_erase live' _ hx]
      refine congrArg _ (sum_congr rfl fun n hn => ?_)
      obtain ⟨c, hn'⟩ := hchildren n
      rw [hn']
    have := h.counts slot
    rw [hhost, getD_some] at hheld
    simp only [HostPool.free, List.count_append]
    omega
  have hrefs : ∀ n, (tree.node n).hostRefCounter = (s.node n).hostRefCounter := by
    intro n
    obtain ⟨c, hn⟩ := hchildren n
    rw [hn]
    exact h.refs n
  have hkept : ∀ n ∈ live, 0 < (s.node n).hostRefCounter → n ∈ live'.erase x := by
    intro n hn hpos
    refine mem_erase.mpr ⟨fun hnx => href ?_, h.kept n hn hpos⟩
    rw [h.refs, ← hnx]
    exact hpos
  have hchildless : ∀ n ∈ heap.map snd, n ∈ live'.erase x ∧ (tree.node n).children.items = [] := by
    intro n hn
    refine ⟨mem_erase.mpr ⟨fun hnx => hxheap (hnx ▸ hn), (hheap n hn).1⟩, ?_⟩
    have hnp : n ≠ p := fun hnp => hpheap (hnp ▸ hn)
    rw [hne n hnp]
    exact (hheap n hn).2
  have hcard : (live'.erase x).card + 1 = live'.card := card_erase_add_one hx
  refine ⟨_, live'.erase x, rfl, ⟨w', (erase_subset _ _).trans h.shrinks, ?_, ?_, hcounts, hkept, hrefs, h.pageSize_eq⟩, ?_⟩
  · dsimp only
    split
    · refine ((heappush_perm _ heap _).map snd).nodup_iff.mpr ?_
      exact nodup_cons.mpr ⟨hpheap, hrest⟩
    · exact hrest
  · intro n hn
    split at hn
    · rename_i hpush
      rcases List.mem_cons.mp (((heappush_perm _ heap _).map snd).mem_iff.mp hn) with hnp | hn
      · rw [show n = p from hnp]
        exact ⟨mem_erase.mpr ⟨hpx, hplive⟩, hpush.1⟩
      · exact hchildless n hn
    · exact hchildless n hn
  · dsimp only
    split
    · have := (heappush_perm (entryLt tree) heap (heapEntry cfg tree p)).length_eq
      rw [List.length_cons] at this
      omega
    · omega

theorem evictHost_spec (cfg : Config) (w : Wf cfg.pageSize s live path) (pool : HostPool) (numTokens : Nat) :
    ∃ s' pool' live', evictHost cfg s pool numTokens = .ok (s', pool') ∧ Wf cfg.pageSize s' live' path ∧ live' ⊆ live ∧
      pool'.pageSize = pool.pageSize ∧ (∀ slot, pool'.freeSlots.count slot + s'.held live' slot =
      pool.freeSlots.count slot + s.held live slot) ∧
      (∀ n ∈ live, 0 < (s.node n).hostRefCounter → n ∈ live') ∧ ∀ n, (s'.node n).hostRefCounter = (s.node n).hostRefCounter := by
  obtain ⟨leaves, hleaves, hnodup, hlen, hmem⟩ := collectLeaves_leaves w
  have hperm := (heapify_perm s.entryLt (leaves.map (heapEntry cfg s))).map snd
  have hsnd : (leaves.map (heapEntry cfg s)).map snd = leaves := by
    rw [List.map_map]
    exact List.map_id leaves
  rw [hsnd] at hperm
  have hstart : Evicting cfg.pageSize s live pool ⟨s, pool, heapify s.entryLt (leaves.map (heapEntry cfg s)), 0,
    false⟩ live path :=
    ⟨w, Finset.Subset.refl _, hperm.nodup_iff.mpr hnodup, fun n hn => hmem n (hperm.mem_iff.mp hn),
      fun _ => rfl, fun _ hn _ => hn, fun _ => rfl, rfl⟩
  have hheapLen : (heapify s.entryLt (leaves.map (heapEntry cfg s))).length = leaves.length := by
    have := hperm.length_eq
    rwa [List.length_map] at this
  obtain ⟨t, m, hrun, ⟨live', h, -⟩, -⟩ := whileLoop_bound PyError.outOfFuel (HostEvict.goesOn numTokens) (evictHostStep cfg)
    (fun t m => ∃ live', Evicting cfg.pageSize s live pool t live' path ∧ m = t.heap.length + live'.card)
    (by
      intro t m ht hgo
      obtain ⟨live', h, rfl⟩ := ht
      obtain ⟨t', live'', ht', h', hlt⟩ := evictHostStep_spec cfg h hgo
      exact ⟨t', _, ht', ⟨live'', h', rfl⟩, hlt⟩)
    (2 * s.counter) _ _ ⟨live, hstart, rfl⟩ (by
      have := w.card_live
      dsimp only
      omega)
  refine ⟨t.tree, t.pool, live', ?_, h.wf, h.shrinks, h.pageSize_eq, h.counts, h.kept, h.refs⟩
  unfold evictHost
  rw [hleaves]
  simp only [bind, Except.bind]
  rw [hrun]
  rfl

end HiTree

end DynaSpec.MemCache.HiRadix
