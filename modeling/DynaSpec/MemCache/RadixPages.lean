/-
  DynaSpec.MemCache.RadixPages — the pages that the nodes of a radix tree hold.

  Keys are whole pages, so a node holds whole pages of slots (`WholeTree`). Looking up a key
  moves pages between nodes and no others (`WholeTree.steps`), an insertion adds those of the
  part of the key that was missing (`WholeTree.inserted`), and an eviction takes out those of
  the nodes it removes (`WholeTree.evicts`).
-/

import DynaSpec.MemCache.Allocator
import DynaSpec.MemCache.RadixAccounting

namespace DynaSpec.MemCache

open DynaSpec.Lib Multiset Allocator

variable {L : Finset NodeId} {pages : List Nat} {n : NodeId} {key : RadixKey} {p r : Nat}

namespace RadixCache

variable {cfg : Config} {s s' : RadixCache} {t t' : View} {pageSize : Nat}

def Whole (pageSize : Nat) (slots : List Nat) : Prop := ∃ pages : List Nat, pages.Nodup ∧ slots = wholePages pageSize pages

/-- The pages that `free` gets with the slots of a node. -/
def nodePages (pageSize : Nat) (s : RadixCache) (n : NodeId) : Multiset Nat := (pagesOf pageSize (s.node n).value : List Nat)

/-- The pages of the nodes of `L`. -/
def pagesAt (pageSize : Nat) (s : RadixCache) (L : Finset NodeId) : Multiset Nat := ∑ n ∈ L, nodePages pageSize s n

/-- The pages that the tree holds. -/
noncomputable def treePages (pageSize : Nat) (s : RadixCache) : Multiset Nat := pagesAt pageSize s (treeNodes s)

def WholeTree (pageSize : Nat) (s : RadixCache) (L : Finset NodeId) : Prop := ∀ n ∈ L, Whole pageSize (s.node n).value

theorem nodePages_whole (hps : 0 < pageSize) (hnd : pages.Nodup)
    (h : (s.node n).value = wholePages pageSize pages) : nodePages pageSize s n = pages := by
  rw [nodePages, h]
  exact coe_eq_coe.mpr (pagesOf_wholePages hps hnd)

theorem mem_nodePages : p ∈ nodePages pageSize s n ↔ ∃ x ∈ (s.node n).value, x / pageSize = p := by
  rw [nodePages, mem_coe, mem_pagesOf]

theorem mem_pagesAt : p ∈ pagesAt pageSize s L ↔ ∃ n ∈ L, p ∈ nodePages pageSize s n :=
  mem_sum

/-- A slot is on a page of its own node only. -/
theorem Whole.mem_iff (hps : 0 < pageSize) (h : Whole pageSize (s.node n).value) {x : Nat} :
    x ∈ (s.node n).value ↔ x / pageSize ∈ nodePages pageSize s n := by
  obtain ⟨pages, hnd, hv⟩ := h
  rw [nodePages_whole hps hnd hv, mem_coe, hv, mem_wholePages hps]

theorem card_nodePages (hps : 0 < pageSize) (h : Whole pageSize (s.node n).value) :
    (nodePages pageSize s n).card * pageSize = (s.node n).value.length := by
  obtain ⟨pages, hnd, hv⟩ := h
  rw [nodePages_whole hps hnd hv, coe_card, hv, length_wholePages]

theorem pagesAt_congr (h : ∀ n ∈ L, (s'.node n).value = (s.node n).value) : pagesAt pageSize s' L = pagesAt pageSize s L :=
  Finset.sum_congr rfl fun n hn => by rw [nodePages, nodePages, h n hn]

namespace WholeTree

theorem still (h : WholeTree pageSize s L) (hv : ∀ n ∈ L, (s'.node n).value = (s.node n).value) :
    WholeTree pageSize s' L := fun n hn => by
  rw [hv n hn]
  exact h n hn

theorem split (hps : 0 < pageSize) (h : WholeTree pageSize s L) {c p : NodeId} (hc : c ∈ L)
    (hnew : s.counter ∉ L) (hdvd : pageSize ∣ r) (hsplit : Split pageSize s s' c p r) :
    WholeTree pageSize s' (insert s.counter L) ∧ pagesAt pageSize s' (insert s.counter L) = pagesAt pageSize s L := by
  obtain ⟨pages, hnd, hv⟩ := h c hc
  obtain ⟨k, rfl⟩ := hdvd
  have hcn : c ≠ s.counter := ne_of_mem_of_not_mem hc hnew
  have hfirst : (s'.node s.counter).value = wholePages pageSize (pages.take k) := by
    rw [hsplit.value, if_pos rfl, hv, mul_comm, take_wholePages]
  have hrest : (s'.node c).value = wholePages pageSize (pages.drop k) := by
    rw [hsplit.value, if_neg hcn, if_pos rfl, hv, mul_comm, drop_wholePages]
  have hother : ∀ n ∈ L, n ≠ c → (s'.node n).value = (s.node n).value := by
    intro n hn hne
    rw [hsplit.value, if_neg (ne_of_mem_of_not_mem hn hnew), if_neg hne]
  have hnd1 : (pages.take k).Nodup := hnd.sublist (List.take_sublist k pages)
  have hnd2 : (pages.drop k).Nodup := hnd.sublist (List.drop_sublist k pages)
  constructor
  · intro n hn
    rcases Finset.mem_insert.mp hn with rfl | hn
    · exact ⟨_, hnd1, hfirst⟩
    by_cases hnc : n = c
    · exact ⟨_, hnd2, hnc ▸ hrest⟩
    · rw [hother n hn hnc]
      exact h n hn
  · unfold pagesAt
    have hsame : ∑ n ∈ L.erase c, nodePages pageSize s' n = ∑ n ∈ L.erase c, nodePages pageSize s n :=
      pagesAt_congr fun n hn => hother n (Finset.mem_of_mem_erase hn) (Finset.ne_of_mem_erase hn)
    rw [Finset.sum_insert hnew, ← Finset.add_sum_erase L _ hc, ← Finset.add_sum_erase L (nodePages pageSize s) hc, hsame,
      ← add_assoc, nodePages_whole hps hnd1 hfirst, nodePages_whole hps hnd2 hrest, nodePages_whole hps hnd hv, coe_add,
      List.take_append_drop]

theorem grow (hps : 0 < pageSize) (h : WholeTree pageSize s L) {p : NodeId} {k : ChildKey}
    {value : List Nat} (hnew : s.counter ∉ L) (hnd : pages.Nodup) (hv : value = wholePages pageSize pages)
    (hgrown : Grown s s' p k key value) :
    WholeTree pageSize s' (insert s.counter L) ∧ pagesAt pageSize s' (insert s.counter L) = pages + pagesAt pageSize s L := by
  have hother : ∀ n ∈ L, (s'.node n).value = (s.node n).value := fun n hn => by
    rw [hgrown.value_, if_neg (ne_of_mem_of_not_mem hn hnew)]
  have hleaf : (s'.node s.counter).value = wholePages pageSize pages := by rw [hgrown.value_, if_pos rfl, hv]
  constructor
  · intro n hn
    rcases Finset.mem_insert.mp hn with rfl | hn
    · exact ⟨pages, hnd, hleaf⟩
    · rw [hother n hn]
      exact h n hn
  · rw [pagesAt, Finset.sum_insert hnew, nodePages_whole hps hnd hleaf]
    exact congrArg _ (pagesAt_congr hother)

/-- The nodes of the tree other than the root, after a node was added. -/
theorem erase_insert {new root : NodeId} (h : new ≠ root) : (insert new L).erase root = insert new (L.erase root) :=
  Finset.erase_insert_of_ne h

section
variable (h : WholeTree pageSize s (t.live.erase s.rootNode))
include h

theorem steps (hps : 0 < pageSize) (w : Wf pageSize s t)
    (hsteps : Steps pageSize s t s' t') : WholeTree pageSize s' (t'.live.erase s'.rootNode) ∧
      pagesAt pageSize s' (t'.live.erase s'.rootNode) = pagesAt pageSize s (t.live.erase s.rootNode) := by
  refine (hsteps.keeps hps (fun s1 t1 => WholeTree pageSize s1 (t1.live.erase s1.rootNode) ∧
    pagesAt pageSize s1 (t1.live.erase s1.rootNode) = pagesAt pageSize s (t.live.erase s.rootNode)) w ⟨h, rfl⟩ ?_ ?_).2
  · intro s1 s2 t1 _ hsame _ h1
    rw [hsame.root]
    exact ⟨h1.1.still fun n _ => hsame.value n, (pagesAt_congr fun n _ => hsame.value n).trans h1.2⟩
  intro s1 s2 t1 c p r w1 hc hcr _ hdvd _ _ hsplit h1
  have hnew : s1.counter ≠ s1.rootNode := ne_of_gt w1.root_lt
  have hfresh : s1.counter ∉ t1.live.erase s1.rootNode := fun hm => (w1.live_known _ (Finset.mem_of_mem_erase hm)).ne_counter rfl
  obtain ⟨hwhole, hpages⟩ := h1.1.split hps (Finset.mem_erase.mpr ⟨hcr, hc⟩) hfresh hdvd hsplit
  rw [hsplit.root, View.split, erase_insert hnew]
  exact ⟨hwhole, hpages.trans h1.2⟩

theorem inserted (hps : 0 < pageSize) (w : Wf pageSize s t) (al : AlignedTree pageSize s) (hdvd : pageSize ∣ key.len)
    (hlen : pages.length * pageSize = key.len)
    (hins : Inserted pageSize s t key (wholePages pageSize pages) s' t' r) (hnd : (pages.drop (r / pageSize)).Nodup) :
    WholeTree pageSize s' (t'.live.erase s'.rootNode) ∧
      pagesAt pageSize s' (t'.live.erase s'.rootNode) = (pages.drop (r / pageSize) : List Nat) +
      pagesAt pageSize s (t.live.erase s.rootNode) := by
  cases hins with
  | present hsteps _ _ hon =>
    obtain ⟨-, rfl⟩ := hon al hdvd
    rw [← hlen, Nat.mul_div_cancel _ hps, List.drop_length, coe_nil, zero_add]
    exact h.steps hps w hsteps
  | @leaf s1 t1 n _ _ k rest restValue hsteps hlive _ hgrown _ _ _ _ _ hon =>
    obtain ⟨-, hr, hrest⟩ := hon al hdvd
    obtain ⟨h1, hpages⟩ := h.steps hps w hsteps
    have w1 := hsteps.wf hps w
    obtain ⟨j, hj⟩ : pageSize ∣ r := hr ▸ (hsteps.aligned hps w al).path w1 n (w1.live_known n hlive)
    have hdiv : r / pageSize = j := by rw [hj, Nat.mul_div_cancel_left _ hps]
    have hnew : s1.counter ≠ s1.rootNode := ne_of_gt w1.root_lt
    have hfresh : s1.counter ∉ t1.live.erase s1.rootNode :=
      fun hm => (w1.live_known _ (Finset.mem_of_mem_erase hm)).ne_counter rfl
    have hvalue : restValue = wholePages pageSize (pages.drop (r / pageSize)) := by
      rw [hrest, hdiv, hj, mul_comm, drop_wholePages]
    obtain ⟨hwhole, hgrow⟩ := h1.grow hps hfresh hnd hvalue hgrown
    rw [hgrown.root, View.grow, erase_insert hnew]
    exact ⟨hwhole, by rw [hgrow, hpages]⟩

theorem evicts {xs : List NodeId} (hev : Evicts s t xs s' t') : WholeTree pageSize s' (t'.live.erase s'.rootNode) ∧
      pagesAt pageSize s (t.live.erase s.rootNode) =
        (xs.map (nodePages pageSize s)).sum + pagesAt pageSize s' (t'.live.erase s'.rootNode) := by
  have hsub : t'.live.erase s'.rootNode = (t.live.erase s.rootNode).filter (· ∉ xs) := by
    rw [hev.view_eq.2.2.2, hev.root, Finset.filter_erase]
  have hvalue : ∀ n, (s'.node n).value = (s.node n).value := fun n => (hev.node_eq n).2.1
  constructor
  · intro n hn
    rw [hvalue]
    exact h n (Finset.mem_of_mem_filter n (hsub ▸ hn))
  · have hin : (t.live.erase s.rootNode).filter (· ∈ xs) = xs.toFinset := by
      ext n
      rw [Finset.mem_filter, List.mem_toFinset, Finset.mem_erase]
      exact ⟨fun hn => hn.2, fun hn => ⟨⟨(hev.mem.2 n hn).2.1, (hev.mem.2 n hn).1⟩, hn⟩⟩
    rw [hsub, pagesAt, pagesAt, ← Finset.sum_filter_add_sum_filter_not _ (· ∈ xs), hin, List.sum_toFinset _ hev.mem.1]
    congr 1
    exact (pagesAt_congr fun n _ => hvalue n).symm

end

end WholeTree

end RadixCache

end DynaSpec.MemCache
