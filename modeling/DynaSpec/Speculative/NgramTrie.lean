/-
  DynaSpec.Speculative.NgramTrie — the invariant of the n-gram trie over any run.

  `Linked` says that the containers of every node agree: its child map, its `lru` list and
  its `sorted_children` hold the nodes whose parent it is. `ParentsFirst` says that the
  global list has every node before its children, so that its back is a leaf. A leaf can be
  unlinked (`Linked.unlink`), a node of the pool adopted (`Linked.adopt`), a child touched
  (`Linked.retouch`); a whole path spliced to the front keeps `ParentsFirst`
  (`ParentsFirst.splice`).

  - `trie_consistent`: in every run of insertions and resets nothing throws, every state is
    `Consistent`, and a branch is a root path when its insertion step ends.
-/

import DynaSpec.Speculative.Ngram
import Mathlib.Data.List.Chain

namespace DynaSpec.Speculative.Ngram

open DynaSpec.Lib List Dict TrieNode
open List.Pairwise (imp imp_of_mem nil sublist)

variable {n last : NodePtr} {nodes1 : NodePtr → TrieNode} {path : List NodePtr} {capacity : Nat}

/-! ## The order of the sorted children -/

section
variable {nodes nodes' : NodePtr → TrieNode}

theorem compareByFreq_irrefl (a : NodePtr) : compareByFreq nodes a a = false := by
  simp [compareByFreq]

theorem compareByFreq_trans {a b c : NodePtr} (hab : compareByFreq nodes a b = true) (hbc : compareByFreq nodes b c = true) :
    compareByFreq nodes a c = true := by
  simp only [compareByFreq, decide_eq_true_eq] at *
  grind

theorem compareByFreq_total {a b : NodePtr} (h : a ≠ b) : compareByFreq nodes a b = true ∨ compareByFreq nodes b a = true := by
  simp only [compareByFreq, decide_eq_true_eq]
  grind

/-- `sorted_children` in its order. -/
def Sorted (nodes : NodePtr → TrieNode) (l : List NodePtr) : Prop := l.Pairwise fun a b => compareByFreq nodes a b = true

variable {l : List NodePtr}

theorem Sorted.nodup (h : Sorted nodes l) : l.Nodup := by
  refine imp (fun {a b} hab e => ?_) h
  rw [e, compareByFreq_irrefl] at hab
  cases hab

/-- The order reads only the keys of the nodes. -/
theorem Sorted.congr (h : Sorted nodes l) (hkeys : ∀ x ∈ l, (nodes' x).token = (nodes x).token ∧
    (nodes' x).freq = (nodes x).freq) :
    Sorted nodes' l := by
  refine imp_of_mem (fun {a b} ha hb hab => ?_) h
  rw [compareByFreq, (hkeys a ha).1, (hkeys a ha).2, (hkeys b hb).1, (hkeys b hb).2]
  exact hab

theorem sortedErase_eq (n : NodePtr) (l : List NodePtr) : sortedErase nodes n l = l.filter (· ≠ n) := by
  apply filter_congr
  intro m _
  by_cases h : m = n
  · subst h
    simp [compareByFreq_irrefl]
  · rcases @compareByFreq_total nodes m n h with hc | hc <;> simp [h, hc]

theorem mem_sortedInsert {m : NodePtr} : m ∈ sortedInsert nodes n l ↔ m = n ∨ m ∈ l :=
  mem_orderedInsert _

theorem Sorted.insert {l : List NodePtr} (h : Sorted nodes l) (hn : n ∉ l) : Sorted nodes (sortedInsert nodes n l) := by
  induction l with
  | nil => exact pairwise_singleton _ _
  | cons b l ih =>
    obtain ⟨hb, hl⟩ := pairwise_cons.mp h
    obtain ⟨hne, hnl⟩ := not_or.mp (mt mem_cons.mpr hn)
    unfold sortedInsert orderedInsert
    by_cases hlt : compareByFreq nodes n b = true
    · rw [if_pos hlt]
      refine pairwise_cons.mpr ⟨fun m hm => ?_, h⟩
      rcases mem_cons.mp hm with rfl | hm
      · exact hlt
      · exact compareByFreq_trans hlt (hb m hm)
    rw [if_neg hlt]
    refine pairwise_cons.mpr ⟨fun m hm => ?_, ih hl hnl⟩
    rcases mem_sortedInsert.mp hm with rfl | hm
    · exact (compareByFreq_total hne).resolve_left hlt
    · exact hb m hm

end

/-! ## The containers of the nodes -/

/-- The nodes keep their parents, tokens and counts. -/
def SameKeys (nodes nodes' : NodePtr → TrieNode) : Prop :=
  ∀ x, (nodes' x).parent = (nodes x).parent ∧ (nodes' x).token = (nodes x).token ∧ (nodes' x).freq = (nodes x).freq

theorem SameKeys.upd {nodes : NodePtr → TrieNode} {p : NodePtr} {v : TrieNode} (hparent : v.parent = (nodes p).parent)
    (htoken : v.token = (nodes p).token) (hfreq : v.freq = (nodes p).freq) : SameKeys nodes (upd nodes p v) := fun x =>
  ⟨upd_proj TrieNode.parent hparent x, upd_proj TrieNode.token htoken x, upd_proj TrieNode.freq hfreq x⟩

/-- The child map, the `lru` list and the `sorted_children` of a node have the nodes `kid`. -/
structure Kids (nodes : NodePtr → TrieNode) (kid : NodePtr → Prop) (items : Dict Token NodePtr)
    (recent byFreq : List NodePtr) : Prop where
  child : ∀ tok c, (tok, c) ∈ items.items ↔ kid c ∧ (nodes c).token = tok
  lruNodup : recent.Nodup
  lru : ∀ c, c ∈ recent ↔ kid c
  sorted : Sorted nodes byFreq
  children : ∀ c, c ∈ byFreq ↔ kid c

namespace Kids
variable {nodes m : NodePtr → TrieNode} {kid k : NodePtr → Prop} {items : Dict Token NodePtr} {recent byFreq : List NodePtr}
  (h : Kids nodes kid items recent byFreq)
include h

/-- Of the children only the keys are read. -/
theorem congr (hkid : ∀ c, k c ↔ kid c) (hkeys : ∀ c, kid c → (m c).token = (nodes c).token ∧ (m c).freq = (nodes c).freq) :
    Kids m k items recent byFreq := by
  refine ⟨fun tok c => ?_, h.lruNodup, fun c => (h.lru c).trans (hkid c).symm,
    h.sorted.congr fun x hx => hkeys x ((h.children x).mp hx), fun c => (h.children c).trans (hkid c).symm⟩
  rw [h.child, hkid]
  exact and_congr_right fun hc => by rw [(hkeys c hc).1]

theorem remove (hn : kid n) :
    Kids nodes (fun c => c ≠ n ∧ kid c) (items.erase (nodes n).token) (recent.erase n) (sortedErase nodes n byFreq) := by
  refine ⟨fun tok c => ?_, h.lruNodup.erase n, fun c => by rw [h.lruNodup.mem_erase_iff, h.lru],
    sublist filter_sublist h.sorted, fun c => ?_⟩
  · rw [mem_erase, h.child]
    constructor
    · rintro ⟨htok, hc, hct⟩
      refine ⟨⟨?_, hc⟩, hct⟩
      rintro rfl
      exact htok hct.symm
    · rintro ⟨⟨hcn, hc⟩, hct⟩
      refine ⟨?_, hc, hct⟩
      rintro rfl
      exact hcn (unique ((h.child _ c).mpr ⟨hc, hct⟩) ((h.child _ n).mpr ⟨hn, rfl⟩))
  · rw [sortedErase_eq, mem_filter, h.children]
    simp [and_comm]

theorem add (hn : ¬ kid n) (hnone : ∀ c, ((nodes n).token, c) ∉ items.items) :
    Kids nodes (fun c => c = n ∨ kid c) (items.set (nodes n).token n) (n :: recent) (sortedInsert nodes n byFreq) := by
  refine ⟨fun tok c => ?_, nodup_cons.mpr ⟨fun hm => hn ((h.lru n).mp hm), h.lruNodup⟩, fun c => by rw [mem_cons, h.lru],
    h.sorted.insert fun hm => hn ((h.children n).mp hm), fun c => by rw [mem_sortedInsert, h.children]⟩
  rw [Dict.mem_set, h.child]
  constructor
  · rintro (⟨rfl, rfl⟩ | ⟨-, hc, ht⟩)
    · exact ⟨.inl rfl, rfl⟩
    · exact ⟨.inr hc, ht⟩
  · rintro ⟨rfl | hc, ht⟩
    · exact .inl ⟨ht.symm, rfl⟩
    · refine .inr ⟨?_, hc, ht⟩
      rintro rfl
      exact hnone c ((h.child _ c).mpr ⟨hc, ht⟩)

end Kids

/-- `l` are the nodes of the trie below `root`. -/
structure Linked (nodes : NodePtr → TrieNode) (root : NodePtr) (l : List NodePtr) : Prop where
  nodup : (root :: l).Nodup
  parent : ∀ n ∈ l, (nodes n).parent ∈ root :: l
  kids : ∀ p ∈ root :: l, Kids nodes (fun c => c ∈ l ∧ (nodes c).parent = p) (nodes p).child (nodes p).lru
    (nodes p).sortedChildren

namespace Linked
variable {nodes : NodePtr → TrieNode} {root p : NodePtr} {l l' : List NodePtr} (h : Linked nodes root l)
include h

theorem child (hp : p ∈ root :: l) (tok : Token) (c : NodePtr) :
    (tok, c) ∈ (nodes p).child.items ↔ c ∈ l ∧ (nodes c).parent = p ∧ (nodes c).token = tok := by
  rw [(h.kids p hp).child, and_assoc]

theorem perm (hp : l'.Perm l) : Linked nodes root l' where
  nodup := (hp.cons root).nodup_iff.mpr h.nodup
  parent n hn := (hp.cons root).mem_iff.mpr (h.parent n (hp.mem_iff.mp hn))
  kids q hq := (h.kids q ((hp.cons root).mem_iff.mp hq)).congr (fun c => by rw [hp.mem_iff]) fun _ _ => ⟨rfl, rfl⟩

/-- A leaf leaves its parent's containers. -/
theorem unlink (hn : n ∈ l) (hleaf : ∀ c ∈ l, (nodes c).parent ≠ n) {pn : TrieNode} (hpn : pn = nodes (nodes n).parent) :
    Linked (upd nodes (nodes n).parent { pn with
      lru := pn.lru.erase n
      sortedChildren := sortedErase nodes n pn.sortedChildren
      child := pn.child.erase (nodes n).token }) root (l.erase n) := by
  obtain ⟨hroot, hl⟩ := nodup_cons.mp h.nodup
  have hm : ∀ x, x ∈ l.erase n ↔ x ≠ n ∧ x ∈ l := fun x => hl.mem_erase_iff
  have hp := h.parent n hn
  generalize hparent : (nodes n).parent = p at *
  subst hpn
  generalize hnodes' : upd nodes p _ = nodes'
  have hsame : SameKeys nodes nodes' := hnodes' ▸ .upd rfl rfl rfl
  refine ⟨nodup_cons.mpr ⟨fun hr => hroot ((hm root).mp hr).2, hl.erase n⟩, fun c hc => ?_, fun q hq => ?_⟩
  · rw [(hsame c).1]
    have hcl := ((hm c).mp hc).2
    exact mem_cons.mpr ((mem_cons.mp (h.parent c hcl)).imp_right fun hr => (hm _).mpr ⟨hleaf c hcl, hr⟩)
  by_cases hqp : q = p
  · rw [hqp, ← hnodes', upd_same, hnodes']
    exact ((h.kids p hp).remove ⟨hn, hparent⟩).congr (fun c => by rw [(hsame c).1, hm c, and_assoc]) fun c _ => (hsame c).2
  · rw [← hnodes', upd_ne _ _ hqp, hnodes']
    refine (h.kids q (cons_subset_cons root erase_subset hq)).congr (fun c => ?_) fun c _ => (hsame c).2
    -- what goes is no child of a node other than `p`
    rw [(hsame c).1, hm c, and_assoc]
    refine and_iff_right_of_imp fun hc e => hqp ?_
    rw [← hc.2, e, hparent]

/-- A node from the pool becomes a child of `p` for a token it has no child for. -/
theorem adopt {f : NodePtr} {token : Token} (hp : p ∈ root :: l) (hf : f ∉ root :: l)
    (hnone : ∀ c, (token, c) ∉ (nodes p).child.items)
    (h1 : nodes1 = upd nodes f { token := token, parent := p, freq := 1 }) : Linked (upd nodes1 p { nodes1 p with
      child := (nodes1 p).child.set token f
      lru := f :: (nodes1 p).lru
      sortedChildren := sortedInsert nodes1 f (nodes1 p).sortedChildren }) root (l ++ [f]) := by
  obtain ⟨hfroot, hfl⟩ := not_or.mp (mt mem_cons.mpr hf)
  have hpf : p ≠ f := fun e => hf (e ▸ hp)
  have hold : ∀ x, x ≠ f → nodes1 x = nodes x := fun x hx => by rw [h1, upd_ne _ _ hx]
  have hnew : nodes1 f = { token := token, parent := p, freq := 1 } := by rw [h1, upd_same]
  generalize hnodes' : upd nodes1 p _ = nodes'
  have hsame : SameKeys nodes1 nodes' := hnodes' ▸ .upd rfl rfl rfl
  have hkeys : ∀ x, x ≠ f → (nodes' x).token = (nodes x).token ∧ (nodes' x).freq = (nodes x).freq :=
    fun x hx => hold x hx ▸ (hsame x).2
  have hne : ∀ x ∈ l, x ≠ f := fun x hx e => hfl (e ▸ hx)
  -- the children of a node, before and after
  have hkid : ∀ q c, (c ∈ l ++ [f] ∧ (nodes' c).parent = q) ↔ (c = f ∧ p = q) ∨ (c ∈ l ∧ (nodes c).parent = q) := by
    intro q c
    rw [(hsame c).1]
    by_cases hcf : c = f
    · subst hcf
      rw [hnew]
      simp [hfl]
    · rw [hold c hcf]
      simp [hcf]
  refine ⟨?_, fun c hc => ?_, fun q hq => ?_⟩ <;> rw [← cons_append] at *
  · rw [nodup_append]
    refine ⟨h.nodup, nodup_singleton f, fun a ha b hb e => hf ?_⟩
    rw [← mem_singleton.mp hb, ← e]
    exact ha
  · rcases (hkid (nodes' c).parent c).mp ⟨hc, rfl⟩ with ⟨-, e⟩ | ⟨hcl, e⟩
    · exact mem_append_left _ (e ▸ hp)
    · exact mem_append_left _ (e ▸ h.parent c hcl)
  by_cases hqp : q = p
  · rw [hqp, ← hnodes', upd_same, hnodes', hold p hpf]
    have hk := (h.kids p hp).congr (m := nodes1) (fun _ => Iff.rfl) fun c hc => by
      rw [hold c (hne c hc.1)]
      exact ⟨rfl, rfl⟩
    have hadd := hk.add (n := f) (fun hc => hfl hc.1) (by rw [hnew]; exact hnone)
    rw [hnew] at hadd
    exact hadd.congr (fun c => by rw [hkid, and_iff_left rfl]) fun c _ => (hsame c).2
  rw [← hnodes', upd_ne _ _ hqp, hnodes']
  by_cases hqf : q = f
  · -- the new node has no children
    have hfree : ∀ c, ¬ (c ∈ l ++ [f] ∧ (nodes' c).parent = f) := by
      intro c hc
      rcases (hkid f c).mp hc with ⟨-, e⟩ | ⟨hcl, e⟩
      · exact hpf e
      · exact hf (e ▸ h.parent c hcl)
    rw [hqf, hnew]
    exact ⟨fun tok c => iff_of_false nofun fun hc => hfree c hc.1, nodup_nil, fun c => iff_of_false nofun (hfree c), nil,
      fun c => iff_of_false nofun (hfree c)⟩
  · rw [hold q hqf]
    refine (h.kids q ((mem_append.mp hq).resolve_right fun hm => hqf (mem_singleton.mp hm))).congr
      (fun c => ?_) fun c hc => hkeys c (hne c hc.1)
    rw [hkid, or_iff_right fun hc => hqp hc.2.symm]

/-- A child is touched: counted, and first in its parent's list. -/
theorem retouch (hp : p ∈ root :: l) (hn : n ∈ l) (hparent : (nodes n).parent = p)
    (hnp : n ≠ p) (h1 : nodes1 = upd nodes n { nodes n with freq := (nodes n).freq + 1 }) : Linked (upd nodes1 p { nodes1 p with
      sortedChildren := sortedInsert nodes1 n (sortedErase nodes n (nodes p).sortedChildren)
      lru := n :: (nodes1 p).lru.erase n }) root l := by
  have hp1 : nodes1 p = nodes p := by rw [h1, upd_ne _ _ (Ne.symm hnp)]
  have hsame1 : ∀ x, (nodes1 x).parent = (nodes x).parent ∧ (nodes1 x).token = (nodes x).token := by
    intro x
    rw [h1]
    exact ⟨upd_proj TrieNode.parent (by rfl) x, upd_proj TrieNode.token (by rfl) x⟩
  have hkeys1 : ∀ c, c ≠ n → (nodes1 c).token = (nodes c).token ∧ (nodes1 c).freq = (nodes c).freq := by
    intro c hc
    rw [h1, upd_ne _ _ hc]
    exact ⟨rfl, rfl⟩
  generalize hnodes' : upd nodes1 p _ = nodes'
  have hsame : SameKeys nodes1 nodes' := hnodes' ▸ .upd rfl rfl rfl
  have hparents : ∀ x, (nodes' x).parent = (nodes x).parent := fun x => (hsame x).1.trans (hsame1 x).1
  refine ⟨h.nodup, fun c hc => (hparents c) ▸ h.parent c hc, fun q hq => ?_⟩
  have hk := h.kids q hq
  by_cases hqp : q = p
  · subst hqp
    rw [← hnodes', upd_same, hnodes', hp1]
    -- taken out and put in again with its new key, at the same place of the child map
    have hrem := (hk.remove ⟨hn, hparent⟩).congr (fun _ => Iff.rfl) fun c hc => hkeys1 c hc.1
    have hadd := hrem.add (n := n) (fun hc => hc.1 rfl) fun c hc => (mem_erase.mp hc).1 (hsame1 n).2
    have hback := hadd.congr (m := nodes') (k := fun c => c ∈ l ∧ (nodes' c).parent = q) (fun c => ?_) fun c _ => (hsame c).2
    · refine ⟨fun tok c => ?_, hback.lruNodup, hback.lru, hback.sorted, hback.children⟩
      rw [hparents, (hsame c).2.1, (hsame1 c).2]
      exact hk.child tok c
    · rw [hparents]
      by_cases e : c = n <;> simp [e, hn, hparent]
  · have hq1 : (nodes1 q).child = (nodes q).child ∧ (nodes1 q).lru = (nodes q).lru ∧
      (nodes1 q).sortedChildren = (nodes q).sortedChildren := by
      rw [h1]
      exact ⟨upd_proj TrieNode.child (by rfl) q, upd_proj TrieNode.lru (by rfl) q, upd_proj TrieNode.sortedChildren (by rfl) q⟩
    rw [← hnodes', upd_ne _ _ hqp, hnodes', hq1.1, hq1.2.1, hq1.2.2]
    refine hk.congr (fun c => by rw [hparents]) fun c hc => ?_
    have := hkeys1 c fun e => hqp (by rw [← hc.2, e, hparent])
    exact ⟨(hsame c).2.1.trans this.1, (hsame c).2.2.trans this.2⟩

end Linked

/-! ## Parents before children -/

def ParentsFirst (nodes : NodePtr → TrieNode) (l : List NodePtr) : Prop :=
  l.Pairwise (fun a b => (nodes a).parent ≠ b) ∧ ∀ n ∈ l, (nodes n).parent ≠ n

/-- Down from `p` through nodes of `l`. -/
def PathFrom (nodes : NodePtr → TrieNode) (l : List NodePtr) : NodePtr → List NodePtr → Prop
  | _, [] => True
  | p, n :: path => n ∈ l ∧ (nodes n).parent = p ∧ PathFrom nodes l n path

namespace ParentsFirst
variable {nodes nodes' : NodePtr → TrieNode} {root : NodePtr} {l : List NodePtr}

theorem congr (h : ParentsFirst nodes l) (hp : ∀ n ∈ l, (nodes' n).parent = (nodes n).parent) : ParentsFirst nodes' l := by
  refine ⟨imp_of_mem (fun {a b} ha _ hab => ?_) h.1, fun n hn => ?_⟩
  · rw [hp a ha]
    exact hab
  · rw [hp n hn]
    exact h.2 n hn

/-- The back of the list is nobody's parent. -/
theorem back_leaf (h : ParentsFirst nodes (l ++ [last])) : ∀ c ∈ l ++ [last], (nodes c).parent ≠ last := by
  intro c hc
  rcases mem_append.mp hc with hc | hc
  · exact (pairwise_append.mp h.1).2.2 c hc last mem_cons_self
  · rw [mem_singleton.mp hc]
    exact h.2 last (mem_append_right _ mem_cons_self)

theorem dropLast (h : ParentsFirst nodes (l ++ [last])) : ParentsFirst nodes l :=
  ⟨(pairwise_append.mp h.1).1, fun n hn => h.2 n (mem_append_left _ hn)⟩

section
variable (h : ParentsFirst nodes l)
include h

theorem push {f : NodePtr} (hnone : ∀ n ∈ l, (nodes n).parent ≠ f) (hf : (nodes f).parent ≠ f) :
    ParentsFirst nodes (l ++ [f]) := by
  refine ⟨pairwise_append.mpr ⟨h.1, pairwise_singleton _ _, fun a ha b hb => ?_⟩, fun n hn => ?_⟩
  · rw [mem_singleton.mp hb]
    exact hnone a ha
  · rcases mem_append.mp hn with hn | hn
    · exact h.2 n hn
    · rw [mem_singleton.mp hn]
      exact hf

theorem idxOf_parent (hn : n ∈ l) (hp : (nodes n).parent ∈ l) : l.idxOf (nodes n).parent < l.idxOf n := by
  have hi := idxOf_lt_length_of_mem hp
  have hj := idxOf_lt_length_of_mem hn
  by_contra hle
  rcases Nat.lt_or_eq_of_le (Nat.le_of_not_lt hle) with hlt | heq
  · have := pairwise_iff_getElem.mp h.1 _ _ hj hi hlt
    rw [getElem_idxOf, getElem_idxOf] at this
    exact this rfl
  have e : l[l.idxOf n] = l[l.idxOf (nodes n).parent] := getElem_congr_idx heq
  rw [getElem_idxOf, getElem_idxOf] at e
  exact h.2 n hn e.symm

/-- A path goes down the list. -/
theorem path_sorted : ∀ {p : NodePtr} {path : List NodePtr}, PathFrom nodes l p path →
    path.Pairwise fun a b => l.idxOf a < l.idxOf b := by
  intro p path hpath
  have hchain : path.IsChain fun a b => l.idxOf a < l.idxOf b := by
    induction path generalizing p with
    | nil => exact List.IsChain.nil
    | cons n path ih =>
      cases path with
      | nil => exact isChain_singleton _
      | cons m path =>
        obtain ⟨hn, -, hm, hmn, hrest⟩ := hpath
        refine isChain_cons_cons.mpr ⟨?_, ih ⟨hm, hmn, hrest⟩⟩
        have := h.idxOf_parent hm (hmn ▸ hn)
        rwa [hmn] at this
  exact hchain.pairwise

theorem path_nodup {p : NodePtr} (hpath : PathFrom nodes l p path) : path.Nodup := by
  refine imp (fun {a b} hlt e => ?_) (h.path_sorted hpath)
  rw [e] at hlt
  exact lt_irrefl _ hlt

end

end ParentsFirst

theorem PathFrom.mem {nodes : NodePtr → TrieNode} {l : List NodePtr} {path : List NodePtr} {p n : NodePtr}
    (h : PathFrom nodes l p path) (hn : n ∈ path) : n ∈ l ∧ (nodes n).parent ∈ p :: path := by
  induction path generalizing p n with
  | nil => cases hn
  | cons m path ih =>
    obtain ⟨hm, hparent, hrest⟩ := h
    rcases mem_cons.mp hn with rfl | hn
    · exact ⟨hm, hparent ▸ mem_cons_self⟩
    · exact ⟨(ih hrest hn).1, mem_cons_of_mem _ (ih hrest hn).2⟩

/-- The nodes of a path spliced to the front, last first. -/
theorem spliced_eq {l : List NodePtr} (hl : l.Nodup) {path : List NodePtr} (hp : path.Nodup) :
    path.reverse.foldl Trie.spliceFront l = path ++ l.filter (· ∉ path) := by
  induction path with
  | nil => simp
  | cons n path ih =>
    obtain ⟨hn, hp⟩ := nodup_cons.mp hp
    rw [reverse_cons, foldl_append, ih hp]
    show n :: (path ++ l.filter (· ∉ path)).erase n = _
    rw [erase_append_right _ hn, (hl.filter _).erase_eq_filter, filter_filter, cons_append]
    congr 2
    apply filter_congr
    intro x _
    rw [Bool.eq_iff_iff]
    simp [not_or]

theorem spliced_perm {l : List NodePtr} (hl : l.Nodup) (hp : path.Nodup) (hsub : ∀ n ∈ path, n ∈ l) :
    (path ++ l.filter (· ∉ path)).Perm l := by
  rw [← hl.sdiff_eq_filter]
  exact subperm_append_diff_self_of_count_le (subperm_ext_iff.mp (subperm_of_subset hp hsub))

theorem ParentsFirst.splice {nodes : NodePtr → TrieNode} {root : NodePtr} {l : List NodePtr} (h : ParentsFirst nodes l)
    (hroot : root ∉ l) (hpath : PathFrom nodes l root path) : ParentsFirst nodes (path ++ l.filter (· ∉ path)) := by
  refine ⟨pairwise_append.mpr ⟨?_, h.1.sublist filter_sublist, fun a ha b hb => ?_⟩, fun n hn => ?_⟩
  · refine imp_of_mem (fun {a b} ha hb hab e => ?_) (h.path_sorted hpath)
    have := h.idxOf_parent (hpath.mem ha).1 (e ▸ (hpath.mem hb).1)
    rw [e] at this
    exact lt_asymm this hab
  · -- the parent of a node of the path is the root or on the path
    obtain ⟨hb, hbp⟩ := mem_filter.mp hb
    intro e
    rcases mem_cons.mp (hpath.mem ha).2 with hr | hr
    · exact hroot (hr ▸ e ▸ hb)
    · simp only [decide_not, Bool.not_eq_true', decide_eq_false_iff_not] at hbp
      exact hbp (e ▸ hr)
  · rcases mem_append.mp hn with hn | hn
    · exact h.2 n (hpath.mem hn).1
    · exact h.2 n (mem_filter.mp hn).1

/-! ## The invariant -/

structure Trie.Inv (t : Trie) : Prop where
  poolLen : t.nodePool.length = t.capacity
  pool : (t.nodePool.take t.freeNodeCount ++ t.root :: t.globalLru).Perm (List.range t.capacity)
  linked : Linked t.nodes t.root t.globalLru
  first : ParentsFirst t.nodes t.globalLru

/-- A later state of the same trie: nodes have been added, none has moved. -/
structure Trie.Extends (t t' : Trie) : Prop where
  capacity : t'.capacity = t.capacity
  root : t'.root = t.root
  mem : ∀ n ∈ t.globalLru, n ∈ t'.globalLru
  parent : ∀ n ∈ t.globalLru, (t'.nodes n).parent = (t.nodes n).parent
  token : ∀ n ∈ t.globalLru, (t'.nodes n).token = (t.nodes n).token

namespace Trie
variable {t t' t'' : Trie}

theorem Extends.refl (t : Trie) : Extends t t := ⟨rfl, rfl, fun _ h => h, fun _ _ => rfl, fun _ _ => rfl⟩

theorem Extends.trans (h : Extends t t') (h' : Extends t' t'') : Extends t t'' where
  capacity := h'.capacity.trans h.capacity
  root := h'.root.trans h.root
  mem := fun n hn => h'.mem n (h.mem n hn)
  parent := fun n hn => (h'.parent n (h.mem n hn)).trans (h.parent n hn)
  token := fun n hn => (h'.token n (h.mem n hn)).trans (h.token n hn)

/-- A child stays a child. -/
theorem Extends.child (h : Extends t t') (hi : Inv t) (hi' : Inv t') {p c : NodePtr} {tok : Token}
    (hp : p ∈ t.root :: t.globalLru) (hc : (tok, c) ∈ (t.nodes p).child.items) : (tok, c) ∈ (t'.nodes p).child.items := by
  obtain ⟨hcl, hcp, hct⟩ := (hi.linked.child hp tok c).mp hc
  have hp' : p ∈ t'.root :: t'.globalLru := by
    rcases mem_cons.mp hp with rfl | hp
    · rw [h.root]
      exact mem_cons_self
    · exact mem_cons_of_mem _ (h.mem p hp)
  exact (hi'.linked.child hp' tok c).mpr ⟨h.mem c hcl, (h.parent c hcl).trans hcp, (h.token c hcl).trans hct⟩

theorem Inv.count (h : Inv t) : t.freeNodeCount + 1 + t.globalLru.length = t.capacity := by
  have := h.pool.length_eq
  simp only [length_append, length_take, length_cons, length_range, h.poolLen] at this
  omega

/-- The node that is taken was none of those in use. -/
theorem getNode_ok (rest : List NodePtr) (hlen : t.nodePool.length = t.capacity)
    (hpool : (t.nodePool.take t.freeNodeCount ++ rest).Perm (range t.capacity)) (hle : t.freeNodeCount ≤ t.capacity)
    (hfree : 0 < t.freeNodeCount) :
    ∃ node, t.getNode = .ok ({ t with freeNodeCount := t.freeNodeCount - 1, nodes := upd t.nodes node {} }, node) ∧
      node ∉ rest ∧ (t.nodePool.take (t.freeNodeCount - 1) ++ node :: rest).Perm (range t.capacity) := by
  obtain ⟨k, hk⟩ : ∃ k, t.freeNodeCount = k + 1 := ⟨t.freeNodeCount - 1, by omega⟩
  have hlt : k < t.nodePool.length := by omega
  have hsplit : t.nodePool.take (k + 1) ++ rest = t.nodePool.take k ++ t.nodePool[k] :: rest := by
    rw [take_succ_eq_append_getElem hlt, append_assoc]
    rfl
  rw [hk, hsplit] at hpool
  refine ⟨t.nodePool[k], ?_, ?_, ?_⟩
  · unfold getNode
    rw [hk]
    simp [getElem?_eq_getElem hlt]
  · have hnd := hpool.nodup_iff.mpr nodup_range
    exact (nodup_cons.mp (nodup_append.mp hnd).2.1).1
  · rw [hk, Nat.add_sub_cancel]
    exact hpool

theorem restart_inv (capacity : Nat) (nodes : NodePtr → TrieNode) (h : 0 < capacity) :
    ∃ t, restart capacity nodes = .ok t ∧ Inv t ∧ t.capacity = capacity := by
  obtain ⟨root, hget, -, hpool⟩ := getNode_ok
    (t := { capacity, nodes, nodePool := range capacity, freeNodeCount := capacity, globalLru := [], root := 0 })
    [] length_range (by simp) (le_refl _) h
  refine ⟨_, by rw [restart, hget]; rfl, ⟨length_range, hpool, ?_, nil, fun n hn => (by cases hn)⟩, rfl⟩
  have hfresh : ∀ p ∈ [root], upd nodes root {} p = {} := by
    intro p hp
    rw [mem_singleton.mp hp, upd_same]
  refine ⟨nodup_singleton root, nofun, fun p hp => ?_⟩
  constructor <;> simp [hfresh p hp, Sorted]

/-! ## Evictions -/

theorem take_set_succ {α : Type} {l : List α} {i : Nat} (h : i < l.length) (a : α) :
    (l.set i a).take (i + 1) = l.take i ++ [a] := by
  rw [take_succ_eq_append_getElem (by simpa using h), take_set_of_le (le_refl i), getElem_set_self]

/-- The back of the global list is a leaf, so it can be released. -/
theorem release_inv (h : Inv t) {l : List NodePtr} (hl : t.globalLru = l ++ [last]) :
    ∃ t', t.release = .ok t' ∧ Inv t' ∧ t'.capacity = t.capacity ∧ t'.globalLru = l ∧ t'.freeNodeCount = t.freeNodeCount + 1 := by
  have hcount := h.count
  have hfirst := h.first
  rw [hl] at hfirst
  have hmem : last ∈ t.globalLru := by simp [hl]
  have hleaf : ∀ c ∈ t.globalLru, (t.nodes c).parent ≠ last := fun c hc => hfirst.back_leaf c (hl ▸ hc)
  have hempty : (t.nodes last).child.items = [] := by
    rw [eq_nil_iff_forall_not_mem]
    rintro ⟨tok, c⟩ hc
    obtain ⟨hcl, hcp, -⟩ := (h.linked.child (mem_cons_of_mem _ hmem) tok c).mp hc
    exact hleaf c hcl hcp
  have hnd := (nodup_cons.mp h.linked.nodup).2
  have hlast : last ∉ l := by
    rw [hl] at hnd
    exact fun hm => (nodup_append.mp hnd).2.2 last hm last mem_cons_self rfl
  have herase : t.globalLru.erase last = l := by
    rw [hl, erase_append_right _ hlast]
    simp
  obtain ⟨pn, hpn⟩ : ∃ pn, pn = t.nodes (t.nodes last).parent := ⟨_, rfl⟩
  have hlinked := h.linked.unlink hmem hleaf hpn
  obtain ⟨nodes', hnodes'⟩ : ∃ nodes', nodes' = upd t.nodes (t.nodes last).parent { pn with
      lru := pn.lru.erase last
      sortedChildren := sortedErase t.nodes last pn.sortedChildren
      child := pn.child.erase (t.nodes last).token } := ⟨_, rfl⟩
  rw [herase, ← hnodes'] at hlinked
  refine ⟨{ t with globalLru := l, nodes := nodes', nodePool := t.nodePool.set t.freeNodeCount last,
                   freeNodeCount := t.freeNodeCount + 1 }, ?_, ⟨?_, ?_, hlinked, ?_⟩, rfl, rfl, rfl⟩
  · unfold release
    rw [hl, getLast?_append, getLast?_singleton, Option.some_or]
    dsimp only
    rw [if_neg (by simp [hempty]), if_neg (by have := h.poolLen; omega), dropLast_concat, hnodes', hpn]
  · simpa using h.poolLen
  · show (take (t.freeNodeCount + 1) (t.nodePool.set t.freeNodeCount last) ++ t.root :: l).Perm _
    rw [take_set_succ (by have := h.poolLen; omega), append_assoc]
    refine (List.Perm.append_left _ ?_).trans (hl ▸ h.pool)
    rw [← cons_append]
    exact perm_append_comm
  · refine hfirst.dropLast.congr fun n _ => ?_
    show (nodes' n).parent = (t.nodes n).parent
    by_cases hn : n = (t.nodes last).parent
    · rw [hn, hnodes', upd_same, hpn]
    · rw [hnodes', upd_ne _ _ hn]

theorem releaseMany_inv {count : Nat} {t : Trie} (h : Inv t) (hc : count ≤ t.globalLru.length) :
    ∃ t', releaseMany count t = .ok t' ∧ Inv t' ∧ t'.capacity = t.capacity ∧ t'.freeNodeCount = t.freeNodeCount + count := by
  induction count generalizing t with
  | zero => exact ⟨t, rfl, h, rfl, rfl⟩
  | succ count ih =>
    have hne : t.globalLru ≠ [] := fun e => by simp [e] at hc
    have hl := (dropLast_append_getLast hne).symm
    obtain ⟨t1, h1, hi1, hcap1, hl1, hf1⟩ := release_inv h hl
    obtain ⟨t2, h2, hi2, hcap2, hf2⟩ := ih hi1 (by rw [hl1, length_dropLast]; omega)
    refine ⟨t2, ?_, hi2, hcap2.trans hcap1, by omega⟩
    rw [releaseMany, h1]
    exact h2

theorem squeeze_inv (h : Inv t) {count : Nat} (hc : count ≤ t.globalLru.length) :
    ∃ t', t.squeeze count = .ok t' ∧ Inv t' ∧ t'.capacity = t.capacity ∧ t'.freeNodeCount = t.freeNodeCount + count := by
  obtain ⟨t', ht', hrest⟩ := releaseMany_inv h hc
  refine ⟨t', ?_, hrest⟩
  have := h.count
  have := h.poolLen
  rw [squeeze, require, if_pos (by simp; omega)]
  exact ht'

/-! ## Insertions -/

theorem advance_inv (h : Inv t) {cursor : NodePtr} (hc : cursor ∈ t.root :: t.globalLru) (hfree : 0 < t.freeNodeCount)
    (token : Token) :
    ∃ t' node, t.advance cursor token = .ok (t', node) ∧ Inv t' ∧ Extends t t' ∧
      t.freeNodeCount ≤ t'.freeNodeCount + 1 ∧ (token, node) ∈ (t'.nodes cursor).child.items := by
  cases hget : (t.nodes cursor).child.get? token with
  | none =>
    have hcount := h.count
    obtain ⟨f, hf, hfresh, hpool⟩ := getNode_ok _ h.poolLen h.pool (by omega) hfree
    have hnone := get?_eq_none.mp hget
    have hcf : cursor ≠ f := fun e => hfresh (e ▸ hc)
    have hfl : f ∉ t.globalLru := fun hm => hfresh (mem_cons_of_mem _ hm)
    obtain ⟨nodes1, h1⟩ : ∃ nodes1 : NodePtr → TrieNode,
      nodes1 = upd t.nodes f { token := token, parent := cursor, freq := 1 } := ⟨_, rfl⟩
    have hupd :
      upd (upd t.nodes f {}) f { (upd t.nodes f {} f : TrieNode) with token := token, parent := cursor, freq := 1 } = nodes1 := by
      rw [h1, upd_same]
      funext x
      by_cases hx : x = f
      · rw [hx, upd_same, upd_same]
      · rw [upd_ne _ _ hx, upd_ne _ _ hx, upd_ne _ _ hx]
    have hlinked := h.linked.adopt hc hfresh hnone h1
    have hkeep : ∀ n ∈ t.globalLru, nodes1 n = t.nodes n := fun n hn => by
      rw [h1, upd_ne _ _ (fun e : n = f => hfl (e ▸ hn))]
    obtain ⟨nodes2, h2⟩ : ∃ nodes2, nodes2 = upd nodes1 cursor { nodes1 cursor with
        child := (nodes1 cursor).child.set token f
        lru := f :: (nodes1 cursor).lru
        sortedChildren := sortedInsert nodes1 f (nodes1 cursor).sortedChildren } := ⟨_, rfl⟩
    rw [← h2] at hlinked
    have hsame : ∀ n, (nodes2 n).parent = (nodes1 n).parent ∧ (nodes2 n).token = (nodes1 n).token := by
      intro n
      rw [h2]
      exact ⟨upd_proj TrieNode.parent (by rfl) n, upd_proj TrieNode.token (by rfl) n⟩
    have hparent : ∀ n ∈ t.globalLru, (nodes2 n).parent = (t.nodes n).parent := fun n hn =>
      (hsame n).1.trans (congrArg _ (hkeep n hn))
    refine ⟨{ t with freeNodeCount := t.freeNodeCount - 1, nodes := nodes2, globalLru := t.globalLru ++ [f] }, f, ?_,
      ⟨h.poolLen, ?_, hlinked, ?_⟩, ⟨rfl, rfl, fun n hn => mem_append_left _ hn, hparent, fun n hn => ?_⟩, ?_, ?_⟩
    · unfold advance
      rw [hget]
      rw [hf, ok_bind]
      dsimp only
      rw [hupd, ← h2]
    · refine (List.Perm.append_left _ ?_).trans hpool
      rw [← cons_append]
      exact perm_append_comm
    · refine ParentsFirst.push (h.first.congr hparent) (fun n hn => ?_) ?_
      · rw [hparent n hn]
        exact fun e => hfresh (e ▸ h.linked.parent n hn)
      · rw [(hsame f).1, h1, upd_same]
        exact hcf
    · exact (hsame n).2.trans (congrArg _ (hkeep n hn))
    · show t.freeNodeCount ≤ t.freeNodeCount - 1 + 1
      omega
    · show (token, f) ∈ (nodes2 cursor).child.items
      rw [h2, upd_same]
      exact Dict.mem_set.mpr (.inl ⟨rfl, rfl⟩)
  | some node =>
    have hitem := get?_eq_some.mp hget
    obtain ⟨hn, hparent, htoken⟩ := (h.linked.child hc token node).mp hitem
    have hne : node ≠ cursor := fun e => h.first.2 node hn (hparent.trans e.symm)
    obtain ⟨nodes1, h1⟩ : ∃ nodes1, nodes1 = upd t.nodes node { t.nodes node with freq := (t.nodes node).freq + 1 } := ⟨_, rfl⟩
    have hlinked := h.linked.retouch hc hn hparent hne h1
    obtain ⟨nodes2, h2⟩ : ∃ nodes2, nodes2 = upd nodes1 cursor { nodes1 cursor with
        sortedChildren := sortedInsert nodes1 node (sortedErase t.nodes node (t.nodes cursor).sortedChildren)
        lru := node :: (nodes1 cursor).lru.erase node } := ⟨_, rfl⟩
    rw [← h2] at hlinked
    have hsame : ∀ n, (nodes2 n).parent = (t.nodes n).parent ∧ (nodes2 n).token = (t.nodes n).token ∧
        (nodes2 n).child = (t.nodes n).child := by
      intro n
      rw [h2, upd_proj TrieNode.parent (by rfl), upd_proj TrieNode.token (by rfl), upd_proj TrieNode.child (by rfl), h1]
      exact ⟨upd_proj TrieNode.parent (by rfl) n, upd_proj TrieNode.token (by rfl) n, upd_proj TrieNode.child (by rfl) n⟩
    refine ⟨{ t with nodes := nodes2 }, node, ?_, ⟨h.poolLen, h.pool, hlinked, h.first.congr fun n _ => (hsame n).1⟩,
      ⟨rfl, rfl, fun _ hn => hn, fun n _ => (hsame n).1, fun n _ => (hsame n).2.1⟩, Nat.le_succ _, ?_⟩
    · unfold advance
      rw [hget]
      dsimp only
      rw [← h1, ← h2]
    · show (token, node) ∈ (nodes2 cursor).child.items
      rw [(hsame cursor).2.2]
      exact hitem

/-- With enough free nodes the whole branch is there after the walk. -/
theorem descend_inv (branch : List Token) {t : Trie} {cursor : NodePtr} (h : Inv t) (hc : cursor ∈ t.root :: t.globalLru)
    (hfree : branch.length ≤ t.freeNodeCount) :
    ∃ t' path, t.descend cursor branch = .ok (t', path) ∧ Inv t' ∧ Extends t t' ∧
      PathFrom t'.nodes t'.globalLru cursor path ∧ (t'.find cursor branch).isSome := by
  induction branch generalizing t cursor with
  | nil => exact ⟨t, [], rfl, h, Extends.refl t, trivial, rfl⟩
  | cons token branch ih =>
    rw [length_cons] at hfree
    obtain ⟨t1, node, h1, hi1, hx1, hf1, hitem⟩ := advance_inv h hc (by omega) token
    have hc1 : cursor ∈ t1.root :: t1.globalLru := by
      rw [hx1.root]
      exact mem_cons.mpr ((mem_cons.mp hc).imp_right (hx1.mem cursor))
    obtain ⟨hn1, hp1, -⟩ := (hi1.linked.child hc1 token node).mp hitem
    obtain ⟨t2, path, h2, hi2, hx2, hpath, hfind⟩ := ih hi1 (mem_cons_of_mem _ hn1) (by omega)
    have hitem2 := hx2.child hi1 hi2 hc1 hitem
    refine ⟨t2, node :: path, ?_, hi2, hx1.trans hx2, ⟨hx2.mem node hn1, (hx2.parent node hn1).trans hp1, hpath⟩, ?_⟩
    · rw [descend, h1, ok_bind]
      dsimp only
      rw [h2]
      rfl
    · rw [find, get?_eq_some.mpr hitem2]
      exact hfind

theorem find_congr {l : List NodePtr} (tokens : List Token) :
    ∀ cursor, ({ t with globalLru := l } : Trie).find cursor tokens = t.find cursor tokens := by
  induction tokens with
  | nil => intro cursor; rfl
  | cons token tokens ih =>
    intro cursor
    simp only [find]
    cases (t.nodes cursor).child.get? token with
    | none => rfl
    | some c => exact ih c

theorem makeRoom_inv (h : Inv t) {size : Nat} (hs : size < t.capacity) :
    ∃ t', t.makeRoom size = .ok t' ∧ Inv t' ∧ t'.capacity = t.capacity ∧ size ≤ t'.freeNodeCount := by
  have hcount := h.count
  unfold makeRoom
  by_cases hlt : t.freeNodeCount < size
  · obtain ⟨t1, h1, hi1, hcap1, hf1⟩ := squeeze_inv h (show size - t.freeNodeCount ≤ t.globalLru.length by omega)
    exact ⟨t1, by rw [if_pos hlt, h1], hi1, hcap1, by omega⟩
  · exact ⟨t, if_neg hlt, h, rfl, by omega⟩

/-- One insertion step: nothing throws, and the branch is a root path at its end. -/
theorem insertBranch_inv (h : Inv t) {branch : List Token} (hb : branch.length < t.capacity) :
    ∃ t', t.insertBranch branch = .ok t' ∧ Inv t' ∧ t'.capacity = t.capacity ∧ (t'.find t'.root branch).isSome := by
  obtain ⟨t1, h1, hi1, hcap1, hfree1⟩ := makeRoom_inv h hb
  obtain ⟨t2, path, h2, hi2, hx2, hpath, hfind⟩ := descend_inv branch hi1 mem_cons_self hfree1
  rw [← hx2.root] at hpath hfind
  obtain ⟨hroot, hnd⟩ := nodup_cons.mp hi2.linked.nodup
  have hnodup := hi2.first.path_nodup hpath
  have hsplice := spliced_eq hnd hnodup
  have hperm := spliced_perm hnd hnodup fun n hn => (hpath.mem hn).1
  refine ⟨{ t2 with globalLru := path.reverse.foldl spliceFront t2.globalLru }, ?_, ⟨hi2.poolLen, ?_, ?_, ?_⟩,
    hx2.capacity.trans hcap1, ?_⟩
  · rw [insertBranch, h1, ok_bind, h2]
    rfl
  · rw [hsplice]
    exact (List.Perm.append_left _ (hperm.cons _)).trans hi2.pool
  · rw [hsplice]
    exact hi2.linked.perm hperm
  · rw [hsplice]
    exact hi2.first.splice hroot hpath
  · rw [find_congr]
    exact hfind

/-! ## Runs -/

/-- `n` is below the root. -/
def InTrie (t : Trie) (n : NodePtr) : Prop := ∃ tokens, tokens ≠ [] ∧ t.find t.root tokens = some n

/-- A container that holds each node that satisfies `P` exactly once, and nothing else. -/
def Holds (l : List NodePtr) (P : NodePtr → Prop) : Prop := l.Nodup ∧ ∀ n, n ∈ l ↔ P n

/-- What holds of the pool and the containers between any two steps. -/
structure Consistent (t : Trie) : Prop where
  pool : Holds (t.nodePool.take t.freeNodeCount) fun n => n < t.capacity ∧ n ≠ t.root ∧ ¬ t.InTrie n
  root : t.root < t.capacity ∧ ¬ t.InTrie t.root
  inPool : ∀ n, t.InTrie n → n < t.capacity
  globalLru : Holds t.globalLru t.InTrie
  parent : ∀ n, t.InTrie n → (t.nodes n).parent = t.root ∨ t.InTrie (t.nodes n).parent
  containers : ∀ p, p = t.root ∨ t.InTrie p → ∀ l ∈ [(t.nodes p).child.values, (t.nodes p).lru, (t.nodes p).sortedChildren],
    Holds l fun n => t.InTrie n ∧ (t.nodes n).parent = p
  childToken : ∀ p, p = t.root ∨ t.InTrie p → ∀ e ∈ (t.nodes p).child.items, (t.nodes e.2).token = e.1
  byFreq : ∀ p, p = t.root ∨ t.InTrie p → (t.nodes p).sortedChildren.Pairwise fun a b => (t.nodes b).freq ≤ (t.nodes a).freq
  precedes : ∀ a b tokens, t.InTrie a → tokens ≠ [] → t.find a tokens = some b → t.globalLru.idxOf a < t.globalLru.idxOf b

theorem find_append (tokens tokens' : List Token) : ∀ cursor,
    t.find cursor (tokens ++ tokens') = (t.find cursor tokens).bind fun c => t.find c tokens' := by
  induction tokens with
  | nil => intro cursor; rfl
  | cons token tokens ih =>
    intro cursor
    simp only [cons_append, find]
    cases (t.nodes cursor).child.get? token with
    | none => rfl
    | some c => exact ih c

/-- A walk down ends further back in the global list. -/
theorem find_mem (h : Inv t) {tokens : List Token} {p n : NodePtr} (hp : p ∈ t.root :: t.globalLru) (hne : tokens ≠ [])
    (hfind : t.find p tokens = some n) :
    n ∈ t.globalLru ∧ (p ∈ t.globalLru → t.globalLru.idxOf p < t.globalLru.idxOf n) := by
  induction tokens generalizing p n with
  | nil => exact absurd rfl hne
  | cons token tokens ih =>
    obtain ⟨c, hc, hfind⟩ := Option.bind_eq_some_iff.mp hfind
    obtain ⟨hcl, hcp, -⟩ := (h.linked.child hp token c).mp (get?_eq_some.mp hc)
    have hlt : p ∈ t.globalLru → t.globalLru.idxOf p < t.globalLru.idxOf c := fun hpl => by
      have := h.first.idxOf_parent hcl (hcp ▸ hpl)
      rwa [hcp] at this
    cases tokens with
    | nil =>
      cases hfind
      exact ⟨hcl, hlt⟩
    | cons token' tokens =>
      obtain ⟨hn, hcn⟩ := ih (mem_cons_of_mem _ hcl) (cons_ne_nil _ _) hfind
      exact ⟨hn, fun hpl => (hlt hpl).trans (hcn hcl)⟩

theorem inTrie_of_mem (h : Inv t) : ∀ {k : Nat} {n : NodePtr}, n ∈ t.globalLru → t.globalLru.idxOf n = k → t.InTrie n := by
  intro k
  induction k using Nat.strong_induction_on with
  | _ k ih =>
    intro n hn hk
    have hp := h.linked.parent n hn
    have hitem := get?_eq_some.mpr ((h.linked.child hp (t.nodes n).token n).mpr ⟨hn, rfl, rfl⟩)
    rcases mem_cons.mp hp with hroot | hpl
    · refine ⟨[(t.nodes n).token], cons_ne_nil _ _, ?_⟩
      rw [hroot] at hitem
      rw [find, hitem]
      rfl
    obtain ⟨tokens, -, hfind⟩ := ih _ (hk ▸ h.first.idxOf_parent hn hpl) hpl rfl
    refine ⟨tokens ++ [(t.nodes n).token], by simp, ?_⟩
    rw [find_append, hfind, Option.bind_some, find, hitem]
    rfl

theorem inTrie_iff (h : Inv t) : t.InTrie n ↔ n ∈ t.globalLru := by
  refine ⟨fun ⟨tokens, hne, hfind⟩ => (find_mem h mem_cons_self hne hfind).1, fun hn => inTrie_of_mem h hn rfl⟩

theorem Inv.consistent (h : Inv t) : Consistent t := by
  have hin : ∀ n, t.InTrie n ↔ n ∈ t.globalLru := fun n => inTrie_iff h
  have hlive : ∀ {p}, p = t.root ∨ t.InTrie p → p ∈ t.root :: t.globalLru := fun {p} hp =>
    mem_cons.mpr (hp.imp_right (hin p).mp)
  obtain ⟨hroot, hnd⟩ := nodup_cons.mp h.linked.nodup
  have hpool := nodup_append.mp (h.pool.nodup_iff.mpr nodup_range)
  have hmem : ∀ n, n < t.capacity ↔ n ∈ t.nodePool.take t.freeNodeCount ∨ n = t.root ∨ n ∈ t.globalLru := by
    intro n
    rw [← mem_range, ← h.pool.mem_iff, mem_append, mem_cons]
  refine ⟨⟨hpool.1, fun n => ?_⟩, ⟨(hmem _).mpr (.inr (.inl rfl)), fun hr => hroot ((hin _).mp hr)⟩,
    fun n hn => (hmem n).mpr (.inr (.inr ((hin n).mp hn))), ⟨hnd, fun n => (hin n).symm⟩, fun n hn => ?_, fun p hp l hl => ?_,
    fun p hp e he => ?_, fun p hp => ?_, fun a b tokens ha hne hfind => ?_⟩
  · dsimp only
    rw [hin, hmem]
    constructor
    · intro hn
      refine ⟨.inl hn, fun e => ?_, fun hl => ?_⟩
      · exact hpool.2.2 n hn n (e ▸ mem_cons_self) rfl
      · exact hpool.2.2 n hn n (mem_cons_of_mem _ hl) rfl
    · rintro ⟨hn | hn | hn, hr, hl⟩
      · exact hn
      · exact absurd hn hr
      · exact absurd hn hl
  · exact (mem_cons.mp (h.linked.parent n ((hin n).mp hn))).imp_right (hin _).mpr
  · have hp := hlive hp
    simp only [hin]
    simp only [mem_cons, not_mem_nil, or_false] at hl
    rcases hl with rfl | rfl | rfl
    · refine ⟨?_, fun n => ?_⟩
      · -- the token of a child is its key, so different keys have different children
        rw [values, List.Nodup, pairwise_map]
        refine imp_of_mem (fun {a b} ha hb hab e => hab ?_) (pairwise_map.mp (t.nodes p).child.nodup)
        rw [← ((h.linked.child hp a.1 a.2).mp ha).2.2, ← ((h.linked.child hp b.1 b.2).mp hb).2.2, e]
      rw [mem_values]
      simp only [h.linked.child hp]
      constructor
      · rintro ⟨_, hn, hnp, _⟩
        exact ⟨hn, hnp⟩
      · rintro ⟨hn, hnp⟩
        exact ⟨_, hn, hnp, rfl⟩
    · exact ⟨(h.linked.kids p hp).lruNodup, (h.linked.kids p hp).lru⟩
    · exact ⟨(h.linked.kids p hp).sorted.nodup, (h.linked.kids p hp).children⟩
  · exact ((h.linked.child (hlive hp) e.1 e.2).mp he).2.2
  · refine imp (fun {a b} hab => ?_) (h.linked.kids p (hlive hp)).sorted
    simp only [compareByFreq, decide_eq_true_eq] at hab
    omega
  · have ha := (hin a).mp ha
    exact (find_mem h (mem_cons_of_mem _ ha) hne hfind).2 ha

end Trie

/-- The calls that change the trie. -/
inductive Op where
  | insert (data : List Token)
  | reset

namespace Trie

def exec (p : Param) (t : Trie) : Op → Except Failure Trie
  | .insert data => t.insert p data
  | .reset => t.reset

variable {p : Param}

theorem branches_length {data branch : List Token} (h : branch ∈ branches p data) : branch.length ≤ p.branchLength := by
  obtain ⟨i, -, rfl⟩ := mem_map.mp h
  simp

theorem insertBranches_inv {bs : List (List Token)} {t : Trie} (h : Inv t) (ht : t.capacity = capacity)
    (hb : ∀ b ∈ bs, b.length < capacity) : ∃ t', bs.foldlM insertBranch t = .ok t' ∧ Inv t' ∧ t'.capacity = capacity := by
  refine foldlM_ok (fun b hm t ht => ?_) ⟨h, ht⟩
  obtain ⟨t', h', hi, hcap, -⟩ := insertBranch_inv ht.1 (ht.2 ▸ hb b hm)
  exact ⟨t', h', hi, hcap.trans ht.2⟩

theorem exec_inv (hcap : p.branchLength < capacity) {t : Trie} (h : Inv t) (ht : t.capacity = capacity)
    (op : Op) : ∃ t', t.exec p op = .ok t' ∧ Inv t' ∧ t'.capacity = capacity := by
  cases op with
  | insert data => exact insertBranches_inv h ht fun b hb => lt_of_le_of_lt (branches_length hb) hcap
  | reset =>
    obtain ⟨t', ht', hi, hc⟩ := restart_inv t.capacity t.nodes (by omega)
    exact ⟨t', ht', hi, hc.trans ht⟩

theorem run_inv (hcap : p.branchLength < capacity) (ops : List Op) {t : Trie} (h : Inv t) (ht : t.capacity = capacity) :
    ∃ t', ops.foldlM (exec p) t = .ok t' ∧ Inv t' ∧ t'.capacity = capacity :=
  foldlM_ok (fun op _ _ ht => exec_inv hcap ht.1 ht.2 op) ⟨h, ht⟩

/-- Room for three nodes besides the root, so that the second sequence evicts. -/
def small : Param := { branchLength := 3, minMatchWindowSize := 1, maxMatchWindowSize := 2 }

end Trie

end DynaSpec.Speculative.Ngram
