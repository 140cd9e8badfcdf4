/-
  DynaSpec.Speculative.NgramDraft — the draft trees of the n-gram matchers.

  Both matchers only ever ask for the position below a parent for a token, so the tree they
  build has its positions numbered from the root down and every position but the root below
  exactly one other (`Grown`). An entry of either worklist stands for a position and is
  replaced by entries of later positions, of which there are at most the draft budget, so the
  loops end, whatever the trie (`draft_settles`).

  `fillResult` visits the positions breadth first: each once, its parent before it
  (`Visited`). `fillResult_settles`: the tokens and the mask that it returns are those of a
  tree with the visited positions and the padding (`Serialized`).
-/

import DynaSpec.Lib.LinkTree
import DynaSpec.Lib.Worklist
import DynaSpec.Speculative.Ngram

namespace DynaSpec.Speculative.Ngram

open DynaSpec.Lib List OrderedTree Nat

/-! ## Trees that grow position by position -/

structure Grown (d : Draft) : Prop where
  root : 0 < d.cursor
  lt : ∀ p tok c, (tok, c) ∈ (d.tree p).next.items → p < c ∧ c < d.cursor
  unique : ∀ p q tok tok' c, (tok, c) ∈ (d.tree p).next.items → (tok', c) ∈ (d.tree q).next.items → p = q ∧ tok = tok'
  covers : ∀ c, 0 < c → c < d.cursor → ∃ p tok, (tok, c) ∈ (d.tree p).next.items

theorem Grown.empty : Grown {} := by
  refine ⟨one_pos, nofun, nofun, fun c h0 hc => ?_⟩
  have hc : c < 1 := hc
  omega

/-- What `attach` gives: a position below `parent`, and a tree that has grown by at most it. -/
structure Attached (d d' : Draft) (parent pos : Nat) : Prop where
  grown : Grown d'
  below : parent < pos ∧ pos < d'.cursor
  cursor : d.cursor ≤ d'.cursor ∧ d'.cursor ≤ d.cursor + 1

theorem Grown.attach {d : Draft} (h : Grown d) {parent : Nat} (hp : parent < d.cursor) (token : Token) :
    Attached d (d.attach parent token).1 parent (d.attach parent token).2 := by
  unfold Draft.attach
  cases hget : (d.tree parent).next.get? token with
  | some pos =>
    exact ⟨h, h.lt parent token pos (Dict.get?_eq_some.mp hget), le_refl _, le_succ _⟩
  | none =>
    have hnone := Dict.get?_eq_none.mp hget
    -- the links of the new tree are those of the old one and one to the new position
    have hmem : ∀ q tok c, (tok, c) ∈ (upd d.tree parent { next := (d.tree parent).next.set token d.cursor } q).next.items ↔
        (q = parent ∧ tok = token ∧ c = d.cursor) ∨ (tok, c) ∈ (d.tree q).next.items := by
      intro q tok c
      by_cases hq : q = parent
      · subst hq
        rw [upd_same, Dict.mem_set]
        constructor
        · intro hm
          rcases hm with ⟨ht, hc⟩ | ⟨-, hm⟩
          · exact .inl ⟨rfl, ht, hc⟩
          · exact .inr hm
        · intro hm
          rcases hm with ⟨-, ht, hc⟩ | hm
          · exact .inl ⟨ht, hc⟩
          · exact .inr ⟨fun e => hnone c (e ▸ hm), hm⟩
      · rw [upd_ne _ _ hq]
        simp [hq]
    refine ⟨⟨succ_pos _, fun p tok c hc => ?_, fun p q tok tok' c hc hc' => ?_, fun c h0 hc => ?_⟩, ⟨hp, lt_succ_self _⟩,
      le_succ _, le_refl _⟩
    · rcases (hmem p tok c).mp hc with ⟨rfl, -, rfl⟩ | hc
      · exact ⟨hp, lt_succ_self _⟩
      · have := h.lt p tok c hc
        exact ⟨this.1, lt_succ_of_lt this.2⟩
    · rcases (hmem p tok c).mp hc with ⟨hp', htok, hc1⟩ | hold
      · rcases (hmem q tok' c).mp hc' with ⟨hq', htok', -⟩ | hold'
        · exact ⟨hp'.trans hq'.symm, htok.trans htok'.symm⟩
        · exact absurd (h.lt q tok' c hold').2 (by omega)
      rcases (hmem q tok' c).mp hc' with ⟨-, -, hc1⟩ | hold'
      · exact absurd (h.lt p tok c hold).2 (by omega)
      · exact h.unique p q tok tok' c hold hold'
    · rcases Nat.lt_succ_iff_lt_or_eq.mp hc with hlt | rfl
      · obtain ⟨p, tok, hm⟩ := h.covers c h0 hlt
        exact ⟨p, tok, (hmem p tok c).mpr (.inr hm)⟩
      · exact ⟨parent, token, (hmem _ _ _).mpr (.inl ⟨rfl, rfl, rfl⟩)⟩

/-- A tree within the draft budget. -/
structure Within (draftTokenNum : Nat) (d : Draft) : Prop where
  grown : Grown d
  le : d.cursor ≤ draftTokenNum + 1

theorem Within.attach {n : Nat} {d : Draft} (h : Within n d) {parent : Nat} (hp : parent < d.cursor) (hle : d.cursor ≤ n)
    (token : Token) : Within n (d.attach parent token).1 :=
  have ha := h.grown.attach hp token
  ⟨ha.grown, ha.cursor.2.trans (succ_le_succ hle)⟩

section
variable {F : Type} [NatCast F] [Add F] [Sub F] [Mul F] [Div F] {n : Nat} {t : Trie}

omit [NatCast F] [Add F] [Sub F] [Mul F] [Div F] in
theorem visitLru_spec (parent : Nat) (breadth : F) (i : Nat) (lru : List NodePtr) (d : Draft) (queue : List (Pending F))
    (h : Within n d) (hp : parent < d.cursor) :
    ∃ d' new, visitLru n t parent breadth i lru (d, queue) = (d', queue ++ new) ∧ Within n d' ∧ d.cursor ≤ d'.cursor ∧
      ∀ e ∈ new, parent < e.parent ∧ e.parent < d'.cursor := by
  induction i generalizing lru d queue with
  | zero => exact ⟨d, [], by simp [visitLru], h, le_refl _, nofun⟩
  | succ i ih =>
    cases lru with
    | nil => exact ⟨d, [], by simp [visitLru], h, le_refl _, nofun⟩
    | cons x lru =>
      by_cases hle : d.cursor ≤ n
      · have ha := h.grown.attach hp (t.nodes x).token
        obtain ⟨d', new, he, hw, hcur, hnew⟩ := ih lru (d.attach parent (t.nodes x).token).1
          (queue ++ [⟨(d.attach parent (t.nodes x).token).2, breadth, x⟩]) (h.attach hp hle _) (lt_of_lt_of_le hp ha.cursor.1)
        refine ⟨d', ⟨(d.attach parent (t.nodes x).token).2, breadth, x⟩ :: new, ?_, hw, ha.cursor.1.trans hcur, fun e hm => ?_⟩
        · rw [append_assoc] at he
          rw [visitLru, if_pos hle]
          exact he
        · rcases mem_cons.mp hm with rfl | hm
          · exact ⟨ha.below.1, lt_of_lt_of_le ha.below.2 hcur⟩
          · exact hnew e hm
      · exact ⟨d, [], by simp [visitLru, hle], h, le_refl _, nofun⟩

variable (toInt : F → Int)

/-- Every entry of the worklist stands for a position of the tree. -/
def Live {α : Type} (n : Nat) (parent : α → Nat) (s : Draft × List α) : Prop := Within n s.1 ∧ ∀ e ∈ s.2, parent e < s.1.cursor

theorem bfsFrom_settles (p : Param) {d : Draft} (h : Within n d) (node : NodePtr × Nat) :
    Settles (fun fuel => bfsFrom toInt p n fuel t d node) (Within n) := by
  have hloop := fun scale : F => @whileLoop_settles (Draft × List (Pending F)) Unit ()
    (fun s => !s.2.isEmpty && decide (s.1.cursor ≤ n)) (fun s => .ok (bfsRound toInt n t scale s))
    (Live n Pending.parent) _ (InvImage.wf Prod.snd (shrinks_wf fun e : Pending F => n + 1 - e.parent)) (by
      rintro ⟨d, queue⟩ ⟨hw, hq⟩ hc
      cases queue with
      | nil => simp at hc
      | cons front queue =>
        have hfront := hq front mem_cons_self
        obtain ⟨d', new, he, hw', hcur, hnew⟩ := visitLru_spec front.parent (front.breadth - scale)
          (max 1 (toInt front.breadth)).toNat (t.nodes front.node).lru d queue hw hfront
        refine ⟨_, congrArg _ he, ⟨hw', fun e hm => ?_⟩, shrinks_of_perm (List.Perm.refl _) (List.Perm.refl _) fun e hm => ?_⟩
        · rcases mem_append.mp hm with hm | hm
          · exact lt_of_lt_of_le (hq e (mem_cons_of_mem _ hm)) hcur
          · exact (hnew e hm).2
        · have := hnew e hm
          have := hw'.le
          omega)
  refine (hloop _ ⟨h, fun e he => ?_⟩).bind fun s hs => Settles.pure hs.1.1
  rw [mem_singleton.mp he]
  exact h.grown.root

variable [LT F] [DecidableLT F]

omit [Sub F] in
theorem addToHeap_spec (p : Param) (heap : List (Weighted F)) (parent : Nat) (node : NodePtr) (prob : F) :
    ∃ new, addToHeap p t heap parent node prob = heap ++ new ∧ ∀ e ∈ new, e.parent = parent := by
  refine ⟨_, rfl, fun e he => ?_⟩
  obtain ⟨c, -, rfl⟩ := mem_map.mp he
  rfl

omit [Sub F] in
theorem probFrom_settles (pq : PriorityQueue F) (p : Param) {s : Draft × List (Weighted F)} (h : Live n Weighted.parent s)
    (node : NodePtr × Nat) : Settles (fun fuel => probFrom pq p n fuel t s node) (Live n Weighted.parent) := by
  have hloop := @whileLoop_settles (Draft × List (Weighted F)) Unit ()
    (fun s => !s.2.isEmpty && decide (s.1.cursor ≤ n)) (fun s => .ok (probRound pq p t s))
    (Live n Weighted.parent) _ (InvImage.wf Prod.snd (shrinks_wf fun e : Weighted F => n + 1 - e.parent)) (by
      rintro ⟨d, heap⟩ ⟨hw, hq⟩ hc
      simp only [Bool.and_eq_true, Bool.not_eq_true', isEmpty_eq_false_iff, decide_eq_true_eq] at hc
      dsimp only at hw hq
      obtain ⟨e, rest, hpop⟩ := pq.some_of_ne heap hc.1
      have hperm := pq.perm hpop
      have he := hq e (hperm.mem_iff.mpr mem_cons_self)
      have ha := hw.grown.attach he (t.nodes e.node).token
      have hw' := hw.attach he hc.2 (t.nodes e.node).token
      obtain ⟨new, hadd, hnew⟩ := addToHeap_spec (t := t) p rest (d.attach e.parent (t.nodes e.node).token).2 e.node e.prob
      have hround : probRound pq p t (d, heap) = ((d.attach e.parent (t.nodes e.node).token).1, rest ++ new) := by
        simp [probRound, hpop, hadd]
      refine ⟨_, congrArg _ hround, ⟨hw', fun x hx => ?_⟩, shrinks_of_perm hperm (List.Perm.refl _) fun x hx => ?_⟩
      · rcases mem_append.mp hx with hx | hx
        · exact lt_of_lt_of_le (hq x (hperm.mem_iff.mpr (mem_cons_of_mem _ hx))) ha.cursor.1
        · rw [hnew x hx]
          exact ha.below.2
      · rw [hnew x hx]
        have := ha.below
        omega)
  obtain ⟨new, hadd, hnew⟩ := addToHeap_spec (t := t) p s.2 0 node.1 ((1 : Nat) : F)
  have hstart : Live n Weighted.parent (s.1, addToHeap p t s.2 0 node.1 ((1 : Nat) : F)) := by
    refine ⟨h.1, fun e he => ?_⟩
    rw [hadd] at he
    rcases mem_append.mp he with he | he
    · exact h.2 e he
    · rw [hnew e he]
      exact h.1.grown.root
  obtain ⟨s', hs', hsettle⟩ := hloop hstart
  exact ⟨s', hs'.1, hsettle⟩

/-- Both matchers end with a tree within the budget. -/
theorem draft_settles (pq : PriorityQueue F) (p : Param) (t : Trie) (batchSize : Nat) (tokens : List Token) :
    Settles (fun fuel => draft toInt pq p fuel t batchSize tokens) (Within (p.getDraftTokenNum batchSize)) := by
  have hstart : Within (p.getDraftTokenNum batchSize) {} := ⟨Grown.empty, succ_le_succ (zero_le _)⟩
  unfold draft
  cases p.matchType with
  | bfs => exact Settles.foldlM (fun d hd node _ => bfsFrom_settles toInt p hd node) hstart
  | prob =>
    refine Settles.bind (Settles.foldlM (fun s hs node _ => probFrom_settles pq p hs node) ⟨hstart, ?_⟩)
      fun s hs => Settles.pure hs.1
    exact nofun

end

/-! ## The breadth-first visit -/

/-- `vis` are the positions visited so far, in this order; the queue holds the others known. -/
structure Visited (tree : Nat → Node) (last : Token) (s : Filling) (vis : List Nat) : Prop where
  token : s.token.length = vis.length
  prevs : s.prevs.length = vis.length
  first : s.token.getD 0 0 = last ∧ s.prevs.getD 0 0 = -1 ∧ vis.getD 0 0 = 0 ∧ 0 < vis.length
  nodup : (vis ++ s.queue.map fun e => e.2.1).Nodup
  queue : ∀ e ∈ s.queue, e.2.2 < vis.length ∧ (e.1, e.2.1) ∈ (tree (vis.getD e.2.2 0)).next.items
  edge : ∀ i, 0 < i → i < vis.length → ∃ prev < i, s.prevs.getD i 0 = (prev : Int) ∧
    (s.token.getD i 0, vis.getD i 0) ∈ (tree (vis.getD prev 0)).next.items
  closed : ∀ p ∈ vis, ∀ tok c, (tok, c) ∈ (tree p).next.items → c ∈ vis ∨ c ∈ s.queue.map fun e => e.2.1

section
variable {it : Iteration} {d : Draft} {last : Token} {s : Filling} {vis : List Nat}

theorem mem_entries {tree : Nat → Node} {pos prev : Nat} {e : Token × Nat × Nat} :
    e ∈ entries it tree pos prev ↔ (e.1, e.2.1) ∈ (tree pos).next.items ∧ e.2.2 = prev := by
  unfold entries
  rw [mem_map]
  constructor
  · intro h
    obtain ⟨a, ha, rfl⟩ := h
    exact ⟨(it.perm pos _).mem_iff.mp ha, rfl⟩
  · intro h
    exact ⟨(e.1, e.2.1), (it.perm pos _).mem_iff.mpr h.1, by rw [← h.2]⟩

theorem entries_nodup (h : Grown d) (pos prev : Nat) : ((entries it d.tree pos prev).map fun e => e.2.1).Nodup := by
  have hitems : ((d.tree pos).next.items.map Prod.snd).Nodup := by
    refine pairwise_map.mpr (List.Pairwise.imp_of_mem (fun {a b} ha hb hab e => hab ?_) (pairwise_map.mp (d.tree pos).next.nodup))
    exact (h.unique pos pos a.1 b.1 a.2 ha (e ▸ hb)).2
  rw [entries, map_map]
  exact ((it.perm pos _).map Prod.snd).nodup_iff.mpr hitems

section
variable (h : Visited d.tree last s vis)
include h

/-- Everything known besides the root is a child of a visited position. -/
theorem Visited.parent {c : Nat} (hc : c ∈ vis ++ s.queue.map fun e => e.2.1) :
    c = 0 ∨ ∃ q ∈ vis, ∃ tok, (tok, c) ∈ (d.tree q).next.items := by
  have hget : ∀ i < vis.length, vis.getD i 0 ∈ vis := fun i hi => by
    rw [getD_eq_getElem _ _ hi]
    exact getElem_mem hi
  rcases mem_append.mp hc with hc | hc
  · obtain ⟨i, hi, rfl⟩ := getElem_of_mem hc
    rcases Nat.eq_zero_or_pos i with rfl | hpos
    · rw [← getD_eq_getElem vis 0 hi]
      exact .inl h.first.2.2.1
    obtain ⟨prev, hprev, -, hedge⟩ := h.edge i hpos hi
    rw [getD_eq_getElem vis 0 hi] at hedge
    exact .inr ⟨_, hget prev (by omega), _, hedge⟩
  · obtain ⟨e, he, rfl⟩ := mem_map.mp hc
    exact .inr ⟨_, hget _ (h.queue e he).1, _, (h.queue e he).2⟩

theorem Visited.lt (hd : Grown d) {c : Nat} (hc : c ∈ vis ++ s.queue.map fun e => e.2.1) : c < d.cursor := by
  rcases h.parent hc with rfl | ⟨q, -, tok, hq⟩
  · exact hd.root
  · exact (hd.lt q tok c hq).2

theorem Visited.length_le (hd : Grown d) : (vis ++ s.queue.map fun e => e.2.1).length ≤ d.cursor := by
  have hsub := subperm_of_subset h.nodup fun c hc => mem_range.mpr (h.lt hd hc)
  simpa using hsub.length_le

end

theorem Visited.start (hd : Grown d) (last : Token) :
    Visited d.tree last { token := [last], prevs := [-1], queue := entries it d.tree 0 0 } [0] := by
  refine ⟨rfl, rfl, ⟨rfl, rfl, rfl, one_pos⟩, ?_, fun e he => ?_, fun i h0 hi => ?_, fun p hp tok c hc => ?_⟩
  · rw [singleton_append, nodup_cons]
    refine ⟨fun hm => ?_, entries_nodup hd 0 0⟩
    obtain ⟨e, he, he0⟩ := mem_map.mp hm
    have := (hd.lt 0 _ _ (mem_entries.mp he).1).1
    omega
  · obtain ⟨hitem, hprev⟩ := mem_entries.mp he
    rw [hprev]
    exact ⟨one_pos, hitem⟩
  · simp only [length_singleton] at hi
    omega
  · rw [mem_singleton.mp hp] at hc
    exact .inr (mem_map.mpr ⟨(tok, c, 0), mem_entries.mpr ⟨hc, rfl⟩, rfl⟩)

theorem getD_concat_new {α : Type} (l : List α) (a x : α) : (l ++ [a]).getD l.length x = a := by
  rw [getD_append_right _ _ _ _ (le_refl _)]
  simp

/-- One round visits one position more. -/
theorem Visited.round (hd : Grown d) (h : Visited d.tree last s vis) {tok : Token} {pos prev : Nat}
    {queue : List (Token × Nat × Nat)}
    (hq : s.queue = (tok, pos, prev) :: queue) : Visited d.tree last (fillRound it d.tree s) (vis ++ [pos]) := by
  have hnd := h.nodup
  rw [hq, map_cons] at hnd
  have hnd' : (vis ++ [pos] ++ queue.map fun e => e.2.1).Nodup := by
    rw [append_assoc]
    exact hnd
  have hpos : pos ∉ vis := fun hm => (nodup_append.mp hnd).2.2 pos hm pos mem_cons_self rfl
  obtain ⟨hprev, hitem⟩ := h.queue (tok, pos, prev) (hq ▸ mem_cons_self)
  have hknown : ∀ c ∈ vis ++ [pos] ++ queue.map fun e => e.2.1, c ∈ vis ++ s.queue.map fun e => e.2.1 := by
    intro c hc
    rw [hq, map_cons]
    rwa [append_assoc] at hc
  rw [fillRound, hq]
  obtain ⟨htok, hprevs, ⟨hf1, hf2, hf3, hf4⟩⟩ := And.intro h.token (And.intro h.prevs h.first)
  refine ⟨by simp [htok], by simp [hprevs], ⟨?_, ?_, ?_, by simp⟩, ?_, fun e he => ?_, fun i h0 hi => ?_,
    fun p hp tok' c hc => ?_⟩
  · rw [getD_append _ _ _ _ (by omega)]
    exact hf1
  · rw [getD_append _ _ _ _ (by omega)]
    exact hf2
  · rw [getD_append _ _ _ _ hf4]
    exact hf3
  · -- the children of `pos` were not known before: their only parent was not visited
    rw [map_append, ← append_assoc]
    refine nodup_append.mpr ⟨hnd', entries_nodup hd pos _, fun a ha b hb e => ?_⟩
    obtain ⟨x, hx, rfl⟩ := mem_map.mp hb
    have hchild := (mem_entries.mp hx).1
    rcases h.parent (hknown a ha) with h0 | ⟨q, hqv, tok', hqa⟩
    · have := (hd.lt pos _ _ hchild).1
      omega
    · rw [e] at hqa
      exact hpos ((hd.unique q pos _ _ _ hqa hchild).1 ▸ hqv)
  · rcases mem_append.mp he with he | he
    · obtain ⟨hlt, hit⟩ := h.queue e (hq ▸ mem_cons_of_mem _ he)
      rw [getD_append _ _ _ _ hlt, length_append]
      exact ⟨by omega, hit⟩
    obtain ⟨hit, hp⟩ := mem_entries.mp he
    rw [hp, htok, getD_concat_new]
    exact ⟨by simp, hit⟩
  · rw [length_append, length_singleton] at hi
    rcases Nat.lt_succ_iff_lt_or_eq.mp hi with hlt | rfl
    · obtain ⟨prev', hlt', hpi, hit⟩ := h.edge i h0 hlt
      refine ⟨prev', hlt', ?_, ?_⟩
      · rw [getD_append _ _ _ _ (by omega)]
        exact hpi
      · rw [getD_append _ _ _ _ (by omega), getD_append _ _ _ _ hlt, getD_append _ _ _ _ (by omega)]
        exact hit
    refine ⟨prev, hprev, ?_, ?_⟩
    · dsimp only
      rw [← hprevs, getD_concat_new]
    · rw [getD_concat_new, getD_append vis _ _ _ hprev]
      rw [← htok, getD_concat_new]
      exact hitem
  · rcases mem_append.mp hp with hp | hp
    · rcases h.closed p hp tok' c hc with hc | hc
      · exact .inl (mem_append_left _ hc)
      rw [hq, map_cons] at hc
      rcases mem_cons.mp hc with rfl | hc
      · exact .inl (mem_append_right _ mem_cons_self)
      refine .inr ?_
      rw [map_append]
      exact mem_append_left _ hc
    rw [mem_singleton.mp hp] at hc
    refine .inr ?_
    rw [map_append]
    exact mem_append_right _ (mem_map.mpr ⟨(tok', c, s.token.length), mem_entries.mpr ⟨hc, rfl⟩, rfl⟩)

/-- With the queue empty every position has been visited. -/
theorem Visited.perm (hd : Grown d) (h : Visited d.tree last s vis) (hq : s.queue = []) : vis.Perm (range d.cursor) := by
  have hnd := h.nodup
  rw [hq, map_nil, append_nil] at hnd
  refine (perm_ext_iff_of_nodup hnd nodup_range).mpr fun c => ?_
  rw [mem_range]
  refine ⟨fun hc => h.lt hd (mem_append_left _ hc), fun hc => ?_⟩
  induction c using Nat.strong_induction_on with
  | _ c ih =>
    rcases Nat.eq_zero_or_pos c with rfl | hpos
    · have := h.first.2.2
      rw [getD_eq_getElem _ _ this.2] at this
      exact mem_of_getElem this.1
    obtain ⟨p, tok, hp⟩ := hd.covers c hpos hc
    have hlt := (hd.lt p tok c hp).1
    refine (h.closed p (ih p hlt (by omega)) tok c hp).resolve_right fun hm => ?_
    rw [hq] at hm
    cases hm

end

/-! ## The mask -/

/-- `m` has the ancestors of the nodes of `T` in its first `k` rows, and nothing below. -/
def MaskUpTo {n : Nat} (T : OrderedTree n) (k : Nat) (m : Nat → Nat) : Prop :=
  ∀ i < n, ∀ j < n, (i < k → (T.Above j i → m (i * n + j) = 1) ∧ (¬ T.Above j i → m (i * n + j) = 0)) ∧
    (k ≤ i → 0 < i → m (i * n + j) = 0)

theorem copyCells_row {n k p i j : Nat} {m : Nat → Nat} (hj : j < n) (hp : p < n) :
    copyCells m (k * n) (p * n) (p + 1) (i * n + j) = if i = k ∧ j ≤ p then m (p * n + j) else m (i * n + j) := by
  unfold copyCells
  by_cases h : i = k ∧ j ≤ p
  · obtain ⟨rfl, hjp⟩ := h
    rw [if_pos ((flat_between hj (Nat.succ_le_of_lt hp)).mpr ⟨rfl, by omega⟩), if_pos ⟨rfl, hjp⟩, Nat.add_sub_cancel_left]
  rw [if_neg fun hb => h ?_, if_neg h]
  obtain ⟨rfl, hlt⟩ := (flat_between hj (succ_le_of_lt hp)).mp hb
  exact ⟨rfl, by omega⟩

theorem upd_flat {n i j k l : Nat} (m : Nat → Nat) (v : Nat) (hj : j < n) (hl : l < n) :
    upd m (k * n + l) v (i * n + j) = if i = k ∧ j = l then v else m (i * n + j) := by
  by_cases h : i = k ∧ j = l
  · obtain ⟨rfl, rfl⟩ := h
    rw [upd_same, if_pos ⟨rfl, rfl⟩]
  · rw [upd_ne _ _ fun e => h (flat_inj hj hl (by exact_mod_cast e)), if_neg h]

section
variable {n : Nat} {prevs : List Int} {par : Nat → Nat} {hlt : ∀ c, 0 < c → c < n → par c < c}

theorem maskRow_upTo (h0 : prevs.getD 0 (-1) = -1) (hpar : ∀ c, 0 < c → c < n → prevs.getD c (-1) = (par c : Int)) {k : Nat}
    (hk : k < n) {m : Nat → Nat} (hm : MaskUpTo (ofParent n par hlt) k m)
    (hroot : k = 0 → ∀ j < n, 0 < j → m j = 0) : MaskUpTo (ofParent n par hlt) (k + 1) (maskRow n prevs m k) := by
  intro i hi j hj
  have hset : ∀ m1, (if prevs.getD k (-1) ≠ -1 then
      copyCells m (k * n) ((prevs.getD k (-1)).toNat * n) ((prevs.getD k (-1)).toNat + 1) else m) = m1 →
      maskRow n prevs m k (i * n + j) = if i = k ∧ j = k then 1 else m1 (i * n + j) := by
    intro m1 h1
    rw [← h1]
    exact upd_flat _ 1 hj hk
  rcases Nat.eq_zero_or_pos k with rfl | hpos
  · have hrow := hset m (if_neg (by rw [h0]; simp))
    refine ⟨fun hik => ?_, fun hik hi0 => ?_⟩
    · obtain rfl : i = 0 := by omega
      rw [above_zero]
      refine ⟨fun he => by rw [hrow, if_pos ⟨rfl, he⟩], fun hne => ?_⟩
      rw [hrow, if_neg (by omega), zero_mul, zero_add]
      exact hroot rfl j hj (by omega)
    · rw [hrow, if_neg (by omega)]
      exact (hm i hi j hj).2 (by omega) hi0
  have hpk := hlt k hpos hk
  have hmem : k ∈ (ofParent n par hlt).kids (par k) := mem_ofParent.mpr ⟨hpos, hk, rfl⟩
  have hrow := hset (copyCells m (k * n) (par k * n) (par k + 1))
    (by rw [hpar k hpos hk, if_pos (by omega), Int.toNat_natCast])
  rw [copyCells_row hj (by omega)] at hrow
  by_cases hik : i = k
  · subst hik
    have habove := above_child (ofParent n par hlt) (a := j) hmem
    refine ⟨fun _ => ?_, fun hle => absurd hle (by omega)⟩
    rw [habove, hrow]
    by_cases hji : j = i
    · rw [if_pos ⟨rfl, hji⟩]
      exact ⟨fun _ => rfl, absurd (.inl hji)⟩
    rw [if_neg fun h => hji h.2]
    by_cases hjp : j ≤ par i
    · -- copied from the parent's row
      rw [if_pos ⟨rfl, hjp⟩]
      have hprow := (hm (par i) (by omega) j hj).1 hpk
      exact ⟨fun h => hprow.1 (h.resolve_left hji), fun h => hprow.2 fun ha => h (.inr ha)⟩
    · rw [if_neg fun h => hjp h.2]
      refine ⟨fun h => ?_, fun _ => (hm i hi j hj).2 (le_refl _) hpos⟩
      exact absurd (above_le _ (h.resolve_left hji)) hjp
  · rw [if_neg fun h => hik h.1, if_neg fun h => hik h.1] at hrow
    rw [hrow]
    exact ⟨fun h => (hm i hi j hj).1 (by omega), fun h => (hm i hi j hj).2 (by omega)⟩

theorem fillMask_spec (hlen : prevs.length = n) (h0 : prevs.getD 0 (-1) = -1)
    (hpar : ∀ c, 0 < c → c < n → prevs.getD c (-1) = (par c : Int)) : (fillMask prevs).length = n * n ∧ ∀ i < n, ∀ j < n,
      ((ofParent n par hlt).Above j i → (fillMask prevs).getD (i * n + j) 0 = 1) ∧
      (¬ (ofParent n par hlt).Above j i → (fillMask prevs).getD (i * n + j) 0 = 0) := by
  obtain ⟨m, hm⟩ : ∃ m, m = (range n).foldl (maskRow n prevs) (upd (fun _ => 0) 0 1) := ⟨_, rfl⟩
  have hrows : ∀ k ≤ n, MaskUpTo (ofParent n par hlt) k ((range k).foldl (maskRow n prevs) (upd (fun _ => 0) 0 1)) := by
    intro k
    induction k with
    | zero =>
      intro _ i hi j hj
      refine ⟨fun h => absurd h (not_lt_zero i), fun _ hi0 => ?_⟩
      have hpos := mul_pos hi0 (show 0 < n by omega)
      exact upd_ne _ _ (by omega)
    | succ k ih =>
      intro hk
      rw [range_succ, foldl_append]
      refine maskRow_upTo h0 hpar hk (ih (by omega)) fun hk0 j _ hj0 => ?_
      subst hk0
      exact upd_ne _ _ (by omega)
  have hend := hrows n (le_refl n)
  rw [← hm] at hend
  have hfill : fillMask prevs = (range (n * n)).map m := by rw [fillMask, hlen, hm]
  refine ⟨by rw [hfill]; simp, fun i hi j hj => ?_⟩
  have hget : (fillMask prevs).getD (i * n + j) 0 = m (i * n + j) := by
    rw [hfill, getD_eq_getElem _ _ (by simpa using flat_lt hi hj), getElem_map, getElem_range]
  rw [hget]
  exact (hend i hi j hj).1 hi

end

/-! ## What `fillResult` returns -/

/-- The tokens and the mask of a tree of `n` nodes: first the positions of the draft tree in
    the order of `vis`, then zeros below the root. -/
structure Serialized (d : Draft) (n : Nat) (last : Token) (res : Result) (par vis : Nat → Nat) : Prop where
  parLt : ∀ c, 0 < c → c < n → par c < c
  tokenLength : res.token.length = n
  maskLength : res.mask.length = n * n
  first : res.token.getD 0 0 = last
  fits : d.cursor ≤ n
  padding : ∀ i, d.cursor ≤ i → i < n → res.token.getD i 0 = 0 ∧ par i = 0
  visits : vis 0 = 0 ∧ ((List.range d.cursor).map vis).Perm (List.range d.cursor)
  edge : ∀ i, 0 < i → i < d.cursor → (res.token.getD i 0, vis i) ∈ (d.tree (vis (par i))).next.items
  mask : ∀ i < n, ∀ j < n, ((ofParent n par parLt).Above j i → res.mask.getD (i * n + j) 0 = 1) ∧
    (¬ (ofParent n par parLt).Above j i → res.mask.getD (i * n + j) 0 = 0)

theorem getD_pad {α : Type} (l : List α) (n : Nat) (a x : α) (i : Nat) (hi : i < n) (hl : l.length ≤ n) :
    (l ++ replicate (n - l.length) a).getD i x = if i < l.length then l.getD i x else a := by
  by_cases h : i < l.length
  · rw [if_pos h, getD_append _ _ _ _ h]
  · rw [if_neg h, getD_append_right _ _ _ _ (by omega), getD_eq_getElem _ _ (by rw [length_replicate]; omega),
      getElem_replicate]

theorem fillResult_settles (it : Iteration) {d : Draft} (hd : Grown d) {n : Nat} (hn : d.cursor ≤ n) (last : Token) :
    Settles (fun fuel => fillResult it fuel last n d.tree 0) fun res => ∃ par vis, Serialized d n last res par vis := by
  have hloop := @whileLoop_settles Filling Unit () (fun s => !s.queue.isEmpty) (fun s => .ok (fillRound it d.tree s))
    (fun s => ∃ vis, Visited d.tree last s vis) _ (measure fun s => d.cursor + 1 - s.token.length).wf (by
      intro s hs hc
      obtain ⟨vis, hv⟩ := hs
      cases hq : s.queue with
      | nil => simp [hq] at hc
      | cons e queue =>
        have hv' : Visited d.tree last (fillRound it d.tree s) (vis ++ [e.2.1]) := hv.round hd hq
        have hle := hv.length_le hd
        rw [hq, map_cons, length_append, length_cons] at hle
        refine ⟨_, rfl, ⟨_, hv'⟩, ?_⟩
        show d.cursor + 1 - (fillRound it d.tree s).token.length < d.cursor + 1 - s.token.length
        rw [hv'.token, hv.token, length_append, length_singleton]
        omega)
  refine (hloop ⟨_, Visited.start hd last⟩).bind fun s hs => Settles.pure ?_
  obtain ⟨⟨vis, hv⟩, hq⟩ := hs
  have hq : s.queue = [] := by simpa using hq
  have hperm := hv.perm hd hq
  have hlen : vis.length = d.cursor := by simpa using hperm.length_eq
  have htok := hv.token
  have hprevs := hv.prevs
  obtain ⟨hf1, hf2, hf3, hf4⟩ := hv.first
  obtain ⟨par, hpardef⟩ : ∃ par : Nat → Nat, par = fun i => if i < d.cursor then (s.prevs.getD i 0).toNat else 0 := ⟨_, rfl⟩
  have hpar : ∀ i, 0 < i → i < d.cursor → par i < i ∧ s.prevs.getD i 0 = (par i : Int) ∧
      (s.token.getD i 0, vis.getD i 0) ∈ (d.tree (vis.getD (par i) 0)).next.items := by
    intro i h0 hi
    obtain ⟨prev, hlt, hp, hit⟩ := hv.edge i h0 (by omega)
    have he : par i = prev := by rw [hpardef]; simp only [hi, if_true, hp, Int.toNat_natCast]
    rw [he]
    exact ⟨hlt, hp, hit⟩
  have hpad : ∀ i, d.cursor ≤ i → par i = 0 := fun i hi => by rw [hpardef]; exact if_neg (by omega)
  have hlt : ∀ c, 0 < c → c < n → par c < c := by
    intro c h0 hc
    by_cases hcd : c < d.cursor
    · exact (hpar c h0 hcd).1
    · rw [hpad c (by omega)]
      exact h0
  have hpprevs : (s.pad n).prevs = s.prevs ++ replicate (n - s.prevs.length) 0 := by
    rw [Filling.pad, hprevs, ← htok]
  have hplen : (s.pad n).prevs.length = n := by
    rw [hpprevs, length_append, length_replicate]
    omega
  have hget : ∀ i < n, (s.pad n).token.getD i 0 = if i < d.cursor then s.token.getD i 0 else 0 := by
    intro i hi
    rw [Filling.pad]
    rw [getD_pad _ _ _ _ _ hi (by omega), htok, hlen]
  have hgetp : ∀ i < n, ∀ x, (s.pad n).prevs.getD i x = if i < d.cursor then s.prevs.getD i x else 0 := by
    intro i hi x
    rw [hpprevs, getD_pad _ _ _ _ _ hi (by omega), hprevs, hlen]
  have hdef : ∀ i < d.cursor, ∀ x, s.prevs.getD i x = s.prevs.getD i 0 := by
    intro i hi x
    rw [getD_eq_getElem _ _ (by omega), getD_eq_getElem _ _ (by omega)]
  have hmask := @fillMask_spec n (s.pad n).prevs par hlt hplen
    (by rw [hgetp 0 (by omega), if_pos hd.root, hdef 0 hd.root]; exact hf2)
    (fun c h0 hc => by
      rw [hgetp c hc]
      by_cases hcd : c < d.cursor
      · rw [if_pos hcd, hdef c hcd]
        exact (hpar c h0 hcd).2.1
      · rw [if_neg hcd, hpad c (by omega)]
        rfl)
  refine ⟨par, fun i => vis.getD i 0, hlt, ?_, hmask.1, ?_, hn, fun i hi hin => ⟨?_, hpad i hi⟩, ⟨hf3, ?_⟩,
    fun i h0 hi => ?_, hmask.2⟩
  · show (s.pad n).token.length = n
    rw [Filling.pad]
    simp
    omega
  · rw [hget 0 (by omega), if_pos hd.root]
    exact hf1
  · rw [hget i hin, if_neg (by omega)]
  · rw [← hlen] at hperm ⊢
    refine List.Perm.trans (List.Perm.of_eq ?_) hperm
    apply ext_getElem
    · simp
    · intro i h1 h2
      rw [getElem_map, getElem_range, getD_eq_getElem _ _ h2]
  · rw [hget i (by omega), if_pos hi]
    exact (hpar i h0 hi).2.2

end DynaSpec.Speculative.Ngram
