/-
  DynaSpec.Constrained.ReasonerGrammar — structured output after the reasoning
  (srt/constrained/reasoner_grammar_backend.py).

  `ReasonerGrammarObject` wraps a grammar and passes it tokens and masks once the
  end-of-thinking token was accepted. It overrides neither `rollback`, which raises, nor
  `is_terminated`, which is always false; while reasoning it leaves the mask row as
  `traverse_tree` zeroed it; and it drops every end-of-thinking token, also later ones.
  `Behaves` is what it is for: over a draft tree, everything allowed before the first
  end-of-thinking token, and after it the inner grammar fed with what followed.

  - `reasoner_rollback_raises`: the traversal raises on a draft token that the inner
    grammar allows.
  - `reasoner_behaves_iff`: the object behaves exactly when the history has an
    end-of-thinking token, the inner grammar has not terminated after the tokens that
    follow the first one, it fills the same row after these tokens without the later
    end-of-thinking ones, and no child of the tree's root carries a token of that row.
-/

import DynaSpec.Constrained.Grammar

namespace DynaSpec.Constrained

open DynaSpec.Lib List

/-! ## The object -/

structure Reasoner (σ : Type) where
  grammar : σ
  isInReasoning : Bool

def reasonerGrammarObject {σ : Type} (g : GrammarObject σ) (thinkEndId : Nat) : GrammarObject (Reasoner σ) :=
  { baseGrammarObject (Reasoner σ) with
    acceptToken := fun token r =>
      let r := if token = thinkEndId then { r with isInReasoning := false } else r
      if r.isInReasoning = false ∧ token ≠ thinkEndId then do
        let s ← g.acceptToken token r.grammar
        .ok { r with grammar := s }
      else .ok r
    fillVocabMask := fun mask idx r =>
      if r.isInReasoning = false then g.fillVocabMask mask idx r.grammar else .ok mask }

/-! ## What it is for -/

/-- The tokens after the first end-of-thinking token. -/
def afterThinking (thinkEndId : Nat) (history : List Nat) : List Nat := (history.dropWhile (· ≠ thinkEndId)).tail

section
variable {σ : Type} {g : GrammarObject σ} (L : LawfulGrammar g) (init : σ) (thinkEndId vocabSize : Nat)

/-- The row that belongs to a history. -/
def RowAfter (history : List Nat) (row : Nat → BitVec 32) : Prop :=
  if thinkEndId ∈ history then
    ∃ s, feed g (afterThinking thinkEndId history) init = .ok s ∧
      ∀ t < vocabSize, tokenBit row t = (!g.isTerminated s && tokenBit (L.maskRow s) t)
  else ∀ t < vocabSize, tokenBit row t = true

/-- The token is allowed after a history. -/
def AllowedAfter (history : List Nat) (t : Nat) : Prop :=
  thinkEndId ∈ history → ∃ s, feed g (afterThinking thinkEndId history) init = .ok s ∧
    g.isTerminated s = false ∧ tokenBit (L.maskRow s) t = true

/-- The inner grammar has terminated after a history. -/
def TerminatedAfter (history : List Nat) (terminated : Bool) : Prop :=
  ∃ s, feed g (afterThinking thinkEndId history) init = .ok s ∧ g.isTerminated s = terminated

/-- The tokens on a path below the root; the root's token is the last of the history. -/
def pathTokens (draftTokens : Nat → Nat) (path : List Nat) : List Nat := path.tail.map draftTokens

/-- A root path along which every token is allowed at its parent. -/
def Reached {n : Nat} (T : OrderedTree n) (draftTokens : Nat → Nat) (history path : List Nat) : Prop :=
  T.RootPath path ∧ ∀ front c, front ≠ [] → front ++ [c] <+: path →
    AllowedAfter L init thinkEndId (history ++ pathTokens draftTokens front) (draftTokens c)

/-- The object `r`, after the history, behaves on the draft tree. -/
structure Behaves {n : Nat} (T : OrderedTree n) (next sib : Nat → Int) (draftTokens : Nat → Nat) (fuel : Nat)
    (history : List Nat) (r : Reasoner σ) : Prop where
  traverses : ∃ mask, traverseTree (reasonerGrammarObject g thinkEndId) next sib draftTokens fuel r = .ok (r, mask) ∧
    ∀ path node, Reached L init thinkEndId T draftTokens history path → path.getLast? = some node →
      RowAfter L init thinkEndId vocabSize (history ++ pathTokens draftTokens path) (mask node)
  terminates : TerminatedAfter (g := g) init thinkEndId history ((reasonerGrammarObject g thinkEndId).isTerminated r)

end

/-! ## The history -/

section
variable {σ : Type} {g : GrammarObject σ} {thinkEndId : Nat}

theorem feed_structured (history : List Nat) (s : σ) :
    feed (reasonerGrammarObject g thinkEndId) history ⟨s, false⟩ =
    (feed g (history.filter (· ≠ thinkEndId)) s).map (⟨·, false⟩) := by
  induction history generalizing s with
  | nil => rfl
  | cons t history ih =>
    by_cases ht : t = thinkEndId
    · simp only [feed, reasonerGrammarObject, ht, ne_eq, not_true_eq_false, and_false, if_true, if_false, decide_false,
        Bool.false_eq_true, not_false_eq_true, filter_cons_of_neg]
      exact ih s
    simp only [feed, reasonerGrammarObject, ht, ne_eq, not_false_eq_true, and_true, if_true, if_false, decide_true,
      filter_cons_of_pos]
    cases hs : g.acceptToken t s with
    | error e => rfl
    | ok s' => exact ih s'

/-- The object's state after a history: the inner grammar has seen the tokens after the
    first end-of-thinking token, without the later ones. -/
theorem feed_reasoner (history : List Nat) (s : σ) :
    feed (reasonerGrammarObject g thinkEndId) history ⟨s, true⟩ =
    if thinkEndId ∈ history then
      (feed g ((afterThinking thinkEndId history).filter (· ≠ thinkEndId)) s).map (⟨·, false⟩) else .ok ⟨s, true⟩ := by
  induction history generalizing s with
  | nil => rfl
  | cons t history ih =>
    by_cases ht : t = thinkEndId
    · subst ht
      rw [if_pos mem_cons_self]
      simp only [feed, reasonerGrammarObject, afterThinking, if_true, ne_eq, not_true_eq_false, and_false, if_false]
      rw [dropWhile_cons_of_neg (by simp)]
      exact feed_structured history s
    have hmem : thinkEndId ∈ t :: history ↔ thinkEndId ∈ history := by
      simp [Ne.symm (Ne.intro ht)]
    have hafter : afterThinking thinkEndId (t :: history) = afterThinking thinkEndId history := by
      rw [afterThinking, dropWhile_cons_of_pos (by simpa using ht)]
      rfl
    simp only [hmem, hafter, ← ih s]
    simp [feed, reasonerGrammarObject, ht]
    rfl

/-! ## The traversal -/

variable {next sib : Nat → Int} {draftTokens : Nat → Nat} {parentPos : Nat} {r : Reasoner σ} {mask : VocabMask}

/-- Once a draft token is accepted the traversal ends in an error: `rollback` raises. -/
theorem dfs_accepted {c : Nat} (hc : c ≠ 0) (hbit : tokenBit (mask parentPos) (draftTokens c) = true) (fuel : Nat) :
    ∃ e, dfs (reasonerGrammarObject g thinkEndId) next sib draftTokens fuel c parentPos (r, mask) = .error e := by
  cases fuel with
  | zero => exact ⟨_, rfl⟩
  | succ fuel =>
    simp only [dfs, hc, if_false, hbit, if_true, ne_eq, not_false_eq_true]
    cases (reasonerGrammarObject g thinkEndId).acceptToken (draftTokens c) r with
    | error e => exact ⟨e, rfl⟩
    | ok r' =>
      -- whatever the subtree returned, the rollback after it raises
      have hroll : ∀ v, (reasonerGrammarObject g thinkEndId).rollback 1 v = .error .notImplementedError := fun _ => rfl
      simp only [bind, Except.bind, hroll]
      repeat' split
      all_goals exact ⟨_, rfl⟩

theorem dfs_some_accepted (l : List Nat) (fuel : Nat) (hl : Linked sib l) (h0 : ∀ c ∈ l, c ≠ 0)
    (hex : ∃ c ∈ l, tokenBit (mask parentPos) (draftTokens c) = true) :
    ∃ e, dfs (reasonerGrammarObject g thinkEndId) next sib draftTokens fuel (firstLink l).toNat parentPos (r, mask) =
    .error e := by
  induction l generalizing fuel with
  | nil =>
    obtain ⟨c, hc, -⟩ := hex
    cases hc
  | cons c l ih =>
    have hcur : (firstLink (c :: l)).toNat = c := Int.toNat_natCast c
    have hc0 := h0 c mem_cons_self
    rw [hcur]
    by_cases hbit : tokenBit (mask parentPos) (draftTokens c) = true
    · exact dfs_accepted hc0 hbit fuel
    have hex' : ∃ d ∈ l, tokenBit (mask parentPos) (draftTokens d) = true := by
      obtain ⟨d, hd, hbd⟩ := hex
      rcases mem_cons.mp hd with rfl | hd
      · exact absurd hbd hbit
      · exact ⟨d, hd, hbd⟩
    cases fuel with
    | zero => exact ⟨_, rfl⟩
    | succ fuel =>
      obtain ⟨e, he⟩ := ih fuel hl.2 (fun d hd => h0 d (mem_cons_of_mem c hd)) hex'
      have hne : firstLink l ≠ -1 := by
        obtain ⟨d, hd, -⟩ := hex'
        intro h
        rw [firstLink_eq_neg_one.mp h] at hd
        cases hd
      refine ⟨e, ?_⟩
      simp only [dfs, hc0, if_false, hbit, Bool.false_eq_true, hl.1, ne_eq, hne, not_false_eq_true, if_true]
      exact he

/-- The traversal from the root: fill its row, then visit its children. -/
theorem traverseTree_root {n : Nat} {T : OrderedTree n} (henc : Encodes T next sib) (hn : 0 < n) (fuel : Nat) :
    traverseTree (reasonerGrammarObject g thinkEndId) next sib draftTokens (fuel + 1) r =
      ((reasonerGrammarObject g thinkEndId).fillVocabMask (fun _ _ => 0#32) 0 r).bind fun mask =>
        if T.kids 0 = [] then .ok (r, mask)
        else dfs (reasonerGrammarObject g thinkEndId) next sib draftTokens fuel (firstLink (T.kids 0)).toNat 0 (r, mask) := by
  have hterm : (reasonerGrammarObject g thinkEndId).isTerminated r = false := rfl
  simp only [traverseTree, dfs, if_true, ne_eq, not_true_eq_false, if_false, henc.rootSib hn, henc.first 0 hn,
    firstLink_eq_neg_one, bind, Except.bind, hterm, Bool.false_eq_true]
  cases (reasonerGrammarObject g thinkEndId).fillVocabMask (fun _ _ => 0#32) 0 r with
  | error e => rfl
  | ok mask =>
    by_cases hk : T.kids 0 = []
    · simp [hk]
    simp only [hk, not_false_eq_true, if_true, if_false]
    cases dfs (reasonerGrammarObject g thinkEndId) next sib draftTokens fuel (firstLink (T.kids 0)).toNat 0 (r, mask) with
    | error e => rfl
    | ok v => rfl

/-- The traversal succeeds exactly when the root's row can be filled and allows none of its
    children; it then leaves the object and every other row as they were. -/
theorem traverseTree_ok_iff {n : Nat} {T : OrderedTree n} (henc : Encodes T next sib) (hn : 0 < n) {fuel : Nat} (hf : n ≤ fuel)
    (v : Reasoner σ × VocabMask) : traverseTree (reasonerGrammarObject g thinkEndId) next sib draftTokens fuel r = .ok v ↔
      v.1 = r ∧ (reasonerGrammarObject g thinkEndId).fillVocabMask (fun _ _ => 0#32) 0 r = .ok v.2 ∧
        ∀ c ∈ T.kids 0, tokenBit (v.2 0) (draftTokens c) = false := by
  obtain ⟨fuel, rfl⟩ : ∃ m, fuel = m + 1 := ⟨fuel - 1, by omega⟩
  rw [traverseTree_root henc hn]
  have hlen := T.kids_length 0
  have hlink := henc.linked 0 hn
  have h0 : ∀ c ∈ T.kids 0, c ≠ 0 := fun c hc => by have := (T.lt 0 c hc).1; omega
  cases hfill : (reasonerGrammarObject g thinkEndId).fillVocabMask (fun _ _ => 0#32) 0 r with
  | error e => simp [Except.bind]
  | ok mask =>
    obtain ⟨r', mask'⟩ := v
    simp only [Except.bind, Except.ok.injEq]
    by_cases hrej : ∀ c ∈ T.kids 0, tokenBit (mask 0) (draftTokens c) = false
    · have hok : (if T.kids 0 = [] then .ok (r, mask) else dfs (reasonerGrammarObject g thinkEndId) next sib draftTokens fuel
          (firstLink (T.kids 0)).toNat 0 (r, mask)) = (.ok (r, mask) : Except GrammarError _) := by
        split
        · rfl
        · rename_i hk
          exact dfs_rejected _ fuel hk (by omega) hlink fun c hc => ⟨h0 c hc, hrej c hc⟩
      rw [hok]
      simp only [Except.ok.injEq, Prod.mk.injEq]
      constructor
      · rintro ⟨rfl, rfl⟩; exact ⟨rfl, rfl, hrej⟩
      · rintro ⟨rfl, rfl, -⟩; exact ⟨rfl, rfl⟩
    have hex : ∃ c ∈ T.kids 0, tokenBit (mask 0) (draftTokens c) = true := by simpa using hrej
    have hraise : ∃ e, dfs (reasonerGrammarObject g thinkEndId) next sib draftTokens fuel (firstLink (T.kids 0)).toNat 0
        (r, mask) = .error e := dfs_some_accepted (T.kids 0) fuel hlink h0 hex
    obtain ⟨e, he⟩ := hraise
    have hk : T.kids 0 ≠ [] := by
      rintro hk
      rw [hk] at hex
      obtain ⟨c, hc, -⟩ := hex
      cases hc
    rw [if_neg hk, he]
    constructor
    · intro h; cases h
    · rintro ⟨rfl, rfl, h⟩; exact absurd h hrej

/-! ## When it behaves -/

/-- Only the root is reached when none of its children is allowed. -/
theorem reached_root {L : LawfulGrammar g} {init : σ} {n : Nat} {T : OrderedTree n} {history path : List Nat}
    (hno : ∀ c ∈ T.kids 0, ¬ AllowedAfter L init thinkEndId history (draftTokens c))
    (h : Reached L init thinkEndId T draftTokens history path) : path = [0] := by
  obtain ⟨⟨hchain, hhead⟩, hallowed⟩ := h
  match path, hchain, hhead, hallowed with
  | [a], _, hhead, _ => simpa using hhead
  | a :: c :: rest, hchain, hhead, hallowed =>
    obtain rfl : a = 0 := by simpa using hhead
    have hc : c ∈ T.kids 0 := (isChain_cons_cons.mp hchain).1
    have hfirst := hallowed [0] c (cons_ne_nil 0 []) ⟨rest, rfl⟩
    simp only [pathTokens, tail_cons, map_nil, append_nil] at hfirst
    exact absurd hfirst (hno c hc)

/-- The object behaves exactly when the history has an end-of-thinking token and the inner
    grammar, fed with what follows the first one, has not terminated, has the row that it
    fills when fed without the later ones, and allows no child of the root. -/
theorem reasoner_behaves_iff {σ : Type} {g : GrammarObject σ} (L : LawfulGrammar g) (init : σ) (thinkEndId vocabSize : Nat)
    (hvocab : 0 < vocabSize) {n : Nat} (T : OrderedTree n) (hn : 0 < n) (next sib : Nat → Int) (henc : Encodes T next sib)
    (draftTokens : Nat → Nat) (htokens : ∀ i < n, draftTokens i < vocabSize) (fuel : Nat) (hf : n ≤ fuel) (history : List Nat)
    (r : Reasoner σ) (hr : feed (reasonerGrammarObject g thinkEndId) history ⟨init, true⟩ = .ok r) :
    Behaves L init thinkEndId vocabSize T next sib draftTokens fuel history r ↔
      thinkEndId ∈ history ∧ ∃ s, feed g (afterThinking thinkEndId history) init = .ok s ∧ g.isTerminated s = false ∧
        (∃ s' mask, feed g ((afterThinking thinkEndId history).filter (· ≠ thinkEndId)) init = .ok s' ∧
          g.fillVocabMask (fun _ _ => 0#32) 0 s' = .ok mask ∧ ∀ t < vocabSize, tokenBit (mask 0) t = tokenBit (L.maskRow s) t) ∧
        ∀ c ∈ T.kids 0, tokenBit (L.maskRow s) (draftTokens c) = false := by
  have hkids : ∀ c ∈ T.kids 0, draftTokens c < vocabSize := fun c hc => htokens c (T.lt 0 c hc).2
  have hroot : Reached L init thinkEndId T draftTokens history [0] := by
    refine ⟨⟨isChain_singleton 0, rfl⟩, fun front c hne hpre => ?_⟩
    have hlen := hpre.length_le
    rw [length_append, length_singleton, length_singleton] at hlen
    exact absurd (eq_nil_of_length_eq_zero (by omega)) hne
  have hstruct : thinkEndId ∈ history →
      ∃ s', feed g ((afterThinking thinkEndId history).filter (· ≠ thinkEndId)) init = .ok s' ∧ r = ⟨s', false⟩ := by
    intro hmem
    rw [feed_reasoner, if_pos hmem] at hr
    cases hfeed : feed g ((afterThinking thinkEndId history).filter (· ≠ thinkEndId)) init with
    | error e => rw [hfeed] at hr; cases hr
    | ok s' => rw [hfeed] at hr; cases hr; exact ⟨s', rfl, rfl⟩
  have hthink : thinkEndId ∉ history → r.isInReasoning = true := by
    intro hmem
    rw [feed_reasoner, if_neg hmem] at hr
    cases hr
    rfl
  constructor
  · rintro ⟨⟨mask, hok, hrows⟩, hterm⟩
    have hrow := hrows [0] 0 hroot rfl
    simp only [pathTokens, tail_cons, map_nil, append_nil] at hrow
    obtain ⟨-, hfill, hrej⟩ := (traverseTree_ok_iff henc hn hf _).mp hok
    by_cases hmem : thinkEndId ∈ history
    · rw [RowAfter, if_pos hmem] at hrow
      obtain ⟨s, hs, hbits⟩ := hrow
      obtain ⟨s', hs', hterm⟩ := hterm
      rw [hs] at hs'
      cases hs'
      have hlive : g.isTerminated s = false := hterm
      simp only [hlive, Bool.not_false, Bool.true_and] at hbits
      obtain ⟨s', hs', rfl⟩ := hstruct hmem
      exact ⟨hmem, s, hs, hlive, ⟨s', mask, hs', hfill, hbits⟩, fun c hc => by rw [← hbits _ (hkids c hc)]; exact hrej c hc⟩
    -- while reasoning the root's row stays zero
    rw [RowAfter, if_neg hmem] at hrow
    simp only [reasonerGrammarObject, hthink hmem, Bool.true_eq_false, if_false, Except.ok.injEq] at hfill
    have := hrow 0 hvocab
    rw [← hfill, tokenBit_zero] at this
    cases this
  · rintro ⟨hmem, s, hs, hlive, ⟨s', mask, hs', hfill, hbits⟩, hno⟩
    obtain ⟨_, hfed, rfl⟩ := hstruct hmem
    cases hfed.symm.trans hs'
    refine ⟨⟨mask, ?_, fun path node hreach hlast => ?_⟩, s, hs, hlive⟩
    · refine (traverseTree_ok_iff henc hn hf _).mpr ⟨rfl, ?_, fun c hc => ?_⟩
      · exact hfill
      · rw [hbits _ (hkids c hc)]; exact hno c hc
    have hpath : path = [0] := by
      refine reached_root (fun c hc hallowed => ?_) hreach
      obtain ⟨s', hs', -, hbit⟩ := hallowed hmem
      rw [hs] at hs'
      cases hs'
      rw [hno c hc] at hbit
      cases hbit
    subst hpath
    obtain rfl : node = 0 := by simpa using hlast.symm
    simp only [pathTokens, tail_cons, map_nil, append_nil]
    rw [RowAfter, if_pos hmem]
    exact ⟨s, hs, fun t ht => by rw [hbits t ht, hlive, Bool.not_false, Bool.true_and]⟩

end

/-! A tree with one child. -/

def oneChild : OrderedTree 2 := OrderedTree.ofParent 2 (fun _ => 0) (fun _ h _ => h)

theorem oneChild_encodes : Encodes oneChild (fun i => if i = 0 then 1 else -1) (fun _ => -1) :=
  (Links.pushDown_encodes (s := ⟨fun _ => -1, fun _ => -1⟩) _ (fun _ _ => rfl) (fun _ _ => rfl)).congr
    (by decide) (by decide)

/-- After the end-of-thinking token 0, with an inner grammar that allows token 1 and a
    draft tree that proposes it, the traversal raises. -/
theorem reasoner_rollback_raises : feed (reasonerGrammarObject (rowGrammar fun _ => 2#32) 0) [0] ⟨[], true⟩ = .ok ⟨[], false⟩ ∧
    traverseTree (reasonerGrammarObject (rowGrammar fun _ => 2#32) 0) (fun i => if i = 0 then 1 else -1) (fun _ => -1)
      (fun _ => 1) 2 ⟨[], false⟩ = .error .notImplementedError ∧
    ¬ Behaves (rowGrammar_lawful fun _ => 2#32) [] 0 32 oneChild (fun i => if i = 0 then 1 else -1) (fun _ => -1)
      (fun _ => 1) 2 [0] ⟨[], false⟩ := by
  have herr : traverseTree (reasonerGrammarObject (rowGrammar fun _ => 2#32) 0) (fun i => if i = 0 then 1 else -1)
      (fun _ => -1) (fun _ => 1) 2 ⟨[], false⟩ = .error .notImplementedError := rfl
  refine ⟨rfl, herr, fun h => ?_⟩
  obtain ⟨mask, hok, -⟩ := h.traverses
  cases hok

/-- After a token of the inner grammar, with a draft token that it does not allow, the object behaves. -/
theorem reasoner_behaves_rejected :
    Behaves (rowGrammar_lawful fun _ => 2#32) [] 0 32 oneChild (fun i => if i = 0 then 1 else -1) (fun _ => -1)
      (fun _ => 2) 2 [5, 0, 1] ⟨[1], false⟩ := by
  refine (reasoner_behaves_iff (rowGrammar_lawful fun _ => 2#32) [] 0 32 (by decide) oneChild (by decide) _ _ oneChild_encodes
    (fun _ => 2) (fun _ _ => by decide) 2 (by decide) [5, 0, 1] ⟨[1], false⟩ rfl).mpr ?_
  refine ⟨by decide, [1], rfl, rfl, ⟨[1], _, rfl, rfl, fun t _ => by rw [upd_same]; rfl⟩, fun c _ => ?_⟩
  decide

end DynaSpec.Constrained
