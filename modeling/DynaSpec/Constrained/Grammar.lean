/-
  DynaSpec.Constrained.Grammar — grammar objects (srt/constrained/base_grammar_backend.py)
  and `traverse_tree` (srt/speculative/spec_utils.py), which computes the vocabulary masks
  of a draft tree.

  A grammar class is a `GrammarObject`: its methods on the object's state. A vocabulary
  mask has a row of 32-bit words for each tree node. `LawfulGrammar` is what the traversal
  asks of a grammar: while it has not terminated it fills the row it is given, accepts
  every token of that row, and takes the accept back on `rollback(1)`.
-/

import DynaSpec.Lib.LinkTree

namespace DynaSpec.Constrained

open DynaSpec.Lib

inductive GrammarError where
  | notImplementedError
  | valueError
  | outOfFuel
  deriving DecidableEq, Repr

/-- A row for each node of the tree: 32 tokens a word. -/
abbrev VocabMask := Nat → Nat → BitVec 32

/-- Whether the row has the token's bit. -/
def tokenBit (row : Nat → BitVec 32) (token : Nat) : Bool := row (token / 32) &&& (1#32 <<< (token % 32)) != 0#32

structure GrammarObject (σ : Type) where
  acceptToken : Nat → σ → Except GrammarError σ
  rollback : Nat → σ → Except GrammarError σ
  isTerminated : σ → Bool
  fillVocabMask : VocabMask → Nat → σ → Except GrammarError VocabMask

/-- The methods a grammar class inherits unless it overrides them. -/
def baseGrammarObject (σ : Type) : GrammarObject σ where
  acceptToken := fun _ _ => .error .notImplementedError
  rollback := fun _ _ => .error .notImplementedError
  isTerminated := fun _ => false
  fillVocabMask := fun _ _ _ => .error .notImplementedError

/-- The state after a list of tokens. -/
def feed {σ : Type} (g : GrammarObject σ) : List Nat → σ → Except GrammarError σ
  | [], s => .ok s
  | t :: ts, s => do feed g ts (← g.acceptToken t s)

structure LawfulGrammar {σ : Type} (g : GrammarObject σ) where
  maskRow : σ → Nat → BitVec 32
  fill : ∀ s mask idx, g.isTerminated s = false → g.fillVocabMask mask idx s = .ok (upd mask idx (maskRow s))
  accept : ∀ s t, g.isTerminated s = false → tokenBit (maskRow s) t = true → ∃ s', g.acceptToken t s = .ok s'
  undo : ∀ s t s', g.isTerminated s = false → g.acceptToken t s = .ok s' → g.rollback 1 s' = .ok s

/-! ## The traversal -/

section
variable {σ : Type} (g : GrammarObject σ) (retrieveNextToken retrieveNextSibling : Nat → Int) (draftTokens : Nat → Nat)

/-- The nested function `dfs`; the fuel bounds its recursion. The root is no one's
    sibling, so the `parent_pos` of its call is not read. -/
def dfs : Nat → Nat → Nat → σ × VocabMask → Except GrammarError (σ × VocabMask)
  | 0, _, _, _ => .error .outOfFuel
  | fuel + 1, curr, parentPos, (s, mask) => do
    let accepted := if curr = 0 then true else tokenBit (mask parentPos) (draftTokens curr)
    let (s, mask) ←
      if accepted then do
        let s ← if curr ≠ 0 then g.acceptToken (draftTokens curr) s else .ok s
        let (s, mask) ←
          if g.isTerminated s then .ok (s, mask)
          else do
            let mask ← g.fillVocabMask mask curr s
            if retrieveNextToken curr ≠ -1 then dfs fuel (retrieveNextToken curr).toNat curr (s, mask) else .ok (s, mask)
        let s ← if curr ≠ 0 then g.rollback 1 s else .ok s
        .ok (s, mask)
      else .ok (s, mask)
    if retrieveNextSibling curr ≠ -1 then dfs fuel (retrieveNextSibling curr).toNat parentPos (s, mask) else .ok (s, mask)

/-- The mask rows are zeroed first; the grammar is left in the returned state. -/
def traverseTree (fuel : Nat) (s : σ) : Except GrammarError (σ × VocabMask) :=
  dfs g retrieveNextToken retrieveNextSibling draftTokens fuel 0 0 (s, fun _ _ => 0#32)

variable {g retrieveNextToken retrieveNextSibling draftTokens}

/-- Siblings whose tokens are not in their parent's row leave everything as it was. -/
theorem dfs_rejected {parentPos : Nat} {s : σ} {mask : VocabMask} (l : List Nat) (fuel : Nat) (hne : l ≠ [])
    (hf : l.length ≤ fuel)
    (hl : Linked retrieveNextSibling l) (hrej : ∀ c ∈ l, c ≠ 0 ∧ tokenBit (mask parentPos) (draftTokens c) = false) :
    dfs g retrieveNextToken retrieveNextSibling draftTokens fuel (firstLink l).toNat parentPos (s, mask) = .ok (s, mask) := by
  induction l generalizing fuel with
  | nil => exact absurd rfl hne
  | cons c l ih =>
    obtain ⟨fuel, rfl⟩ : ∃ m, fuel = m + 1 := ⟨fuel - 1, by simp only [List.length_cons] at hf; omega⟩
    obtain ⟨hc0, hbit⟩ := hrej c List.mem_cons_self
    have hcur : (firstLink (c :: l)).toNat = c := Int.toNat_natCast c
    rw [hcur]
    simp only [dfs, hc0, if_false, hbit, Bool.false_eq_true, hl.1]
    cases l with
    | nil => rfl
    | cons d l =>
      have hd : firstLink (d :: l) ≠ -1 := by simp [firstLink]
      simp only [ne_eq, hd, not_false_eq_true, if_true]
      exact ih fuel (List.cons_ne_nil d l) (by simpa using hf) hl.2 fun e he => hrej e (List.mem_cons_of_mem c he)

end

theorem tokenBit_zero (t : Nat) : tokenBit (fun _ => 0#32) t = false := by simp [tokenBit]

/-! ## The masks of a draft tree -/

open List

/-- Siblings in first-child/next-sibling form: a node, what is below it, what is after it. -/
inductive Forest where
  | nil
  | cons (i : Nat) (kids rest : Forest)

namespace Forest

def first : Forest → Int
  | nil => -1
  | cons i _ _ => i

def nodes : Forest → List Nat
  | nil => []
  | cons i kids rest => i :: (kids.nodes ++ rest.nodes)

/-- The nodes on the way to each node, and the node. -/
def paths : Forest → List (List Nat × Nat)
  | nil => []
  | cons i kids rest => ([i], i) :: (kids.paths.map (fun e => (i :: e.1, e.2)) ++ rest.paths)

def LinkedBy (next sib : Nat → Int) : Forest → Prop
  | nil => True
  | cons i kids rest => next i = kids.first ∧ sib i = rest.first ∧ kids.LinkedBy next sib ∧ rest.LinkedBy next sib

theorem mem_nodes_of_paths {f : Forest} {e : List Nat × Nat} (h : e ∈ f.paths) : e.2 ∈ f.nodes := by
  induction f generalizing e with
  | nil => cases h
  | cons i kids rest ihk ihr =>
    rcases mem_cons.mp h with rfl | h
    · exact mem_cons_self
    rcases mem_append.mp h with h | h
    · obtain ⟨e, he, rfl⟩ := mem_map.mp h
      have hmem := ihk he
      exact mem_cons_of_mem _ (mem_append_left _ hmem)
    · exact mem_cons_of_mem _ (mem_append_right _ (ihr h))

end Forest

section
variable {σ : Type} {g : GrammarObject σ} (L : LawfulGrammar g)

/-- The state after some tokens, if each was allowed where it was consumed and no state on
    the way, the last one included, has terminated. -/
def follow : List Nat → σ → Option σ
  | [], s => if g.isTerminated s then none else some s
  | t :: ts, s =>
    if g.isTerminated s then none
    else if tokenBit (L.maskRow s) t then (g.acceptToken t s).toOption.bind (follow ts) else none

def followRow (tokens : List Nat) (s : σ) : Nat → BitVec 32 := (follow L tokens s).elim (fun _ => 0#32) L.maskRow

theorem followRow_terminated {s : σ} (h : g.isTerminated s = true) (tokens : List Nat) :
    followRow L tokens s = fun _ => 0#32 := by
  cases tokens <;> simp [followRow, follow, h]

variable {s s' : σ} {t : Nat}

theorem followRow_rejected (hbit : tokenBit (L.maskRow s) t = false) (ts : List Nat) :
    followRow L (t :: ts) s = fun _ => 0#32 := by
  simp [followRow, follow, hbit]

theorem followRow_accepted (hlive : g.isTerminated s = false) (hbit : tokenBit (L.maskRow s) t = true)
    (hs : g.acceptToken t s = .ok s') (ts : List Nat) : followRow L (t :: ts) s = followRow L ts s' := by
  simp [followRow, follow, hlive, hbit, hs, Except.toOption]

variable {next sib : Nat → Int} (draftTokens : Nat → Nat)

/-- Siblings below a node whose row is filled: the grammar comes back as it was, and every
    node of theirs has its row. -/
theorem dfs_forest (f : Forest) (fuel : Nat) {p : Nat} {s : σ} {mask : VocabMask} (hf : f.nodes.length ≤ fuel)
    (hlinks : f.LinkedBy next sib)
    (hnd : (p :: f.nodes).Nodup) (h0 : 0 ∉ f.nodes) (hlive : g.isTerminated s = false) (hp : mask p = L.maskRow s)
    (hzero : ∀ i ∈ f.nodes, mask i = fun _ => 0#32) :
    ∃ mask', (if f.first ≠ -1 then dfs g next sib draftTokens fuel f.first.toNat p (s, mask) else .ok (s, mask)) =
    .ok (s, mask') ∧
      (∀ i, i ∉ f.nodes → mask' i = mask i) ∧ ∀ e ∈ f.paths, mask' e.2 = followRow L (e.1.map draftTokens) s := by
  induction f generalizing fuel p s mask with
  | nil => exact ⟨mask, rfl, fun _ _ => rfl, nofun⟩
  | cons i kids rest ihk ihr =>
    obtain ⟨hnext, hsib, hk, hr⟩ := hlinks
    simp only [Forest.nodes, nodup_cons, nodup_append, mem_cons, mem_append, length_cons, length_append,
      not_or] at hf hnd h0 hzero ⊢
    obtain ⟨⟨hpi, hpk, hpr⟩, ⟨hik, hir⟩, hkn, hrn, hkr⟩ := hnd
    obtain ⟨fuel, rfl⟩ : ∃ m, fuel = m + 1 := ⟨fuel - 1, by omega⟩
    -- the node and what is below it
    have hself : ∃ mask1, dfs g next sib draftTokens (fuel + 1) i p (s, mask) =
          (if rest.first ≠ -1 then dfs g next sib draftTokens fuel rest.first.toNat p (s, mask1) else .ok (s, mask1)) ∧
        (∀ x, x ≠ i → x ∉ kids.nodes → mask1 x = mask x) ∧ mask1 i = followRow L [draftTokens i] s ∧
        ∀ e ∈ kids.paths, mask1 e.2 = followRow L (draftTokens i :: e.1.map draftTokens) s := by
      have hi0 : i ≠ 0 := fun e => h0.1 e.symm
      simp only [dfs, hi0, if_false, hp, hsib, ne_eq, not_false_eq_true, if_true]
      cases hbit : tokenBit (L.maskRow s) (draftTokens i) with
      | false =>
        refine ⟨mask, rfl, fun _ _ _ => rfl, ?_, fun e he => ?_⟩
        · rw [followRow_rejected L hbit, hzero i (.inl rfl)]
        · rw [followRow_rejected L hbit, hzero _ (.inr (.inl (Forest.mem_nodes_of_paths he)))]
      | true =>
        obtain ⟨s', hs'⟩ := L.accept s _ hlive hbit
        have hundo := L.undo s _ s' hlive hs'
        simp only [followRow_accepted L hlive hbit hs', hs', if_true, bind, Except.bind]
        cases hterm : g.isTerminated s' with
        | true =>
          simp only [if_true, hundo]
          refine ⟨mask, rfl, fun _ _ _ => rfl, ?_, fun e he => ?_⟩
          · rw [followRow_terminated L hterm, hzero i (.inl rfl)]
          · rw [followRow_terminated L hterm, hzero _ (.inr (.inl (Forest.mem_nodes_of_paths he)))]
        | false =>
          have hfill := L.fill s' mask i hterm
          have hclear : ∀ x ∈ kids.nodes, upd mask i (L.maskRow s') x = fun _ => 0#32 := by
            intro x hx
            have hxi : x ≠ i := fun e => hik (e ▸ hx)
            rw [upd_ne _ _ hxi, hzero x (.inr (.inl hx))]
          obtain ⟨mask1, hrun, hoff, hrows⟩ := ihk fuel (by omega) hk (nodup_cons.mpr ⟨hik, hkn⟩) h0.2.1 hterm
            (upd_same mask i _) hclear
          refine ⟨mask1, ?_, fun x hxi hxk => by rw [hoff x hxk, upd_ne _ _ hxi], ?_, hrows⟩
          · rw [← hnext] at hrun
            by_cases hn : next i = -1
            · rw [if_neg (not_not_intro hn)] at hrun
              cases hrun
              simp [hfill, hn, hundo]
            · rw [if_pos hn] at hrun
              simp [hfill, hn, hrun, hundo]
          · rw [hoff i hik, upd_same]
            simp [followRow, follow, hterm]
    obtain ⟨mask1, hstep, hoff1, hrow1, hrows1⟩ := hself
    obtain ⟨mask', hrun, hoff, hrows⟩ := ihr fuel (by omega) hr (nodup_cons.mpr ⟨hpr, hrn⟩) h0.2.2 hlive
      ((hoff1 p hpi hpk).trans hp) (fun x hx => by
        have hxi : x ≠ i := fun e => hir (e ▸ hx)
        rw [hoff1 x hxi (fun hxk => hkr x hxk x hx rfl), hzero x (.inr (.inr hx))])
    refine ⟨mask', ?_, fun x hx => by rw [hoff x hx.2.2, hoff1 x hx.1 hx.2.1], fun e he => ?_⟩
    · have hi : (Forest.cons i kids rest).first ≠ -1 := by simp [Forest.first]
      rw [if_pos hi]
      exact hstep.trans hrun
    rcases mem_cons.mp he with rfl | he
    · rw [hoff i hir, hrow1]
      rfl
    rcases mem_append.mp he with he | he
    · obtain ⟨d, hd, rfl⟩ := mem_map.mp he
      have hmem := Forest.mem_nodes_of_paths hd
      rw [hoff _ (fun hxr => hkr _ hmem _ hxr rfl), hrows1 d hd]
      rfl
    · exact hrows e he

/-- The traversal leaves the grammar as it was and gives every node of the tree its row. -/
theorem traverseTree_exact (kids : Forest) (hlinks : (Forest.cons 0 kids .nil).LinkedBy next sib) (hnd : (0 :: kids.nodes).Nodup)
    (fuel : Nat) (hf : kids.nodes.length < fuel) (s : σ) : ∃ mask, traverseTree g next sib draftTokens fuel s = .ok (s, mask) ∧
      ∀ e ∈ (Forest.cons 0 kids .nil).paths, mask e.2 = followRow L (e.1.tail.map draftTokens) s := by
  obtain ⟨hnext, hsib, hk, -⟩ := hlinks
  obtain ⟨fuel, rfl⟩ : ∃ m, fuel = m + 1 := ⟨fuel - 1, by omega⟩
  simp only [traverseTree, dfs, if_true, ne_eq, not_true_eq_false, if_false, hsib, Forest.first, bind, Except.bind]
  cases hterm : g.isTerminated s with
  | true =>
    refine ⟨fun _ _ => 0#32, rfl, fun e he => ?_⟩
    rw [followRow_terminated L hterm]
  | false =>
    have h0 := (nodup_cons.mp hnd).1
    have hclear : ∀ x ∈ kids.nodes, upd (fun _ _ => 0#32) 0 (L.maskRow s) x = fun _ => 0#32 := by
      intro x hx
      have hx0 : x ≠ 0 := fun e => h0 (e ▸ hx)
      rw [upd_ne _ _ hx0]
    obtain ⟨mask, hrun, hoff, hrows⟩ := dfs_forest L draftTokens kids fuel (by omega) hk hnd h0 hterm (upd_same _ 0 _) hclear
    refine ⟨mask, ?_, fun e he => ?_⟩
    · rw [← hnext] at hrun
      simp only [Bool.false_eq_true, if_false, L.fill s _ 0 hterm]
      by_cases hn : next 0 = -1
      · rw [if_neg (not_not_intro hn)] at hrun
        simpa only [hn, not_true_eq_false, if_false] using hrun
      · rw [if_pos hn] at hrun
        simp [hn, hrun]
    · simp only [Forest.paths, append_nil, mem_cons, mem_map] at he
      rcases he with rfl | ⟨e, he, rfl⟩
      · rw [hoff 0 h0, upd_same]
        simp [followRow, follow, hterm]
      · exact hrows e he

end

/-! A grammar that always allows the tokens of one row. -/

def rowGrammar (row : Nat → BitVec 32) : GrammarObject (List Nat) where
  acceptToken := fun t s => if tokenBit row t then .ok (t :: s) else .error .valueError
  rollback := fun k s => .ok (s.drop k)
  isTerminated := fun _ => false
  fillVocabMask := fun mask idx _ => .ok (upd mask idx row)

def rowGrammar_lawful (row : Nat → BitVec 32) : LawfulGrammar (rowGrammar row) where
  maskRow := fun _ => row
  fill := fun _ _ _ _ => rfl
  accept := fun s t _ ht => ⟨t :: s, by simp [rowGrammar, ht]⟩
  undo := by
    intro s t s' _ h
    simp only [rowGrammar] at h
    split at h
    · cases h; rfl
    · cases h

/-- A root with one child. -/
def oneLink (i : Nat) : Int := if i = 0 then 1 else -1

theorem traverseTree_exact_oneChild : ∃ mask, traverseTree (rowGrammar fun _ => 2#32) oneLink (fun _ => -1) id 2 [] =
    .ok ([], mask) ∧
    ∀ e ∈ (Forest.cons 0 (.cons 1 .nil .nil) .nil).paths,
    mask e.2 = followRow (rowGrammar_lawful fun _ => 2#32) (e.1.tail.map id) [] := by
  have hlinks : (Forest.cons 0 (.cons 1 .nil .nil) .nil).LinkedBy oneLink (fun _ => -1) :=
    ⟨rfl, rfl, ⟨rfl, rfl, trivial, trivial⟩, trivial⟩
  exact traverseTree_exact (rowGrammar_lawful fun _ => 2#32) id _ hlinks (by decide) 2 (by decide) []

end DynaSpec.Constrained
