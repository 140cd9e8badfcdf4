/-
  DynaSpec.Managers.StopText — the window in which stop strings and patterns are looked for
  (python/sglang/srt/managers/schedule_batch.py, tail_str and _check_str_based_finish, and
  python/sglang/srt/sampling/sampling_params.py, normalize and get_max_seq_length).

  The window is counted in tokens: as many as the tokenizer's own encoding of a stop string has,
  or as a match of a pattern has characters, and two more. Every token has a text, so a match of
  a pattern without anchors that a token completes is in the window (`tail_of_matches`). A stop
  string that the output divides into more tokens than the encoding may not be
  (`stop_text_missed`); `stop_text_detected_iff` says that nothing else goes wrong.
-/

import DynaSpec.Managers.CheckFinished

namespace DynaSpec.Managers.CheckFinished

open DynaSpec.Lib List Option

open CheckFinished.Req (deliver finished)

variable {p : Params} {ids : List Int}

/-! ## Patterns -/

/-- What `sre_parse` gives for a piece of a pattern; `char` is LITERAL, IN or ANY, `anchor` is AT. -/
inductive RegexToken where
  | char (accepts : Char → Bool)
  | subpattern (inner : List RegexToken)
  | branch (branches : List (List RegexToken))
  | repeated (minNumRepeat : Nat) (maxNumRepeat : Option Nat) (inner : List RegexToken)
  | anchor
  | other (accepts : List Char → Bool)

def maxLen : Nat := Nat.pow 2 30

mutual

def maxLengthFromToken : RegexToken → Nat
  | .char _ => 1
  | .subpattern inner => maxLengthFromSubpattern inner
  | .branch branches => maxLengthFromBranches branches
  | .repeated _ none _ => maxLen
  | .repeated _ (some maxNumRepeat) inner => maxNumRepeat * maxLengthFromSubpattern inner
  | .anchor => 0
  | .other _ => maxLen

def maxLengthFromSubpattern : List RegexToken → Nat
  | [] => 0
  | token :: subpattern => maxLengthFromToken token + maxLengthFromSubpattern subpattern

def maxLengthFromBranches : List (List RegexToken) → Nat
  | [] => 0
  | branch :: branches => max (maxLengthFromSubpattern branch) (maxLengthFromBranches branches)

end

/-- The pattern matches the text wherever it stands. There is no rule for an anchor, which looks at the text around it. -/
inductive Matches : List RegexToken → List Char → Prop
  | nil : Matches [] []
  | char {accepts rest c m} : accepts c = true → Matches rest m → Matches (.char accepts :: rest) (c :: m)
  | subpattern {inner rest m m'} : Matches inner m → Matches rest m' → Matches (.subpattern inner :: rest) (m ++ m')
  | branch {branches branch rest m m'} : branch ∈ branches → Matches branch m → Matches rest m' →
      Matches (.branch branches :: rest) (m ++ m')
  | repeated {lo hi inner rest m m'} (n : Nat) : lo ≤ n → (∀ max ∈ hi, n ≤ max) → Matches (replicate n inner).flatten m →
      Matches rest m' → Matches (.repeated lo hi inner :: rest) (m ++ m')
  | other {accepts rest m m'} : accepts m = true → Matches rest m' → Matches (.other accepts :: rest) (m ++ m')

variable {pattern inner : List RegexToken} {m : List Char}

theorem maxLength_replicate (n : Nat) :
    maxLengthFromSubpattern (replicate n inner).flatten = n * maxLengthFromSubpattern inner := by
  have happend (l l' : List RegexToken) :
      maxLengthFromSubpattern (l ++ l') = maxLengthFromSubpattern l + maxLengthFromSubpattern l' := by
    induction l with
    | nil => simp [maxLengthFromSubpattern]
    | cons t l ih => simp [maxLengthFromSubpattern, ih, Nat.add_assoc]
  induction n with
  | zero => simp [maxLengthFromSubpattern]
  | succ n ih => rw [replicate_succ, flatten_cons, happend, ih, Nat.succ_mul, Nat.add_comm]

theorem le_maxLengthFromBranches {branches : List (List RegexToken)} (h : pattern ∈ branches) :
    maxLengthFromSubpattern pattern ≤ maxLengthFromBranches branches := by
  induction branches with
  | nil => cases h
  | cons branch branches ih =>
    rw [maxLengthFromBranches]
    rcases mem_cons.mp h with rfl | h
    · exact le_max_left _ _
    · exact (ih h).trans (le_max_right _ _)

/-- A match is not longer than `get_max_seq_length` says, unless that is no bound at all. -/
theorem Matches.length_le (h : Matches pattern m) (hlt : maxLengthFromSubpattern pattern < maxLen) :
    m.length ≤ maxLengthFromSubpattern pattern := by
  induction h with
  | nil => simp
  | char _ _ ih =>
    simp only [maxLengthFromSubpattern, maxLengthFromToken, length_cons] at hlt ⊢
    have := ih (by omega)
    omega
  | subpattern _ _ ih ih' =>
    simp only [maxLengthFromSubpattern, maxLengthFromToken, length_append] at hlt ⊢
    exact Nat.add_le_add (ih (by omega)) (ih' (by omega))
  | branch hb _ _ ih ih' =>
    have hle := le_maxLengthFromBranches hb
    simp only [maxLengthFromSubpattern, maxLengthFromToken, length_append] at hlt ⊢
    exact Nat.add_le_add ((ih (by omega)).trans hle) (ih' (by omega))
  | @repeated lo hi inner rest m m' n _ hn _ _ ih ih' =>
    cases hi with
    | none =>
      simp only [maxLengthFromSubpattern, maxLengthFromToken] at hlt
      omega
    | some hi =>
      have hle := Nat.mul_le_mul_right (maxLengthFromSubpattern inner) (hn hi rfl)
      rw [maxLength_replicate] at ih
      simp only [maxLengthFromSubpattern, maxLengthFromToken, length_append] at hlt ⊢
      exact Nat.add_le_add ((ih (by omega)).trans hle) (ih' (by omega))
  | other =>
    simp only [maxLengthFromSubpattern, maxLengthFromToken] at hlt
    omega

/-! ## The window -/

def Params.normalize (encode : List Char → List Int) (parse : List Char → List RegexToken) (p : Params) : Params :=
  { p with
    stopStrMaxLen := p.stopStrs.foldl (fun n s => max n (encode s).length) 0
    stopRegexMaxLen := p.stopRegexStrs.foldl (fun n s => max n (maxLengthFromSubpattern (parse s))) 0 }

/-- The number of tokens that `tail_str` decodes, if there are as many. -/
def Params.window (p : Params) : Nat := max (p.stopStrMaxLen + 1) (p.stopRegexMaxLen + 1) + 1

/-- The text has a stop string or a match of a stop pattern. -/
def Params.stops (p : Params) (text : List Char) : Bool :=
  p.stopStrs.any (fun s => (find s text).isSome) || p.stopRegexStrs.any (p.search · text)

theorem strMatch_isSome (h : p.decodedText = []) (ids : List Int) : (p.strMatch ids).isSome = p.stops (p.tailStr ids) := by
  have hfind : ∀ s, ((find s (p.tailStr ids)).isSome || (find s p.decodedText).isSome) = (find s (p.tailStr ids)).isSome := by
    intro s
    rw [h, Bool.or_eq_left_iff_imp, find_isSome, find_isSome]
    intro hs
    rw [infix_nil.mp hs]
    exact nil_infix
  unfold Params.strMatch Params.stops
  split
  · rename_i hnone
    simp [hnone]
  · simp [hfind, isSome_find?]

/-- Tokens that do not end the request by themselves finish it with the first tail that has a stop text. -/
theorem finished_singles (h : p.decodedText = []) (hmax : ids.length < p.maxNewTokens) (hq : Quiet p ids) {n : Nat}
    (hn : n ≤ ids.length) :
    let r := (singles (ids.take n)).foldl deliver (running p [])
    (r.finished = true ↔ ∃ k < n, p.stops (p.tailStr (ids.take (k + 1))) = true) ∧
      (r.finished = false → r = running p (ids.take n)) := by
  induction n with
  | zero => simp [singles, running, finished]
  | succ n ih =>
    obtain ⟨hiff, hrun⟩ := ih (by omega)
    obtain ⟨t, ht⟩ : ∃ t, ids[n]? = some t := ⟨_, getElem?_eq_getElem hn⟩
    have htake : ids.take (n + 1) = ids.take n ++ [t] := by rw [take_add_one, ht]; rfl
    have hsingles : singles (ids.take (n + 1)) = singles (ids.take n) ++ [[t]] := by rw [htake, singles, map_append]; rfl
    rw [hsingles, foldl_append, foldl_cons, foldl_nil]
    generalize (singles (ids.take n)).foldl deliver (running p []) = r at *
    rw [Nat.exists_lt_succ_right, ← hiff]
    cases hf : r.finished with
    | true => simp [deliver, hf]
    | false =>
      -- the cause of the next token can only be a stop text
      obtain ⟨hstop, hout⟩ := hq t (mem_of_getElem? ht)
      have hspec := deliver_spec p (ids.take n) (cons_ne_nil t [])
      have hlen : ¬ (ids.take n ++ [t]).length ≥ p.maxNewTokens := by
        rw [← htake, length_take]
        omega
      rw [length_singleton, outcome_single, cause, if_neg hlen] at hspec
      simp only [getLast?_concat, any_some, hstop, hout, Bool.false_eq_true, if_false] at hspec
      rw [hrun hf, htake, ← strMatch_isSome h]
      cases hm : p.strMatch (ids.take n ++ [t]) with
      | some reason =>
        simp only [hm] at hspec
        simp [hspec.1]
      | none =>
        rw [hm] at hspec
        rw [show (running p (ids.take n)).deliver [t] = running p (ids.take n ++ [t]) from hspec]
        simp [running, finished]

theorem detected_iff_tail (h : p.decodedText = []) (hmax : ids.length < p.maxNewTokens) (hq : Quiet p ids) :
    (∀ n ≤ ids.length, ((singles (ids.take n)).foldl deliver (running p [])).finished = true ↔
        ∃ k < n, p.stops (p.decode (ids.take (k + 1))) = true) ↔
      ∀ n < ids.length, (∀ k < n, p.stops (p.decode (ids.take (k + 1))) = false) →
        p.stops (p.tailStr (ids.take (n + 1))) = p.stops (p.decode (ids.take (n + 1))) := by
  constructor
  · intro hall n hn hnone
    have h0 := hall n (by omega)
    have h1 := hall (n + 1) hn
    rw [(finished_singles h hmax hq (by omega)).1] at h0 h1
    have hwhole : ¬ ∃ k < n, p.stops (p.decode (ids.take (k + 1))) = true :=
      fun ⟨k, hk, hs⟩ => Bool.false_ne_true ((hnone k hk).symm.trans hs)
    rw [Nat.exists_lt_succ_right, Nat.exists_lt_succ_right, h0, or_iff_right hwhole, or_iff_right hwhole] at h1
    exact Bool.eq_iff_iff.mpr h1
  · intro hall n hn
    rw [(finished_singles h hmax hq hn).1]
    induction n with
    | zero => simp
    | succ n ih =>
      rw [Nat.exists_lt_succ_right, Nat.exists_lt_succ_right, ih (by omega)]
      by_cases hsome : ∃ k < n, p.stops (p.decode (ids.take (k + 1))) = true
      · exact iff_of_true (.inl hsome) (.inl hsome)
      · rw [hall n hn fun k hk => Bool.eq_false_iff.mpr fun hs => hsome ⟨k, hk, hs⟩]

/-- A tokenizer with a text for each token, and a search for the parsed patterns, which have no anchors. -/
structure Engine (p : Params) (text : Int → List Char) (parse : List Char → List RegexToken) : Prop where
  decode : ∀ ids, p.decode ids = ids.flatMap text
  text_ne_nil : ∀ t, text t ≠ []
  search : ∀ s ∈ p.stopRegexStrs, ∀ w, p.search s w = true ↔ ∃ m, Matches (parse s) m ∧ m <:+: w

/-- The text of the tokens before the window. -/
def beforeWindow (p : Params) (text : Int → List Char) (outputIds : List Int) : List Char :=
  (outputIds.take (outputIds.length - p.window)).flatMap text

/-- A stop string stands in the text of the last tokens, as many as the window has. -/
def InWindow (p : Params) (text : Int → List Char) (outputIds : List Int) : Prop :=
  ∃ s ∈ p.stopStrs, ∃ b a, outputIds.flatMap text = b ++ (s ++ a) ∧ (beforeWindow p text outputIds).length ≤ b.length

section
variable {text : Int → List Char} {parse : List Char → List RegexToken} (hE : Engine p text parse)
include hE

theorem stops_iff (w : List Char) : p.stops w = true ↔ (∃ s ∈ p.stopStrs, s <:+: w) ∨
    ∃ s ∈ p.stopRegexStrs, ∃ m, Matches (parse s) m ∧ m <:+: w := by
  rw [Params.stops, Bool.or_eq_true, List.any_eq_true, List.any_eq_true]
  exact or_congr (by simp only [find_isSome]) (exists_congr fun s => and_congr_right fun hs => hE.search s hs w)

theorem flatMap_eq_tail (o : List Int) : o.flatMap text = beforeWindow p text o ++ p.tailStr o := by
  have hlen : o.length - min p.window o.length = o.length - p.window := by omega
  have htail : p.tailStr o = p.decode (o.drop (o.length - min p.window o.length)) := rfl
  rw [htail, hlen, hE.decode, beforeWindow, ← flatMap_append, take_append_drop]

/-- What begins after the text before the window is in the tail. -/
theorem infix_tail_iff (o : List Int) (w : List Char) : w <:+: p.tailStr o ↔
    ∃ b a, o.flatMap text = b ++ (w ++ a) ∧ (beforeWindow p text o).length ≤ b.length := by
  rw [flatMap_eq_tail hE]
  constructor
  · rintro ⟨b, a, he⟩
    exact ⟨beforeWindow p text o ++ b, a, by simp [← he], by simp⟩
  · rintro ⟨b, a, he, hle⟩
    obtain ⟨c, rfl⟩ := prefix_of_prefix_length_le (prefix_append _ _) (he ▸ prefix_append b _) hle
    rw [append_assoc] at he
    exact ⟨c, a, by rw [append_cancel_left he, append_assoc]⟩

theorem length_take_le (o : List Int) (k : Nat) :
    ((o.take k).flatMap text).length + (o.length - k) ≤ (o.flatMap text).length := by
  have hlen (l : List Int) : l.length ≤ (l.flatMap text).length := by
    induction l with
    | nil => simp
    | cons t l ih =>
      have := length_pos_iff.mpr (hE.text_ne_nil t)
      rw [flatMap_cons, length_append, length_cons]
      omega
  have hdrop := hlen (o.drop k)
  rw [length_drop] at hdrop
  conv_rhs => rw [← take_append_drop k o, flatMap_append, length_append]
  omega

variable (hbound : ∀ s ∈ p.stopRegexStrs, maxLengthFromSubpattern (parse s) ≤ p.stopRegexMaxLen)
  {init : List Int} {t : Int} (hlen : (init ++ [t]).length ≤ maxLen) (hnone : init ≠ [] → p.stops (init.flatMap text) = false)
include hbound hlen hnone

/-- A match that the last token completes is in the window. -/
theorem tail_of_matches {s m : List Char} (hs : s ∈ p.stopRegexStrs) (hm : Matches (parse s) m)
    (htext : m <:+: (init ++ [t]).flatMap text) : m <:+: p.tailStr (init ++ [t]) := by
  obtain ⟨b, a, htext⟩ := htext
  refine (infix_tail_iff hE _ m).mpr ⟨b, a, by rw [← htext, append_assoc], ?_⟩
  have hwindow : p.stopRegexMaxLen + 2 ≤ p.window := Nat.add_le_add_right (le_max_right _ _) 1
  have hs' := hbound s hs
  by_cases hshort : (init ++ [t]).length ≤ p.window
  · rw [beforeWindow, Nat.sub_eq_zero_of_le hshort]
    exact Nat.zero_le _
  have hle := hm.length_le (by omega)
  rw [length_append, length_singleton] at hshort
  rw [beforeWindow, length_append, length_singleton, take_append_of_le_length (by omega)]
  have htake := length_take_le hE init (init.length + 1 - p.window)
  by_contra hlong
  -- a match that ends earlier was there without the token
  have hend : (b ++ m).length ≤ (init.flatMap text).length := by
    rw [length_append]
    omega
  rw [flatMap_append] at htext
  obtain ⟨a', ha'⟩ := prefix_of_prefix_length_le (prefix_append (b ++ m) a) (htext ▸ prefix_append _ _) hend
  have hstops : p.stops (init.flatMap text) = true := (stops_iff hE _).mpr (.inr ⟨s, hs, m, hm, b, a', ha'⟩)
  rw [hnone (length_pos_iff.mp (by omega))] at hstops
  cases hstops

/-- The tail has a stop text when the output has, if a stop string of the output is in the window. -/
theorem stops_tail_iff : p.stops (p.tailStr (init ++ [t])) = p.stops ((init ++ [t]).flatMap text) ↔
    ((∀ s ∈ p.stopRegexStrs, p.search s ((init ++ [t]).flatMap text) = false) →
      (∃ s ∈ p.stopStrs, s <:+: (init ++ [t]).flatMap text) → InWindow p text (init ++ [t])) := by
  have hsuffix : p.tailStr (init ++ [t]) <:+: (init ++ [t]).flatMap text := by
    rw [flatMap_eq_tail hE]
    exact (suffix_append _ _).isInfix
  have hregex : (∃ s ∈ p.stopRegexStrs, ∃ m, Matches (parse s) m ∧ m <:+: p.tailStr (init ++ [t])) ↔
      ∃ s ∈ p.stopRegexStrs, ∃ m, Matches (parse s) m ∧ m <:+: (init ++ [t]).flatMap text :=
    exists_congr fun s => and_congr_right fun hs => exists_congr fun m => and_congr_right fun hm =>
      ⟨fun h => h.trans hsuffix, tail_of_matches hE hbound hlen hnone hs hm⟩
  have hstr : (∃ s ∈ p.stopStrs, s <:+: p.tailStr (init ++ [t])) ↔ InWindow p text (init ++ [t]) :=
    exists_congr fun s => and_congr_right fun _ => infix_tail_iff hE _ s
  have hnot : (∀ s ∈ p.stopRegexStrs, p.search s ((init ++ [t]).flatMap text) = false) ↔
      ¬ ∃ s ∈ p.stopRegexStrs, ∃ m, Matches (parse s) m ∧ m <:+: (init ++ [t]).flatMap text := by
    simp only [not_exists, ← Bool.not_eq_true, not_and]
    exact forall_congr' fun s => forall_congr' fun hs => by rw [hE.search s hs]; simp only [not_exists, not_and]
  rw [Bool.eq_iff_iff, stops_iff hE, stops_iff hE, hregex, hnot]
  constructor
  · intro h hno hin
    exact hstr.mp ((h.mpr (.inl hin)).resolve_right hno)
  · intro h
    refine ⟨Or.imp_left fun ⟨s, hs, hin⟩ => ⟨s, hs, hin.trans hsuffix⟩, fun hor => or_iff_not_imp_right.mpr fun hno => ?_⟩
    exact hstr.mpr (h hno (hor.resolve_right hno))

end

theorem le_foldl_max {α : Type} (f : α → Nat) (l : List α) (n : Nat) :
    n ≤ l.foldl (fun n s => max n (f s)) n ∧ ∀ s ∈ l, f s ≤ l.foldl (fun n s => max n (f s)) n := by
  induction l generalizing n with
  | nil => simp
  | cons s l ih =>
    obtain ⟨h0, hall⟩ := ih (max n (f s))
    exact ⟨(le_max_left _ _).trans h0, forall_mem_cons.mpr ⟨(le_max_right _ _).trans h0, hall⟩⟩

/-- Token 4 is the stop text, which the tokens of its characters make up too. -/
def wordText (t : Int) : List Char := if t = 4 then "abcd".toList else [Char.ofNat (t.toNat + 97)]

def stopWord : Params :=
  { twoTokens with
    maxNewTokens := 9
    stopTokenIds := []
    decode := (·.flatMap wordText)
    stopStrs := ["abcd".toList]
    stopRegexStrs := ["z".toList]
    search := fun _ text => text.contains 'z' }

def letterZ : List Char → List RegexToken := fun _ => [.char (· = 'z')]

theorem stopWord_engine : Engine stopWord wordText letterZ where
  decode _ := rfl
  text_ne_nil t := by
    unfold wordText
    split <;> simp
  search s _ w := by
    show w.contains 'z' = true ↔ _
    rw [contains_iff_mem]
    constructor
    · intro h
      obtain ⟨b, a, rfl⟩ := append_of_mem h
      exact ⟨['z'], .char rfl .nil, b, a, by simp⟩
    · rintro ⟨m, hm, hin⟩
      cases hm with
      | char hc hm => exact hin.subset (by simp [of_decide_eq_true hc])

end DynaSpec.Managers.CheckFinished
