/-
  DynaSpec.Router.Sequence — incremental detokenization (sgl-router/src/tokenizer/sequence.rs).

  The tokenizer is byte-level: a token is a row of bytes, and tokens decode to the lossy decoding
  of their bytes. Texts are lists of characters; lengths and positions are in bytes, as in the
  source, and `none` is a panic of a slice.

  `append_token` compares the length of what was decoded before with that of what is decoded
  now. A character that is cut by the end of a token was decoded to U+FFFD, of three bytes, which
  counts as text that was returned already: a character of two or three bytes that is completed
  later is lost (`sequence_loses_a_character`), and so is what was completed by a token that ends
  inside a character. `sequence_lossless_iff` is what the tokens have to be for nothing to be
  lost; no call panics on any valid text.
-/

import DynaSpec.Lib.Utf8

namespace DynaSpec.Router

open DynaSpec.Lib.Utf8 List Nat

structure Sequence where
  tokenIds : List Nat
  prefixOffset : Nat
  readOffset : Nat

namespace Sequence

def new : Sequence := ⟨[], 0, 0⟩

def decode (bytes : Nat → List Nat) (tokenIds : List Nat) : List Char := lossy (tokenIds.flatMap bytes)

def endsWithReplacement (text : List Char) : Bool := decide (text.getLast? = some replacement)

/-- The end of `append_token`: what is new in `new_text`, or `none` when nothing is returned and the
    offset stays. -/
def newPortion (prefixText newText : List Char) : Option (Option (List Char)) :=
  let prefixTextLen := floorBoundary newText (size prefixText)
  if size prefixText < size newText then
    if endsWithReplacement newText then some none
    else (sliceFrom newText prefixTextLen).map fun incremental => some (incremental.filter (· ≠ replacement))
  else some none

def appendToken (bytes : Nat → List Nat) (s : Sequence) (tokenId : Nat) : Option (List Char × Sequence) :=
  let oldReadOffset := s.readOffset
  let tokenIds := s.tokenIds ++ [tokenId]
  let s := { s with tokenIds, readOffset := tokenIds.length }
  if s.prefixOffset = 0 ∧ oldReadOffset = 0 then
    let text := decode bytes tokenIds
    if endsWithReplacement text then some ([], s) else some (text, { s with prefixOffset := 0 })
  else if s.prefixOffset ≤ oldReadOffset ∧ oldReadOffset ≤ tokenIds.length then
    let prefixText := decode bytes ((tokenIds.take oldReadOffset).drop s.prefixOffset)
    let newText := decode bytes (tokenIds.drop s.prefixOffset)
    (newPortion prefixText newText).map fun
      | none => ([], s)
      | some incremental => (incremental, { s with prefixOffset := oldReadOffset })
  else none

/-- The strings that are returned for a row of tokens. -/
def appendTokens (bytes : Nat → List Nat) : Sequence → List Nat → Option (List (List Char))
  | _, [] => some []
  | s, tokenId :: tokenIds => do
    let (text, s) ← appendToken bytes s tokenId
    let texts ← appendTokens bytes s tokenIds
    return text :: texts

/-! ## One token -/

/-- What is completed by a token is returned whole: `a` and `e` are where the token begins and ends in
    the bytes of the text. A token that ends inside a character must complete none. One that does
    not must not complete a U+FFFD (the first token may, before its end), and the character that it
    completes from earlier bytes must take four. -/
def Whole (text : List Char) (first : Bool) (a e : Nat) : Prop :=
  let completed := (finished e text).drop (finished a text).length
  if size (finished e text) ≠ e then completed = []
  else if first then completed.getLast? ≠ some replacement
  else (size (finished a text) ≠ a → ∀ c, completed.head? = some c → c.utf8Size = 4) ∧ replacement ∉ completed

theorem newPortion_spec {l r t r' : List Char} (hr' : r' = [] ∨ r' = [replacement])
    (hnone : r' = [] → t = [] → r = []) : ∃ o, newPortion (l ++ r) (l ++ (t ++ r')) = some o ∧ (o.getD []).Sublist t ∧
    (o ≠ none → r' = []) ∧
      (o.getD [] = t ↔ if r' = [] then finished (size r) t = [] ∧ replacement ∉ t else t = []) := by
  unfold newPortion
  rcases hr' with rfl | rfl
  · rw [append_nil, if_pos rfl]
    by_cases hlt : size (l ++ r) < size (l ++ t)
    · rw [if_pos hlt]
      have ht : t ≠ [] := by
        intro ht
        rw [ht, hnone rfl ht] at hlt
        exact lt_irrefl _ hlt
      have hlast : (l ++ t).getLast? = t.getLast? := by
        rw [getLast?_append]
        cases h : t.getLast? with
        | none => exact absurd (getLast?_eq_none_iff.mp h) ht
        | some c => rfl
      by_cases hend : endsWithReplacement (l ++ t) = true
      · rw [if_pos hend]
        refine ⟨none, rfl, nil_sublist t, absurd rfl, iff_of_false (fun h => ht h.symm) fun h => h.2 ?_⟩
        rw [endsWithReplacement, hlast, decide_eq_true_eq] at hend
        exact mem_of_getLast? hend
      rw [if_neg hend, floorBoundary_eq, size_append, finished_append]
      obtain ⟨rest, hrest⟩ := finished_prefix (size r) t
      have hslice : sliceFrom (l ++ t) (size (l ++ finished (size r) t)) = some rest := by
        rw [← sliceFrom_size (l ++ finished (size r) t) rest, append_assoc, hrest]
      rw [hslice]
      refine ⟨_, rfl, ?_, fun _ => rfl, ?_⟩
      · rw [← hrest]
        exact filter_sublist.trans (sublist_append_right _ _)
      rw [Option.getD_some]
      constructor
      · intro h
        have hlen : t.length ≤ rest.length := by
          rw [← h]
          exact length_filter_le _ _
        have hnil : finished (size r) t = [] := by
          have := congrArg length hrest
          rw [length_append] at this
          exact eq_nil_of_length_eq_zero (by omega)
        refine ⟨hnil, fun hmem => ?_⟩
        rw [← h] at hmem
        have := of_mem_filter hmem
        simp at this
      · intro h
        rw [h.1, nil_append] at hrest
        rw [hrest, filter_eq_self]
        intro c hc
        simp only [ne_eq, decide_eq_true_eq]
        exact fun he => h.2 (he ▸ hc)
    · rw [if_neg hlt]
      refine ⟨none, rfl, nil_sublist t, absurd rfl, ?_⟩
      rw [size_append, size_append] at hlt
      rw [finished_of_size_le (by omega)]
      constructor
      · intro h
        rw [← h]
        exact ⟨rfl, not_mem_nil⟩
      · intro h
        exact h.1.symm
  · have hend : endsWithReplacement (l ++ (t ++ [replacement])) = true := by
      rw [endsWithReplacement, ← append_assoc, getLast?_append]
      rfl
    dsimp only
    rw [if_pos hend, ite_self]
    refine ⟨none, rfl, nil_sublist t, absurd rfl, ?_⟩
    rw [if_neg (by simp)]
    exact ⟨fun h => h.symm, fun h => h.symm⟩

/-- A character that does not fit in three bytes takes four. -/
theorem finished_three {t : List Char} : finished 3 t = [] ↔ ∀ c, t.head? = some c → c.utf8Size = 4 := by
  cases t with
  | nil => simp
  | cons c t =>
    have hle := c.utf8Size_le_four
    rw [finished_cons]
    constructor
    · intro h d hd
      cases hd
      by_contra hne
      rw [if_pos (by omega)] at h
      cases h
    · intro h
      rw [if_neg (by rw [h c rfl]; decide)]

section
variable {bytes : Nat → List Nat} {text : List Char} {ids done : List Nat} {tok : Nat} {s : Sequence}

/-- Where the tokens end in the bytes of the text. -/
def offset (bytes : Nat → List Nat) (tokenIds : List Nat) : Nat := (tokenIds.flatMap bytes).length

theorem offset_append (xs ys : List Nat) : offset bytes (xs ++ ys) = offset bytes xs + offset bytes ys := by
  simp [offset]

/-- The bytes of the first tokens of a text. -/
theorem bytes_take (hvalid : ids.flatMap bytes = encodeText text) (hpre : done <+: ids) :
    done.flatMap bytes = (encodeText text).take (offset bytes done) ∧ offset bytes done ≤ size text := by
  obtain ⟨rest, rfl⟩ := hpre
  rw [flatMap_append] at hvalid
  refine ⟨by rw [← hvalid, offset, take_left], ?_⟩
  rw [← length_encodeText, ← hvalid, length_append]
  exact le_add_right _ _

/-- The last tokens of the first tokens of a text decode to the finished characters and a cut one. -/
theorem decode_drop (hvalid : ids.flatMap bytes = encodeText text) (hpre : done <+: ids) {k : Nat}
    (hk : offset bytes (done.take k) ≤ size (finished (offset bytes done) text)) : ∃ q,
      decode bytes (done.drop k) = lossy ((encodeText (finished (offset bytes done) text)).drop
      (offset bytes (done.take k)) ++ q) ∧
      size (finished (offset bytes done) text) + q.length = offset bytes done ∧ (q = [] ∨ lossy q = [replacement]) := by
  obtain ⟨hbytes, hle⟩ := bytes_take hvalid hpre
  obtain ⟨q, htake, hlen, hq⟩ := take_encodeText text (offset bytes done) hle
  refine ⟨q, ?_, hlen, hq⟩
  have hsplit : done.flatMap bytes = (done.take k).flatMap bytes ++ (done.drop k).flatMap bytes := by
    rw [← flatMap_append, take_append_drop]
  have hdrop : (done.drop k).flatMap bytes = (done.flatMap bytes).drop (offset bytes (done.take k)) := by
    rw [hsplit, offset, drop_left]
  rw [decode, hdrop, hbytes, htake, drop_append_of_le_length (by rw [length_encodeText]; exact hk)]

/-- The state after the tokens `done`. -/
structure At (bytes : Nat → List Nat) (text : List Char) (done : List Nat) (s : Sequence) : Prop where
  tokens : s.tokenIds = done
  read : s.readOffset = done.length
  nonempty : done ≠ []
  behind : s.prefixOffset ≤ done.length
  start : offset bytes (done.take s.prefixOffset) ≤ size (finished (offset bytes done) text)

/-- The characters that a token completes. -/
def completed (bytes : Nat → List Nat) (text : List Char) (done : List Nat) (tok : Nat) : List Char :=
  (finished (offset bytes (done ++ [tok])) text).drop (finished (offset bytes done) text).length

theorem finished_completed (bytes : Nat → List Nat) (text : List Char) (done : List Nat) (tok : Nat) :
    finished (offset bytes (done ++ [tok])) text = finished (offset bytes done) text ++ completed bytes text done tok := by
  obtain ⟨rest, hrest⟩ := finished_mono (show offset bytes done ≤ offset bytes (done ++ [tok]) by rw [offset_append]; omega) text
  rw [completed, ← hrest, drop_left]

theorem lossy_eq_nil {q : List Nat} (hq : q = [] ∨ lossy q = [replacement]) : lossy q = [] ↔ q = [] := by
  constructor
  · intro h
    rcases hq with hq | hq
    · exact hq
    · rw [h] at hq
      cases hq
  · intro h
    rw [h, lossy_nil]

theorem size_replacement : size [replacement] = 3 := by decide

/-- A token after the first. -/
theorem appendToken_spec (hvalid : ids.flatMap bytes = encodeText text) (hpre : done ++ [tok] <+: ids)
    (h : At bytes text done s) :
    ∃ out s', appendToken bytes s tok = some (out, s') ∧ At bytes text (done ++ [tok]) s' ∧
    out.Sublist (completed bytes text done tok) ∧
      (out = completed bytes text done tok ↔ Whole text false (offset bytes done) (offset bytes (done ++ [tok]))) := by
  have hread : s.readOffset ≠ 0 := by
    rw [h.read]
    exact fun h0 => h.nonempty (eq_nil_of_length_eq_zero h0)
  have hsplit := finished_completed bytes text done tok
  have hmono : offset bytes done ≤ offset bytes (done ++ [tok]) := by
    rw [offset_append]
    omega
  have htake : ((done ++ [tok]).take s.prefixOffset) = done.take s.prefixOffset := take_append_of_le_length h.behind
  have hstart' : offset bytes ((done ++ [tok]).take s.prefixOffset) ≤ size (finished (offset bytes (done ++ [tok])) text) := by
    rw [htake, hsplit, size_append]
    have := h.start
    omega
  generalize ht : completed bytes text done tok = t at hsplit ⊢
  unfold completed at ht
  obtain ⟨q, hold, hlen, hq⟩ := decode_drop hvalid ((prefix_append done [tok]).trans hpre) h.start
  obtain ⟨q', hnew, hlen', hq'⟩ := decode_drop hvalid hpre hstart'
  obtain ⟨l, hl⟩ := lossy_drop_encode (finished (offset bytes done) text) (offset bytes (done.take s.prefixOffset))
  rw [hl] at hold
  have hnew' : decode bytes ((done ++ [tok]).drop s.prefixOffset) = l ++ (t ++ lossy q') := by
    rw [hnew, htake, hsplit, encodeText_append, drop_append_of_le_length (by rw [length_encodeText]; exact h.start),
      append_assoc, hl, lossy_encodeText_append]
  have hr : lossy q = [] ∨ lossy q = [replacement] := hq.imp_left (fun h => by rw [h, lossy_nil])
  have hr' : lossy q' = [] ∨ lossy q' = [replacement] := hq'.imp_left (fun h => by rw [h, lossy_nil])
  have hlenq : q = [] ↔ size (finished (offset bytes done) text) = offset bytes done := by
    rw [← length_eq_zero_iff]
    omega
  have hlenq' : q' = [] ↔ size (finished (offset bytes (done ++ [tok])) text) = offset bytes (done ++ [tok]) := by
    rw [← length_eq_zero_iff]
    omega
  obtain ⟨o, hrun, hsub, hclosed, heq⟩ := newPortion_spec (l := l) (r := lossy q) (t := t) hr' (by
    intro h1 h2
    rw [lossy_eq_nil hq', hlenq', hsplit, h2, append_nil] at h1
    rw [lossy_eq_nil hq, hlenq]
    omega)
  have hgood : o.getD [] = t ↔ Whole text false (offset bytes done) (offset bytes (done ++ [tok])) := by
    rw [heq]
    simp only [Whole, ht, Bool.false_eq_true, if_false]
    by_cases hb : q' = []
    · rw [if_pos ((lossy_eq_nil hq').mpr hb), if_neg (not_not.mpr (hlenq'.mp hb))]
      refine and_congr_left fun _ => ?_
      rcases hr with hr | hr
      · have hbound := hlenq.mp ((lossy_eq_nil hq).mp hr)
        simp [hr, hbound]
      have hcut : size (finished (offset bytes done) text) ≠ offset bytes done := by
        intro he
        rw [(lossy_eq_nil hq).mpr (hlenq.mpr he)] at hr
        cases hr
      rw [hr, size_replacement, finished_three]
      exact ⟨fun h _ => h, fun h => h hcut⟩
    · rw [if_neg fun h => hb ((lossy_eq_nil hq').mp h), if_pos fun h => hb (hlenq'.mpr h)]
  have htakeold : ((done ++ [tok]).take s.readOffset).drop s.prefixOffset = done.drop s.prefixOffset := by
    rw [h.read, take_left]
  have hbounds : s.prefixOffset ≤ s.readOffset ∧ s.readOffset ≤ (done ++ [tok]).length := by
    rw [h.read, length_append]
    exact ⟨h.behind, by omega⟩
  unfold appendToken
  simp only [h.tokens]
  rw [if_neg fun h0 => hread h0.2, if_pos hbounds, htakeold, hold, hnew', hrun, Option.map_some]
  cases o with
  | none =>
    refine ⟨_, _, rfl, ⟨rfl, rfl, by simp, ?_, hstart'⟩, hsub, hgood⟩
    have := h.behind
    rw [length_append]
    dsimp only
    omega
  | some out =>
    refine ⟨_, _, rfl, ⟨rfl, rfl, by simp, ?_, ?_⟩, hsub, hgood⟩
    · dsimp only
      rw [h.read, length_append]
      omega
    · dsimp only
      rw [h.read, take_left]
      have := hlenq'.mp ((lossy_eq_nil hq').mp (hclosed (by simp)))
      omega

/-- The first token. -/
theorem appendToken_first (hvalid : ids.flatMap bytes = encodeText text) (hpre : [tok] <+: ids) :
    ∃ out s', appendToken bytes .new tok = some (out, s') ∧ At bytes text [tok] s' ∧ out.Sublist (completed bytes text [] tok) ∧
      (out = completed bytes text [] tok ↔ Whole text true 0 (offset bytes [tok])) := by
  have hzero : offset bytes ([tok].take 0) ≤ size (finished (offset bytes [tok]) text) := zero_le _
  obtain ⟨q, hdec, hlen, hq⟩ := decode_drop hvalid hpre hzero
  have hcompleted : completed bytes text [] tok = finished (offset bytes [tok]) text := by
    simp [completed, offset]
  simp only [hcompleted, Whole, finished_zero, length_nil, drop_zero, if_true]
  generalize finished (offset bytes [tok]) text = t at hdec hlen hzero ⊢
  have htext : decode bytes [tok] = t ++ lossy q := by
    have : decode bytes ([tok].drop 0) = lossy ((encodeText t).drop 0 ++ q) := hdec
    rwa [drop_zero, drop_zero, lossy_encodeText_append] at this
  have hcall : appendToken bytes .new tok = if endsWithReplacement (t ++ lossy q) then some ([], ⟨[tok], 0, 1⟩)
    else some (t ++ lossy q, ⟨[tok], 0, 1⟩) := by
    rw [← htext]
    rfl
  have hat : At bytes text [tok] ⟨[tok], 0, 1⟩ := ⟨rfl, rfl, by simp, zero_le _, zero_le _⟩
  rcases hq with rfl | hq
  · rw [hcall, lossy_nil, append_nil, if_neg (not_not.mpr (by simpa using hlen))]
    by_cases hend : endsWithReplacement t = true
    · rw [if_pos hend]
      rw [endsWithReplacement, decide_eq_true_eq] at hend
      refine ⟨_, _, rfl, hat, nil_sublist t, iff_of_false (fun he => ?_) (not_not.mpr hend)⟩
      rw [← he] at hend
      cases hend
    · rw [if_neg hend]
      rw [endsWithReplacement, decide_eq_true_eq] at hend
      exact ⟨_, _, rfl, hat, List.Sublist.refl t, iff_of_true rfl hend⟩
  have hcut : size t ≠ offset bytes [tok] := by
    intro he
    have hnil : q = [] := eq_nil_of_length_eq_zero (by omega)
    rw [hnil, lossy_nil] at hq
    cases hq
  have hend : endsWithReplacement (t ++ [replacement]) = true := by simp [endsWithReplacement]
  rw [hcall, hq, if_pos hend, if_pos hcut]
  exact ⟨_, _, rfl, hat, nil_sublist t, ⟨fun h => h.symm, fun h => h.symm⟩⟩

/-! ## A row of tokens -/

theorem append_eq_iff {a b c d : List Char} (hab : a.Sublist b) (hcd : c.Sublist d) : a ++ c = b ++ d ↔ a = b ∧ c = d := by
  constructor
  · intro h
    have hlen := congrArg length h
    rw [length_append, length_append] at hlen
    have h1 := hab.length_le
    have h2 := hcd.length_le
    exact ⟨hab.eq_of_length (by omega), hcd.eq_of_length (by omega)⟩
  · intro h
    rw [h.1, h.2]

theorem drop_finished (bytes : Nat → List Nat) (text : List Char) (done : List Nat) (tok : Nat) :
    text.drop (finished (offset bytes done) text).length =
      completed bytes text done tok ++ text.drop (finished (offset bytes (done ++ [tok])) text).length := by
  have hdrop : ∀ {p rest : List Char}, p ++ rest = text → text.drop p.length = rest := fun h => by rw [← h, drop_left]
  obtain ⟨rest, hrest⟩ := finished_prefix (offset bytes (done ++ [tok])) text
  have h : finished (offset bytes done) text ++ (completed bytes text done tok ++ rest) = text := by
    rw [← append_assoc, ← finished_completed, hrest]
  rw [hdrop h, hdrop hrest]

theorem appendTokens_spec (hvalid : ids.flatMap bytes = encodeText text) (rest done : List Nat) (s : Sequence)
    (hids : done ++ rest = ids) (hat : At bytes text done s) :
    ∃ outs, appendTokens bytes s rest = some outs ∧
      outs.flatten.Sublist (text.drop (finished (offset bytes done) text).length) ∧
      (outs.flatten = text.drop (finished (offset bytes done) text).length ↔
        ∀ i, done.length ≤ i → i < ids.length →
        Whole text false (offset bytes (ids.take i)) (offset bytes (ids.take (i + 1)))) := by
  induction rest generalizing done s with
  | nil =>
    rw [append_nil] at hids
    subst hids
    have hall : finished (offset bytes done) text = text := finished_of_size_le (by rw [offset, hvalid, length_encodeText])
    refine ⟨[], rfl, nil_sublist _, iff_of_true ?_ fun i hi hlt => by omega⟩
    rw [hall, drop_length]
    rfl
  | cons tok rest ih =>
    have hpre : done ++ [tok] <+: ids := ⟨rest, by rw [append_assoc]; exact hids⟩
    obtain ⟨out, s', hrun, hat', hsub, hgood⟩ := appendToken_spec hvalid hpre hat
    obtain ⟨outs, hruns, hsubs, hgoods⟩ := ih (done ++ [tok]) s' (by rw [append_assoc]; exact hids) hat'
    refine ⟨out :: outs, by simp [appendTokens, hrun, hruns], ?_, ?_⟩
    · rw [flatten_cons, drop_finished bytes text done tok]
      exact hsub.append hsubs
    rw [flatten_cons, drop_finished bytes text done tok, append_eq_iff hsub hsubs, hgood, hgoods]
    have hlen : done.length < ids.length := by rw [← hids, length_append, length_cons]; omega
    have htake : ids.take done.length = done := by rw [← hids, take_left]
    have htake' : ids.take (done.length + 1) = done ++ [tok] := by
      rw [← hids, take_append, take_of_length_le (by omega), Nat.add_sub_cancel_left]
      rfl
    constructor
    · intro h i hi hlt
      rcases eq_or_lt_of_le hi with he | hgt
      · rw [← he, htake, htake']
        exact h.1
      · exact h.2 i (by rw [length_append]; exact hgt) hlt
    · intro h
      have hfirst := h done.length (le_refl _) hlen
      rw [htake, htake'] at hfirst
      refine ⟨hfirst, fun i hi hlt => h i ?_ hlt⟩
      rw [length_append] at hi
      omega

/-- Nothing is lost exactly when every token completes its characters whole; no call panics. -/
theorem sequence_lossless_iff (bytes : Nat → List Nat) (ids : List Nat) (text : List Char)
    (hvalid : ids.flatMap bytes = encodeText text) :
    ∃ outs, appendTokens bytes .new ids = some outs ∧ (outs.flatten = decode bytes ids ↔
      ∀ i < ids.length, Whole text (decide (i = 0)) (offset bytes (ids.take i)) (offset bytes (ids.take (i + 1)))) := by
  have hdecode : decode bytes ids = text := by rw [decode, hvalid, lossy_encodeText]
  rw [hdecode]
  cases ids with
  | nil =>
    refine ⟨[], rfl, iff_of_true ?_ fun i hi => absurd hi (not_lt_zero i)⟩
    rw [← hdecode]
    rfl
  | cons tok rest =>
    obtain ⟨out, s', hrun, hat, hsub, hgood⟩ := appendToken_first hvalid ⟨rest, rfl⟩
    obtain ⟨outs, hruns, hsubs, hgoods⟩ := appendTokens_spec hvalid rest [tok] s' rfl hat
    refine ⟨out :: outs, by simp [appendTokens, hrun, hruns], ?_⟩
    have htext : text = completed bytes text [] tok ++ text.drop (finished (offset bytes [tok]) text).length := by
      have := drop_finished bytes text [] tok
      simpa [offset] using this
    conv_lhs => rw [htext]
    rw [flatten_cons, append_eq_iff hsub hsubs, hgood, hgoods]
    constructor
    · intro h i hi
      cases i with
      | zero => exact h.1
      | succ i => exact h.2 (i + 1) (by simp) hi
    · intro h
      refine ⟨h 0 (by simp), fun i hi hlt => ?_⟩
      have := h i hlt
      rwa [decide_eq_false (by simp at hi; omega)] at this

/-- The two bytes of "é" in two tokens. -/
theorem sequence_loses_a_character : ∃ (bytes : Nat → List Nat) (ids : List Nat), ids.flatMap bytes = encodeText ['é'] ∧
    ∃ outs, appendTokens bytes .new ids = some outs ∧ outs.flatten = [] ∧ decode bytes ids = ['é'] :=
  ⟨fun id => [id], [0xC3, 0xA9], by decide, [[], []], by decide, by decide, by decide⟩

/-- The four bytes of an emoji in two tokens come through. -/
theorem sequence_lossless_emoji : ∃ outs,
    appendTokens (fun id => if id = 0 then [0xF0, 0x9F] else [0x98, 0x80]) .new [0, 1] = some outs ∧ outs.flatten = ['😀'] := by
  obtain ⟨outs, hrun, heq⟩ := sequence_lossless_iff (fun id => if id = 0 then [0xF0, 0x9F] else [0x98, 0x80])
    [0, 1] ['😀'] (by decide)
  have hdec : decode (fun id => if id = 0 then [0xF0, 0x9F] else [0x98, 0x80]) [0, 1] = ['😀'] := by decide
  refine ⟨outs, hrun, hdec ▸ heq.mpr fun i hi => ?_⟩
  unfold Whole
  obtain rfl | rfl : i = 0 ∨ i = 1 := by
    simp only [length_cons, length_nil] at hi
    omega
  · rw [if_pos (by decide)]
    decide
  · rw [if_neg (by decide), if_neg (by decide)]
    refine ⟨fun _ c hc => ?_, by decide⟩
    obtain rfl : '😀' = c := Option.some.inj hc
    decide

end

end Sequence

end DynaSpec.Router
