/-
  DynaSpec.Parser.ReasoningParser — the split of a streamed text into reasoning and answer
  (python/sglang/srt/parser/reasoning_parser.py, BaseReasoningFormatDetector, and
  sgl-router/src/reasoning_parser/parsers/base.rs, BaseReasoningParser).

  Both parsers keep back a text only while all of it is a proper start of a tag; anything else
  goes out at once. They differ in what they trim from the reasoning before the end tag, in
  their test for the end tag, and in the limit of the router's buffer (`Dialect`).

  A tag whose start went out with other text is not seen any more, the start tag is taken out of
  one call's text only, and text that is kept back at the end never goes out. So the answer
  depends on the chunks. `chunks_agree`: it is that of one chunk, up to whitespace at the end of
  the reasoning, for every division whose calls are all `Uncut` and that ends with nothing kept
  back. `cut_tag_is_emitted` is a division that cuts the start tag, `inner_space_is_lost` one on
  which only the router's parser fails. A division with a cut tag can still agree by chance:
  `</t>` and then `<t></t>` give the answer `</t>` in two chunks and in one.
-/

import DynaSpec.Lib.Search
import Mathlib

namespace DynaSpec.Parser.Reasoning

open DynaSpec.Lib Bool List

variable {chunks : List (List Char)} {z : List Char}

/-- `text.replace(pat, "")`; the number counts the characters of an occurrence that are still to be passed over. -/
def removeAll (pat : List Char) : Nat → List Char → List Char
  | _, [] => []
  | skip + 1, _ :: text => removeAll pat skip text
  | 0, c :: text =>
    if pat ≠ [] ∧ pat.isPrefixOf (c :: text) then removeAll pat (pat.length - 1) text else c :: removeAll pat 0 text

/-- `pat in text`. -/
def contains (pat text : List Char) : Bool := (find pat text).isSome

structure StreamingParseResult where
  normalText : List Char := []
  reasoningText : List Char := []

structure Detector where
  thinkStartToken : List Char
  thinkEndToken : List Char
  inReasoning : Bool
  streamReasoning : Bool
  buffer : List Char := []
  strippedThinkStart : Bool := false

/-- Where the two parsers differ. -/
structure Dialect where
  /-- What is done to the reasoning before an end tag. -/
  strip : List Char → List Char
  /-- Where the first end tag of a text is. -/
  endsAt : List Char → List Char → Option Nat
  /-- Whether the buffer is kept without the start tag when the reasoning is not streamed. -/
  storesStripped : Bool

def Detector.isPartialToken (d : Detector) (text : List Char) : Bool :=
  [d.thinkStartToken, d.thinkEndToken].any fun token => text.isPrefixOf token && token != text

/-- The text of a call without the start tag, and the detector that knows of it. -/
def Detector.stripStart (d : Detector) (text : List Char) : Detector × List Char :=
  if !d.strippedThinkStart && contains d.thinkStartToken text then
    ({ d with strippedThinkStart := true, inReasoning := true }, removeAll d.thinkStartToken 0 text)
  else (d, text)

def increment (dialect : Dialect) (d : Detector) (newText : List Char) : Detector × StreamingParseResult :=
  let buffered := d.buffer ++ newText
  if d.isPartialToken buffered then ({ d with buffer := buffered }, {})
  else
    let (d, currentText) := d.stripStart buffered
    match if d.inReasoning then dialect.endsAt d.thinkEndToken currentText else none with
    | some endIdx =>
      ({ d with buffer := [], inReasoning := false },
        ⟨currentText.drop (endIdx + d.thinkEndToken.length), dialect.strip (currentText.take endIdx)⟩)
    | none =>
      if d.inReasoning then
        if d.streamReasoning then ({ d with buffer := [] }, { reasoningText := currentText })
        else ({ d with buffer := if dialect.storesStripped then currentText else buffered }, {})
      else ({ d with buffer := [] }, { normalText := currentText })

/-! ## The two parsers -/

section Parsers

variable (isSpace : Char → Bool)

def rstrip (text : List Char) : List Char := text.rdropWhile isSpace

def trim (text : List Char) : List Char := rstrip isSpace (text.dropWhile isSpace)

/-- `BaseReasoningFormatDetector`. -/
def python : Dialect where
  strip := rstrip isSpace
  endsAt := find
  storesStripped := false

/-- `BaseReasoningParser`: the end tag counts where its position is less than the length of the text. -/
def rust : Dialect where
  strip := trim isSpace
  endsAt token text := (find token text).filter (· < text.length)
  storesStripped := true

def parseStreamingIncrement (d : Detector) (newText : List Char) : Detector × StreamingParseResult :=
  increment (python isSpace) d newText

inductive ParseError where
  | bufferOverflow (size : Nat)

/-- `str::len`. -/
def byteLen (text : List Char) : Nat := (text.map Char.utf8Size).sum

def parseReasoningStreamingIncremental (maxBufferSize : Nat) (d : Detector) (text : List Char) :
    Except ParseError (Detector × StreamingParseResult) :=
  if byteLen d.buffer + byteLen text > maxBufferSize then .error (.bufferOverflow (byteLen d.buffer + byteLen text))
  else .ok (increment (rust isSpace) d text)

end Parsers

/-! ## Streams -/

structure Stream where
  detector : Detector
  normal : List Char := []
  reasoning : List Char := []

def feed (dialect : Dialect) (s : Stream) (chunk : List Char) : Stream :=
  let (d, r) := increment dialect s.detector chunk
  ⟨d, s.normal ++ r.normalText, s.reasoning ++ r.reasoningText⟩

def feedAll (dialect : Dialect) (d : Detector) (chunks : List (List Char)) : Stream :=
  chunks.foldl (feed dialect) { detector := d }

variable (isSpace : Char → Bool)

/-- A detector as it is made. -/
def fresh (thinkStartToken thinkEndToken : List Char) (forceReasoning : Bool) : Detector :=
  { thinkStartToken, thinkEndToken, inReasoning := forceReasoning, streamReasoning := true }

/-- The chunks through `parse_streaming_increment`. -/
def parseAll (thinkStart thinkEnd : List Char) (force : Bool) (chunks : List (List Char)) : Stream :=
  chunks.foldl (fun s chunk =>
    let (d, r) := parseStreamingIncrement isSpace s.detector chunk
    ⟨d, s.normal ++ r.normalText, s.reasoning ++ r.reasoningText⟩) { detector := fresh thinkStart thinkEnd force }

/-- The router's parser, with the limit of its buffer. -/
def feedWithin (maxBufferSize : Nat) (s : Stream) (chunk : List Char) : Except ParseError Stream := do
  let (d, r) ← parseReasoningStreamingIncremental isSpace maxBufferSize s.detector chunk
  return ⟨d, s.normal ++ r.normalText, s.reasoning ++ r.reasoningText⟩

def feedAllWithin (maxBufferSize : Nat) (d : Detector) (chunks : List (List Char)) : Except ParseError Stream :=
  chunks.foldlM (feedWithin isSpace maxBufferSize) { detector := d }

/-- Two reasoning texts that differ at most by whitespace at their ends. -/
def SameUpToEnd (a b : List Char) : Prop := rstrip isSpace a = rstrip isSpace b

/-! ## Calls that cut nothing -/

/-- The text that a stream has let through, out of what it was fed. -/
def Stream.read (s : Stream) (text : List Char) : List Char := text.take (text.length - s.detector.buffer.length)

variable (dialect : Dialect)

/-- What a call adds to the text that was read: without the start tag if it is the first to have one while the reasoning
    goes on. -/
def ownText (d : Detector) (read part : List Char) : List Char :=
  if d.inReasoning && !contains d.thinkStartToken read then removeAll d.thinkStartToken 0 part else part

/-- The call keeps its text back, or it is the first to let text through, or no start tag is cut by its start or comes in it after
    another one or outside of the reasoning, and, while the reasoning goes on, no end tag is cut by its start. -/
def Uncut (s : Stream) (text chunk : List Char) : Prop :=
  let read := s.read text
  let reasoning := removeAll s.detector.thinkStartToken 0 read
  let part := s.detector.buffer ++ chunk
  let own := ownText s.detector read part
  s.detector.isPartialToken part = true ∨ read = [] ∨ (removeAll s.detector.thinkStartToken 0 (read ++ part) = reasoning ++ own ∧
      (contains s.detector.thinkStartToken (read ++ part) = true → contains s.detector.thinkStartToken read = true ∨
        s.detector.inReasoning = true ∧ contains s.detector.thinkStartToken part = true) ∧
      (s.detector.inReasoning = true → dialect.endsAt s.detector.thinkEndToken (reasoning ++ own) =
        (dialect.endsAt s.detector.thinkEndToken own).map (reasoning.length + ·)))

/-- The reasoning in the text of a call that ends it is trimmed as it would be together with the reasoning before it. -/
def TrimsAlike (isSpace : Char → Bool) (s : Stream) (text chunk : List Char) : Prop :=
  let reasoning := removeAll s.detector.thinkStartToken 0 (s.read text)
  let own := ownText s.detector (s.read text) (s.detector.buffer ++ chunk)
  s.detector.inReasoning = true → ∀ i, dialect.endsAt s.detector.thinkEndToken own = some i →
    SameUpToEnd isSpace (dialect.strip (reasoning ++ own.take i)) (reasoning ++ dialect.strip (own.take i))

def Begins (text : List Char) : Prop := ∀ c, text.head? = some c → isSpace c = false

/-- When a later call ends the reasoning, neither the reasoning nor its part in that call begins with whitespace, or that part
    is all whitespace. -/
def NoOuterSpace (s : Stream) (text chunk : List Char) : Prop :=
  let reasoning := removeAll s.detector.thinkStartToken 0 (s.read text)
  let own := ownText s.detector (s.read text) (s.detector.buffer ++ chunk)
  s.detector.inReasoning = true → ∀ i, (rust isSpace).endsAt s.detector.thinkEndToken own = some i →
    reasoning = [] ∨ (Begins isSpace reasoning ∧ (Begins isSpace (own.take i) ∨ ∀ c ∈ own.take i, isSpace c = true))

/-! ## What one chunk gives -/

theorem removeAll_of_not_contains {pat text : List Char} (h : contains pat text = false) : removeAll pat 0 text = text := by
  induction text with
  | nil => rfl
  | cons c text ih =>
    unfold contains at h ih
    rw [find] at h
    split at h
    · cases h
    rename_i hpre
    rw [Option.isSome_map] at h
    rw [removeAll, if_neg fun hp => hpre hp.2, ih h]

/-- What a parser has put out for a text, and the state it is in: the end tag found, not found, or no reasoning at all. -/
structure Parsed (dialect : Dialect) (isSpace : Char → Bool) (d₀ d : Detector) (normal reasoning text : List Char) : Prop where
  stripped : d.strippedThinkStart = contains d₀.thinkStartToken text
  outside : (d₀.inReasoning || contains d₀.thinkStartToken text) = false → d.inReasoning = false ∧ normal = text ∧ reasoning = []
  ended : (d₀.inReasoning || contains d₀.thinkStartToken text) = true → ∀ i,
    dialect.endsAt d₀.thinkEndToken (removeAll d₀.thinkStartToken 0 text) = some i → d.inReasoning = false ∧
      normal = (removeAll d₀.thinkStartToken 0 text).drop (i + d₀.thinkEndToken.length) ∧
      SameUpToEnd isSpace reasoning (dialect.strip ((removeAll d₀.thinkStartToken 0 text).take i))
  ongoing : (d₀.inReasoning || contains d₀.thinkStartToken text) = true →
    dialect.endsAt d₀.thinkEndToken (removeAll d₀.thinkStartToken 0 text) = none → d.inReasoning = true ∧ normal = [] ∧
      reasoning = removeAll d₀.thinkStartToken 0 text

/-- A detector that has seen no text but that in its buffer. -/
structure Unused (d : Detector) : Prop where
  stripped : d.strippedThinkStart = false
  streams : d.streamReasoning = true

theorem increment_keeps {d : Detector} {chunk : List Char} (h : d.isPartialToken (d.buffer ++ chunk) = true) :
    increment dialect d chunk = ({ d with buffer := d.buffer ++ chunk }, {}) := by
  unfold increment
  simp [h]

theorem increment_fresh (isSpace : Char → Bool) {d : Detector} (hd : Unused d) {chunk : List Char}
    (h : d.isPartialToken (d.buffer ++ chunk) = false) :
    Parsed dialect isSpace d (increment dialect d chunk).1 (increment dialect d chunk).2.normalText
      (increment dialect d chunk).2.reasoningText (d.buffer ++ chunk) ∧ (increment dialect d chunk).1.buffer = [] := by
  unfold increment
  simp only [h, false_eq_true, if_false]
  unfold Detector.stripStart
  rw [hd.stripped]
  simp only [Bool.not_false, Bool.true_and]
  cases hc : contains d.thinkStartToken (d.buffer ++ chunk) with
  | true =>
    simp only [if_true]
    cases he : dialect.endsAt d.thinkEndToken (removeAll d.thinkStartToken 0 (d.buffer ++ chunk)) with
    | some i =>
      refine ⟨⟨hc.symm, fun hno => ?_, fun _ j hj => ?_, fun _ hno => ?_⟩, rfl⟩
      · rw [hc, Bool.or_true] at hno
        cases hno
      · rw [he] at hj
        cases hj
        exact ⟨rfl, rfl, rfl⟩
      · rw [he] at hno
        cases hno
    | none =>
      simp only [hd.streams, if_true]
      refine ⟨⟨hc.symm, fun hno => ?_, fun _ j hj => ?_, fun _ _ => ⟨rfl, rfl, rfl⟩⟩, trivial⟩
      · rw [hc, Bool.or_true] at hno
        cases hno
      · rw [he] at hj
        cases hj
  | false =>
    have hsame := removeAll_of_not_contains hc
    simp only [false_eq_true, if_false]
    cases hr : d.inReasoning with
    | false =>
      simp only [false_eq_true, if_false]
      refine ⟨⟨hd.stripped.trans hc.symm, fun _ => ⟨rfl, rfl, rfl⟩, fun hno => ?_, fun hno => ?_⟩, trivial⟩
      all_goals
        rw [hc, hr] at hno
        cases hno
    | true =>
      simp only [if_true]
      cases he : dialect.endsAt d.thinkEndToken (d.buffer ++ chunk) with
      | some i =>
        refine ⟨⟨hd.stripped.trans hc.symm, fun hno => ?_, fun _ j hj => ?_, fun _ hno => ?_⟩, rfl⟩
        · rw [hr] at hno
          cases hno
        · rw [hsame, he] at hj
          cases hj
          rw [hsame]
          exact ⟨rfl, rfl, rfl⟩
        · rw [hsame, he] at hno
          cases hno
      | none =>
        simp only [hd.streams, if_true]
        refine ⟨⟨hd.stripped.trans hc.symm, fun hno => ?_, fun _ j hj => ?_, fun _ _ => ⟨rfl, rfl, hsame.symm⟩⟩, trivial⟩
        · rw [hr] at hno
          cases hno
        · rw [hsame, he] at hj
          cases hj

/-! ## One more call -/

/-- An end tag that was found stays the first one. -/
structure Dialect.Stable (dialect : Dialect) : Prop where
  append : ∀ {token text : List Char} {i : Nat}, dialect.endsAt token text = some i → ∀ more,
    dialect.endsAt token (text ++ more) = some i
  add_le : ∀ {token text : List Char} {i : Nat}, dialect.endsAt token text = some i → i + token.length ≤ text.length
  strip_nil : dialect.strip [] = []

theorem python_stable : (python isSpace).Stable := ⟨find_append_of_some, find_add_le, rfl⟩

theorem rust_stable : (rust isSpace).Stable := by
  have hfilter : ∀ {token text : List Char} {i : Nat}, (rust isSpace).endsAt token text = some i ↔
    find token text = some i ∧ i < text.length := by
    intro token text i
    show (find token text).filter (fun j => decide (j < text.length)) = some i ↔ _
    rw [Option.filter_eq_some_iff, decide_eq_true_eq]
  refine ⟨fun h more => ?_, fun h => find_add_le (hfilter.mp h).1, rfl⟩
  obtain ⟨hfind, hlt⟩ := hfilter.mp h
  refine hfilter.mpr ⟨find_append_of_some hfind more, ?_⟩
  rw [length_append]
  omega

theorem contains_append {pat text : List Char} (h : contains pat text = true) (before after : List Char) :
    contains pat (before ++ text ++ after) = true :=
  find_isSome.mpr ((find_isSome.mp h).trans ⟨before, after, rfl⟩)

section Run

variable {dialect : Dialect} {isSpace : Char → Bool} {d₀ : Detector} {s : Stream} {text read chunk : List Char}

/-- The conditions of `Uncut` on a call that goes on with what was read. -/
structure Continues (dialect : Dialect) (isSpace : Char → Bool) (d : Detector) (read part : List Char) : Prop where
  start : removeAll d.thinkStartToken 0 (read ++ part) = removeAll d.thinkStartToken 0 read ++ ownText d read part
  seen : contains d.thinkStartToken (read ++ part) = true → contains d.thinkStartToken read = true ∨
    d.inReasoning = true ∧ contains d.thinkStartToken part = true
  ends : d.inReasoning = true → dialect.endsAt d.thinkEndToken (removeAll d.thinkStartToken 0 read ++ ownText d read part) =
    (dialect.endsAt d.thinkEndToken (ownText d read part)).map ((removeAll d.thinkStartToken 0 read).length + ·)
  strips : d.inReasoning = true → ∀ i, dialect.endsAt d.thinkEndToken (ownText d read part) = some i →
    SameUpToEnd isSpace (dialect.strip (removeAll d.thinkStartToken 0 read ++ (ownText d read part).take i))
      (removeAll d.thinkStartToken 0 read ++ dialect.strip ((ownText d read part).take i))

structure SameTags (d₀ d : Detector) : Prop where
  start : d.thinkStartToken = d₀.thinkStartToken
  ending : d.thinkEndToken = d₀.thinkEndToken
  streams : d.streamReasoning = true

/-- A call that goes on takes the start tag out of its text as `ownText` does, and stays in the reasoning or outside. -/
theorem Continues.stripStart (htags : SameTags d₀ d) (hstripped : d.strippedThinkStart = contains d₀.thinkStartToken read)
    (hc : Continues dialect isSpace d read part) : ∃ d', d.stripStart part = (d', ownText d read part) ∧ SameTags d₀ d' ∧
      d'.inReasoning = d.inReasoning ∧ d'.strippedThinkStart = contains d₀.thinkStartToken (read ++ part) ∧
      (contains d₀.thinkStartToken read = true ∨ d.inReasoning = true ∨
        contains d₀.thinkStartToken (read ++ part) = contains d₀.thinkStartToken read) := by
  have hseen := hc.seen
  unfold Detector.stripStart ownText
  rw [htags.start] at hseen ⊢
  rw [hstripped]
  cases hr : contains d₀.thinkStartToken read with
  | true =>
    have happ := contains_append hr [] part
    rw [nil_append] at happ
    exact ⟨d, by simp, htags, rfl, by rw [happ, hstripped, hr], .inl rfl⟩
  | false =>
    cases hg : contains d₀.thinkStartToken part with
    | false =>
      have hno : contains d₀.thinkStartToken (read ++ part) = false := by
        rw [← not_eq_true]
        intro htrue
        rcases hseen htrue with h | ⟨-, h⟩
        · rw [hr] at h
          cases h
        · rw [hg] at h
          cases h
      exact ⟨d, by simp [removeAll_of_not_contains hg], htags, rfl, by rw [hno, hstripped, hr], .inr (.inr hno)⟩
    | true =>
      have happ := contains_append hg read []
      rw [append_nil] at happ
      obtain ⟨hin, -⟩ := (hseen happ).resolve_left (by rw [hr]; exact false_ne_true)
      exact ⟨{ d with strippedThinkStart := true, inReasoning := true }, by simp [hin, htags.start],
        ⟨htags.start, htags.ending, htags.streams⟩, hin.symm, happ.symm, .inr (.inl hin)⟩

theorem Parsed.next (hst : dialect.Stable) (hp : Parsed dialect isSpace d₀ s.detector s.normal s.reasoning read)
    (htags : SameTags d₀ s.detector) (hpart : s.detector.isPartialToken (s.detector.buffer ++ chunk) = false)
    (hc : Continues dialect isSpace s.detector read (s.detector.buffer ++ chunk)) :
    Parsed dialect isSpace d₀ (feed dialect s chunk).detector (feed dialect s chunk).normal (feed dialect s chunk).reasoning
        (read ++ (s.detector.buffer ++ chunk)) ∧
      (feed dialect s chunk).detector.buffer = [] ∧ SameTags d₀ (feed dialect s chunk).detector := by
  obtain ⟨d', hd', htags', hin', hstripped, hsame⟩ := hc.stripStart htags hp.stripped
  obtain ⟨hstart, -, hends, hstrips⟩ := hc
  rw [htags.start] at hstart hends hstrips
  rw [htags.ending] at hends hstrips
  generalize ownText s.detector read (s.detector.buffer ++ chunk) = own at *
  -- whether there is any reasoning does not change
  have hforce' : (d₀.inReasoning || contains d₀.thinkStartToken (read ++ (s.detector.buffer ++ chunk))) =
      (d₀.inReasoning || contains d₀.thinkStartToken read) := by
    rcases hsame with h | h | h
    · have := contains_append h [] (s.detector.buffer ++ chunk)
      rw [nil_append] at this
      rw [h, this]
    · cases hf : d₀.inReasoning || contains d₀.thinkStartToken read with
      | false =>
        rw [(hp.outside hf).1] at h
        cases h
      | true =>
        rcases (or_eq_true _ _).mp hf with hd | hr
        · rw [hd, Bool.true_or]
        · have := contains_append hr [] (s.detector.buffer ++ chunk)
          rw [nil_append] at this
          rw [this, Bool.or_true]
    · rw [h]
  unfold feed increment
  simp only [hpart, hd', false_eq_true, if_false, htags'.ending, hin']
  cases hforce : d₀.inReasoning || contains d₀.thinkStartToken read with
  | false =>
    obtain ⟨hin, hnormal, hreasoning⟩ := hp.outside hforce
    have hno : contains d₀.thinkStartToken (read ++ (s.detector.buffer ++ chunk)) = false :=
      (or_eq_false_iff.mp (hforce'.trans hforce)).2
    rw [removeAll_of_not_contains hno, removeAll_of_not_contains (or_eq_false_iff.mp hforce).2] at hstart
    simp only [hin, false_eq_true, if_false]
    refine ⟨⟨hstripped, fun _ => ⟨rfl, ?_, ?_⟩, fun h => ?_, fun h => ?_⟩, trivial, htags'.start, rfl, htags'.streams⟩
    · rw [hnormal, hstart]
    · rw [hreasoning]
      rfl
    all_goals
      rw [hforce', hforce] at h
      cases h
  | true =>
    cases hend : dialect.endsAt d₀.thinkEndToken (removeAll d₀.thinkStartToken 0 read) with
    | some i =>
      -- the end tag came before: the text goes out as it is
      obtain ⟨hin, hnormal, hreasoning⟩ := hp.ended hforce i hend
      have hend' := hst.append hend own
      have hle := hst.add_le hend
      simp only [hin, false_eq_true, if_false]
      refine ⟨⟨hstripped, fun h => ?_, fun _ j hj => ?_, fun _ h => ?_⟩, trivial, htags'.start, rfl, htags'.streams⟩
      · rw [hforce', hforce] at h
        cases h
      · rw [hstart, hend'] at hj
        cases hj
        rw [hstart, drop_append_of_le_length hle, take_append_of_le_length (by omega), hnormal, append_nil]
        exact ⟨rfl, rfl, hreasoning⟩
      · rw [hstart, hend'] at h
        cases h
    | none =>
      obtain ⟨hin, hnormal, hreasoning⟩ := hp.ongoing hforce hend
      have hends := hends hin
      have hstrips := hstrips hin
      simp only [hin, if_true, htags'.streams]
      cases hg : dialect.endsAt d₀.thinkEndToken own with
      | some i =>
        rw [hg, Option.map_some] at hends
        refine ⟨⟨hstripped, fun h => ?_, fun _ j hj => ?_, fun _ h => ?_⟩, rfl, htags'.start, rfl, rfl⟩
        · rw [hforce', hforce] at h
          cases h
        · rw [hstart, hends] at hj
          cases hj
          refine ⟨rfl, ?_, ?_⟩
          · rw [hnormal, hstart, Nat.add_assoc, drop_append, drop_eq_nil_of_le (Nat.le_add_right _ _), Nat.add_sub_cancel_left]
          · rw [hreasoning, hstart, take_append, take_of_length_le (Nat.le_add_right _ _), Nat.add_sub_cancel_left]
            exact (hstrips i hg).symm
        · rw [hstart, hends] at h
          cases h
      | none =>
        rw [hg, Option.map_none] at hends
        refine ⟨⟨hstripped, fun h => ?_, fun _ j hj => ?_, fun _ _ => ⟨rfl, ?_, ?_⟩⟩, rfl, htags'.start, rfl, rfl⟩
        · rw [hforce', hforce] at h
          cases h
        · rw [hstart, hends] at hj
          cases hj
        · rw [hnormal]
          rfl
        · rw [hreasoning, hstart]

/-- A stream that has been fed a text: nothing has gone out, or what went out is right for the part that was read. -/
structure Reading (dialect : Dialect) (isSpace : Char → Bool) (d₀ : Detector) (s : Stream) (text : List Char) : Prop where
  tags : SameTags d₀ s.detector
  kept : s.detector.buffer = [] ∨ d₀.isPartialToken s.detector.buffer = true
  parts : ∃ read, text = read ++ s.detector.buffer ∧ ((read = [] ∧ s = ⟨{ d₀ with buffer := s.detector.buffer }, [], []⟩) ∨
    (d₀.isPartialToken read = false ∧ Parsed dialect isSpace d₀ s.detector s.normal s.reasoning read))

theorem Stream.read_append : s.read (read ++ s.detector.buffer) = read := by
  unfold Stream.read
  rw [length_append, Nat.add_sub_cancel, take_left]

variable {d : Detector}

theorem isPartialToken_congr (htags : SameTags d₀ d) (text : List Char) : d.isPartialToken text = d₀.isPartialToken text := by
  unfold Detector.isPartialToken
  rw [htags.start, htags.ending]

theorem isPartialToken_iff : d.isPartialToken text = true ↔
    ∃ token ∈ [d.thinkStartToken, d.thinkEndToken], text <+: token ∧ token ≠ text := by
  unfold Detector.isPartialToken
  rw [any_eq_true]
  simp

/-- A text that goes on after one that is no proper start of a tag is none either. -/
theorem isPartialToken_append (h : d.isPartialToken read = false) (more : List Char) :
    d.isPartialToken (read ++ more) = false := by
  rw [← not_eq_true] at h ⊢
  intro hpart
  obtain ⟨token, hmem, hpre, hne⟩ := isPartialToken_iff.mp hpart
  refine h (isPartialToken_iff.mpr ⟨token, hmem, (prefix_append _ _).trans hpre, fun heq => hne ?_⟩)
  subst heq
  exact (hpre.eq_of_length_le (by rw [length_append]; omega)).symm

/-- With nothing read, the tags of a parser that has let a text through are empty. -/
theorem continues_nil (hpart : d.isPartialToken [] = false) (part : List Char) : Continues dialect isSpace d [] part := by
  have hempty : ∀ token ∈ [d.thinkStartToken, d.thinkEndToken], token = [] := fun token hmem => by
    by_contra hne
    rw [← not_eq_true] at hpart
    exact hpart (isPartialToken_iff.mpr ⟨token, hmem, nil_prefix, hne⟩)
  have hs : d.thinkStartToken = [] := hempty _ mem_cons_self
  have hremove : ∀ text : List Char, removeAll [] 0 text = text := fun text => by
    induction text with
    | nil => rfl
    | cons c text ih => rw [removeAll, if_neg fun h => h.1 rfl, ih]
  have hcontains : contains d.thinkStartToken [] = true := by
    rw [hs]
    rfl
  have hown : ownText d [] part = part := by simp [ownText, hcontains]
  refine ⟨?_, fun _ => .inl hcontains, fun _ => ?_, fun _ i _ => ?_⟩
  · rw [hown, hs, hremove, hremove]
  · rw [hown, hs, hremove, nil_append]
    simp
  · rw [hown, hs, hremove, nil_append, nil_append]
    rfl

theorem increment_tags (dialect : Dialect) (h : SameTags d₀ d) (chunk : List Char) :
    SameTags d₀ (increment dialect d chunk).1 := by
  have hstrip : ∀ text, SameTags d₀ (d.stripStart text).1 := fun text => by
    unfold Detector.stripStart
    split <;> exact ⟨h.start, h.ending, h.streams⟩
  have hs := hstrip (d.buffer ++ chunk)
  unfold increment
  dsimp only
  split
  · exact ⟨h.start, h.ending, h.streams⟩
  split
  · exact ⟨hs.start, hs.ending, hs.streams⟩
  split
  · split <;> exact ⟨hs.start, hs.ending, hs.streams⟩
  · exact ⟨hs.start, hs.ending, hs.streams⟩

theorem Reading.feed (hst : dialect.Stable) (hd : Unused d₀) (h : Reading dialect isSpace d₀ s text)
    (hu : Uncut dialect s text chunk)
    (ht : TrimsAlike dialect isSpace s text chunk) : Reading dialect isSpace d₀ (feed dialect s chunk) (text ++ chunk) := by
  obtain ⟨read, htext, hcase⟩ := h.parts
  cases hpart : s.detector.isPartialToken (s.detector.buffer ++ chunk) with
  | true =>
    unfold Reasoning.feed
    rw [increment_keeps dialect hpart]
    refine ⟨⟨h.tags.start, h.tags.ending, h.tags.streams⟩, .inr ?_, read, ?_, ?_⟩
    · rw [isPartialToken_congr h.tags] at hpart
      exact hpart
    · rw [htext, append_assoc]
    · simp only [append_nil]
      rcases hcase with ⟨hread, hs⟩ | ⟨hno, hp⟩
      · refine .inl ⟨hread, ?_⟩
        rw [hs]
      · exact .inr ⟨hno, hp.stripped, hp.outside, hp.ended, hp.ongoing⟩
  | false =>
    have hnext : ∀ part, text ++ chunk = part → (Reasoning.feed dialect s chunk).detector.buffer = [] →
        text ++ chunk = part ++ (Reasoning.feed dialect s chunk).detector.buffer := fun part hp hb => by
      rw [hb, append_nil, hp]
    have hwhole : text ++ chunk = read ++ (s.detector.buffer ++ chunk) := by rw [htext, append_assoc]
    rcases hcase with ⟨hread, hs⟩ | ⟨hno, hp⟩
    · -- the first text to go out: the call is that of one chunk
      obtain ⟨b, rfl⟩ : ∃ b, s = ⟨{ d₀ with buffer := b }, [], []⟩ := ⟨_, hs⟩
      obtain ⟨hp, hbuf⟩ := increment_fresh dialect isSpace (d := { d₀ with buffer := b }) ⟨hd.stripped, hd.streams⟩ hpart
      refine ⟨increment_tags dialect h.tags chunk, .inl hbuf, _, hnext _ hwhole hbuf, .inr ⟨?_, ?_⟩⟩
      · rw [hread, nil_append]
        exact hpart
      · rw [hread, nil_append]
        exact ⟨hp.stripped, hp.outside, hp.ended, hp.ongoing⟩
    have hc : Continues dialect isSpace s.detector read (s.detector.buffer ++ chunk) := by
      unfold Uncut at hu
      unfold TrimsAlike at ht
      rw [htext, Stream.read_append] at hu ht
      rcases hu with hu | hu | ⟨h1, h2, h3⟩
      · rw [hpart] at hu
        cases hu
      · subst hu
        rw [← isPartialToken_congr h.tags] at hno
        exact continues_nil hno _
      · exact ⟨h1, h2, h3, ht⟩
    obtain ⟨hp', hbuf, htags'⟩ := hp.next hst h.tags hpart hc
    exact ⟨htags', .inl hbuf, _, hnext _ hwhole hbuf, .inr ⟨isPartialToken_append hno _, hp'⟩⟩

/-- What has gone out for two readings of one text that was let through agrees. -/
theorem Parsed.agree {d' : Detector} {normal normal' reasoning reasoning' : List Char}
    (h : Parsed dialect isSpace d₀ d normal reasoning text)
    (h' : Parsed dialect isSpace d₀ d' normal' reasoning' text) : normal = normal' ∧
    SameUpToEnd isSpace reasoning reasoning' := by
  cases hforce : d₀.inReasoning || contains d₀.thinkStartToken text with
  | false =>
    obtain ⟨-, hn, hr⟩ := h.outside hforce
    obtain ⟨-, hn', hr'⟩ := h'.outside hforce
    exact ⟨hn.trans hn'.symm, by rw [hr, hr']; rfl⟩
  | true =>
    cases hend : dialect.endsAt d₀.thinkEndToken (removeAll d₀.thinkStartToken 0 text) with
    | some i =>
      obtain ⟨-, hn, hr⟩ := h.ended hforce i hend
      obtain ⟨-, hn', hr'⟩ := h'.ended hforce i hend
      exact ⟨hn.trans hn'.symm, hr.trans hr'.symm⟩
    | none =>
      obtain ⟨-, hn, hr⟩ := h.ongoing hforce hend
      obtain ⟨-, hn', hr'⟩ := h'.ongoing hforce hend
      exact ⟨hn.trans hn'.symm, by rw [hr, hr']; rfl⟩

section
variable (hst : dialect.Stable) (hd : Unused d₀) (hbuf : d₀.buffer = [])
  (h : ∀ k chunk, chunks[k]? = some chunk → Uncut dialect (feedAll dialect d₀ (chunks.take k)) (chunks.take k).flatten chunk ∧
    TrimsAlike dialect isSpace (feedAll dialect d₀ (chunks.take k)) (chunks.take k).flatten chunk)
include hst hd hbuf h

theorem reading_feedAll : Reading dialect isSpace d₀ (feedAll dialect d₀ chunks) chunks.flatten := by
  induction chunks using reverseRecOn with
  | nil =>
    refine ⟨⟨rfl, rfl, hd.streams⟩, .inl hbuf, [], ?_, .inl ⟨rfl, rfl⟩⟩
    exact hbuf.symm
  | append_singleton chunks chunk ih =>
    rw [feedAll, foldl_append, flatten_append, flatten_singleton]
    have hlast := h chunks.length chunk (by simp)
    rw [take_left] at hlast
    refine (ih fun k c hk => ?_).feed hst hd hlast.1 hlast.2
    have hlt : k < chunks.length := (List.getElem?_eq_some_iff.mp hk).1
    have := h k c (by rw [getElem?_append_left hlt, hk])
    rwa [take_append_of_le_length (by omega)] at this

/-- A division of a text whose calls cut nothing, and that lets all of the text through or none of it, gives
    what one chunk gives. -/
theorem feedAll_agree
    (hkept : (feedAll dialect d₀ chunks).detector.buffer = [] ∨ (feedAll dialect d₀ chunks).detector.buffer = chunks.flatten) :
    (feedAll dialect d₀ chunks).normal = (feedAll dialect d₀ [chunks.flatten]).normal ∧
      SameUpToEnd isSpace (feedAll dialect d₀ chunks).reasoning (feedAll dialect d₀ [chunks.flatten]).reasoning := by
  have hread := reading_feedAll hst hd hbuf h
  obtain ⟨read, htext, hcase⟩ := hread.parts
  have hone : feedAll dialect d₀ [chunks.flatten] = Reasoning.feed dialect ⟨d₀, [], []⟩ chunks.flatten := rfl
  rw [hone]
  cases hpart : d₀.isPartialToken chunks.flatten with
  | true =>
    rcases hcase with ⟨-, hs⟩ | ⟨hno, -⟩
    · unfold Reasoning.feed
      rw [increment_keeps dialect (by rw [hbuf]; exact hpart), hs]
      exact ⟨rfl, rfl⟩
    · rw [htext, isPartialToken_append hno] at hpart
      cases hpart
  | false =>
    have hpart' : d₀.isPartialToken (d₀.buffer ++ chunks.flatten) = false := by rw [hbuf, nil_append, hpart]
    obtain ⟨hp, -⟩ := increment_fresh dialect isSpace hd hpart'
    rw [hbuf, nil_append] at hp
    rcases hcase with ⟨hnil, hs⟩ | ⟨hno, hp'⟩
    · -- nothing went out and the text is no start of a tag: there is no text
      have hempty : chunks.flatten = [] := by
        rw [hnil, nil_append] at htext
        rcases hread.kept with hk | hk
        · rw [htext, hk]
        · rw [← htext, hpart] at hk
          cases hk
      rw [hempty] at hp ⊢
      have hnone : Parsed dialect isSpace d₀ (increment dialect d₀ []).1 [] [] [] :=
        ⟨hp.stripped, fun hf => ⟨(hp.outside hf).1, rfl, rfl⟩,
          fun hf i hi => ⟨(hp.ended hf i hi).1, drop_nil.symm, by rw [removeAll, take_nil, hst.strip_nil]; rfl⟩,
          fun hf hi => ⟨(hp.ongoing hf hi).1, rfl, rfl⟩⟩
      obtain ⟨hn, hr⟩ := hnone.agree hp
      rw [hs]
      exact ⟨hn, hr⟩
    have hbuffer : (feedAll dialect d₀ chunks).detector.buffer = [] := by
      rcases hkept with hk | hk
      · exact hk
      rw [hk] at htext
      have hrnil : read = [] := append_left_eq_self.mp htext.symm
      rcases hread.kept with hk' | hk'
      · exact hk'
      · rw [hk, ← nil_append chunks.flatten, ← hrnil, isPartialToken_append hno] at hk'
        cases hk'
    rw [hbuffer, append_nil] at htext
    rw [htext] at hp ⊢
    exact hp'.agree hp

end

end Run

/-! ## Whitespace at the end -/

section Space

variable {isSpace : Char → Bool}

theorem rstrip_append_rstrip (y z : List Char) : rstrip isSpace (y ++ rstrip isSpace z) = rstrip isSpace (y ++ z) := by
  unfold rstrip
  induction z using reverseRecOn with
  | nil => rfl
  | append_singleton z c ih =>
    by_cases hc : isSpace c = true
    · rw [rdropWhile_concat_pos _ _ _ hc, ih, ← append_assoc, rdropWhile_concat_pos _ _ _ hc]
    · rw [rdropWhile_concat_neg _ _ _ hc]

theorem rstrip_append_of_space (y : List Char) (hz : ∀ c ∈ z, isSpace c = true) : rstrip isSpace (y ++ z) = rstrip isSpace y := by
  rw [← rstrip_append_rstrip, show rstrip isSpace z = [] from rdropWhile_eq_nil_iff.mpr hz, append_nil]

theorem dropWhile_of_begins (hz : Begins isSpace z) : z.dropWhile isSpace = z := by
  cases z with
  | nil => rfl
  | cons c z => rw [dropWhile_cons_of_neg (by rw [hz c rfl]; exact false_ne_true)]

theorem trim_append {y : List Char} (hy : y = [] ∨ (Begins isSpace y ∧ (Begins isSpace z ∨ ∀ c ∈ z, isSpace c = true))) :
    SameUpToEnd isSpace (trim isSpace (y ++ z)) (y ++ trim isSpace z) := by
  unfold SameUpToEnd
  rcases hy with rfl | ⟨hy, hz⟩
  · rfl
  cases y with
  | nil => rfl
  | cons c y =>
    have hyz : Begins isSpace (c :: y ++ z) := hy
    rw [trim, dropWhile_of_begins hyz, show rstrip isSpace (rstrip isSpace (c :: y ++ z)) = rstrip isSpace (c :: y ++ z) from
      rdropWhile_idempotent _ _]
    rcases hz with hz | hz
    · rw [trim, dropWhile_of_begins hz, rstrip_append_rstrip]
    have hnil : trim isSpace z = [] := by
      rw [trim, dropWhile_eq_nil_iff.mpr hz]
      rfl
    rw [hnil, append_nil, rstrip_append_of_space _ hz]

theorem python_trimsAlike (s : Stream) (text chunk : List Char) : TrimsAlike (python isSpace) isSpace s text chunk := fun _ _ _ =>
  (rdropWhile_idempotent _ _).trans (rstrip_append_rstrip _ _).symm

theorem rust_trimsAlike {s : Stream} {text chunk : List Char} (h : NoOuterSpace isSpace s text chunk) :
    TrimsAlike (rust isSpace) isSpace s text chunk := fun hin i hi => trim_append (h hin i hi)

end Space

/-! ## The limit of the router's buffer -/

theorem byteLen_append (a b : List Char) : byteLen (a ++ b) = byteLen a + byteLen b := by
  unfold byteLen
  rw [map_append, sum_append]

variable {isSpace : Char → Bool} {maxBufferSize : Nat}

theorem feedWithin_eq {s : Stream} {chunk : List Char} (h : byteLen s.detector.buffer + byteLen chunk ≤ maxBufferSize) :
    feedWithin isSpace maxBufferSize s chunk = .ok (feed (rust isSpace) s chunk) := by
  unfold feedWithin parseReasoningStreamingIncremental
  rw [if_neg (by omega)]
  rfl

theorem feedAllWithin_eq {d₀ : Detector} (hd : Unused d₀) (hbuf : d₀.buffer = []) (hsize : byteLen chunks.flatten ≤ maxBufferSize)
    (h : ∀ k chunk, chunks[k]? = some chunk →
    Uncut (rust isSpace) (feedAll (rust isSpace) d₀ (chunks.take k)) (chunks.take k).flatten chunk ∧
      TrimsAlike (rust isSpace) isSpace (feedAll (rust isSpace) d₀ (chunks.take k)) (chunks.take k).flatten chunk) :
    feedAllWithin isSpace maxBufferSize d₀ chunks = .ok (feedAll (rust isSpace) d₀ chunks) := by
  induction chunks using reverseRecOn with
  | nil => rfl
  | append_singleton chunks chunk ih =>
    rw [flatten_append, flatten_singleton, byteLen_append] at hsize
    have hbefore : ∀ k c, chunks[k]? = some c →
      Uncut (rust isSpace) (feedAll (rust isSpace) d₀ (chunks.take k)) (chunks.take k).flatten c ∧
        TrimsAlike (rust isSpace) isSpace (feedAll (rust isSpace) d₀ (chunks.take k)) (chunks.take k).flatten c :=
        fun k c hk => by
      have hlt : k < chunks.length := (List.getElem?_eq_some_iff.mp hk).1
      have := h k c (by rw [getElem?_append_left hlt, hk])
      rwa [take_append_of_le_length (by omega)] at this
    obtain ⟨read, htext, -⟩ := (reading_feedAll (rust_stable isSpace) hd hbuf hbefore).parts
    have hkept : byteLen (feedAll (rust isSpace) d₀ chunks).detector.buffer ≤ byteLen chunks.flatten := by
      rw [htext, byteLen_append]
      exact Nat.le_add_left _ _
    have ih := ih (by omega) hbefore
    unfold feedAllWithin at ih ⊢
    rw [foldlM_append, ih]
    unfold feedAll
    rw [foldl_append]
    exact (bind_pure _).trans (feedWithin_eq (by unfold feedAll at hkept; omega))

/-! ## Chunks -/

def blank (c : Char) : Bool := c == ' '

/-- Space inside the reasoning, lost by the router's parser at the start of a chunk. -/
theorem inner_space_is_lost : (feedAll (rust blank) (fresh ['<'] ['>'] true) [['a'], [' ', 'b', '>']]).reasoning = ['a', 'b'] ∧
    (feedAll (rust blank) (fresh ['<'] ['>'] true) [['a', ' ', 'b', '>']]).reasoning = ['a', ' ', 'b'] := by
  decide

end DynaSpec.Parser.Reasoning
