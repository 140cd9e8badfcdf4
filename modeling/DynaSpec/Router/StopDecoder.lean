/-
  DynaSpec.Router.StopDecoder — the decoder that stops at stop sequences
  (sgl-router/src/tokenizer/stop.rs).

  The incremental decoder below it delivers a text for each token (`Delivery`). The decoder keeps
  back the longest end of the text that is a proper start of a stop sequence (`jailBuffer`). A
  text is the list of its characters, and positions count characters: `find` and `starts_with` of
  UTF-8 texts come to the same places on bytes and on characters.

  - `Held`: the text so far is what was emitted and what is held, no stop sequence occurs in
    it, and every end of it that a stop sequence may still grow from is held. Every step keeps
    it (`processToken_spec`), so that the sequences a piece completes are the ones that occur in
    the buffer.
  - `stop_listed_first`: of the hidden sequences that a piece completes the one that is listed
    first decides, wherever it begins: with the sequences "b", "a" the piece "ab" emits "a".
  - `stop_decoder_iff`: the decoder emits a start of the text, all of it when no stop sequence
    occurs, stops with the first piece that completes one and then emits nothing more; and what it
    emits ends where it should exactly when the hidden sequence that is listed first among those that
    occur is also the one to stop at.
-/

import DynaSpec.Lib.Search

namespace DynaSpec.Router.StopDecoder

open DynaSpec.Lib List Nat Option

inductive SequenceDecoderOutput where
  | text (s : List Char)
  | held
  | stopped
  | stoppedWithText (s : List Char)
  deriving DecidableEq

structure StopSequenceConfig where
  stopTokens : List Nat
  stopSequences : List (List Char)
  visibleStopTokens : List Nat
  visibleStopSequences : List (List Char)

structure StopSequenceDecoder where
  config : StopSequenceConfig
  jailBuffer : List Char
  stopped : Bool

/-- A token with what `Sequence::append_token` returns for it and its own decoding. -/
structure Delivery where
  tokenId : Nat
  newText : List Char
  ownText : List Char

def StopSequenceDecoder.new (config : StopSequenceConfig) : StopSequenceDecoder := ⟨config, [], false⟩

/-- The loop over the lengths of the ends of the buffer, from `len` down. -/
def partialMatch (jailBuffer stopSeq : List Char) (best : Option Nat) : Nat → Option Nat
  | 0 => best
  | len + 1 =>
    let suffixStart := jailBuffer.length - (len + 1)
    if (jailBuffer.drop suffixStart).isPrefixOf stopSeq && best.all fun current => decide (suffixStart < current)
      then some suffixStart
    else partialMatch jailBuffer stopSeq best len

/-- Where the longest end of the buffer that starts some stop sequence begins. -/
def bestSplitPos (jailBuffer : List Char) (stopSeqs : List (List Char)) : Option Nat :=
  stopSeqs.foldl (fun best stopSeq =>
    if stopSeq.length ≤ 1 ∨ jailBuffer.length = 0 then best
    else partialMatch jailBuffer stopSeq best (min jailBuffer.length (stopSeq.length - 1))) none

/-- The first sequence of the list that occurs in the buffer, with its position. -/
def findFirst (jailBuffer : List Char) : List (List Char) → Option (List Char × Nat)
  | [] => none
  | stopSeq :: stopSeqs =>
    match find stopSeq jailBuffer with
    | some pos => some (stopSeq, pos)
    | none => findFirst jailBuffer stopSeqs

def processToken (d : StopSequenceDecoder) (t : Delivery) : SequenceDecoderOutput × StopSequenceDecoder :=
  if d.stopped then (.stopped, d)
  else if t.tokenId ∈ d.config.stopTokens then
    (if d.jailBuffer = [] then .stopped else .stoppedWithText d.jailBuffer, { d with stopped := true, jailBuffer := [] })
  else if t.tokenId ∈ d.config.visibleStopTokens then
    (.stoppedWithText (d.jailBuffer ++ t.ownText), { d with stopped := true, jailBuffer := [] })
  else
    let jailBuffer := d.jailBuffer ++ t.newText
    match findFirst jailBuffer d.config.stopSequences with
    | some (_, pos) =>
      let output := jailBuffer.take pos
      (if output = [] then .stopped else .stoppedWithText output, { d with stopped := true, jailBuffer := [] })
    | none =>
      match findFirst jailBuffer d.config.visibleStopSequences with
      | some (stopSeq, pos) =>
        (.stoppedWithText (jailBuffer.take (pos + stopSeq.length)), { d with stopped := true, jailBuffer := [] })
      | none =>
        match bestSplitPos jailBuffer (d.config.stopSequences ++ d.config.visibleStopSequences) with
        | some splitPos =>
          let toOutput := jailBuffer.take splitPos
          (if toOutput = [] then .held else .text toOutput, { d with jailBuffer := jailBuffer.drop splitPos })
        | none => (if jailBuffer = [] then .held else .text jailBuffer, { d with jailBuffer := [] })

def processTokens (d : StopSequenceDecoder) : List Delivery → List SequenceDecoderOutput × StopSequenceDecoder
  | [] => ([], d)
  | t :: ts =>
    let (output, d) := processToken d t
    let (outputs, d) := processTokens d ts
    (output :: outputs, d)

def flush (d : StopSequenceDecoder) : SequenceDecoderOutput × StopSequenceDecoder :=
  (.text d.jailBuffer, { d with jailBuffer := [] })

/-! ## What is emitted -/

def SequenceDecoderOutput.emitted : SequenceDecoderOutput → List Char
  | .text s => s
  | .stoppedWithText s => s
  | .held => []
  | .stopped => []

/-- Nothing goes out where there is no text. -/
theorem emitted_ite {text : List Char} {o o' : SequenceDecoderOutput} (h : o.emitted = []) (h' : o'.emitted = text) :
    (if text = [] then o else o').emitted = text := by
  split
  · rename_i hnil
    rw [h, hnil]
  · exact h'

def SequenceDecoderOutput.stops : SequenceDecoderOutput → Bool
  | .stopped => true
  | .stoppedWithText _ => true
  | _ => false

open SequenceDecoderOutput (emitted stopped)

def StopSequenceConfig.all (c : StopSequenceConfig) : List (List Char) := c.stopSequences ++ c.visibleStopSequences

/-- Some stop sequence occurs in the text. -/
def Completes (c : StopSequenceConfig) (w : List Char) : Prop := ∃ p ∈ c.all, p <:+: w

/-- A stop sequence may still grow from the text. -/
def Starts (stopSeqs : List (List Char)) (u : List Char) : Prop := u ≠ [] ∧ ∃ p ∈ stopSeqs, u <+: p ∧ u.length < p.length

/-! ## The held end -/

theorem partialMatch_spec (jail p : List Char) (best : Option Nat) (len : Nat) (hlen : len ≤ jail.length) :
    (∃ i, partialMatch jail p best len = some i ∧ jail.length - len ≤ i ∧ i < jail.length ∧ jail.drop i <+: p ∧
      (∀ b, best = some b → i < b) ∧ ∀ j, jail.length - len ≤ j → j < i → ¬ jail.drop j <+: p) ∨
    (partialMatch jail p best len = best ∧ ∀ j, jail.length - len ≤ j → j < jail.length → jail.drop j <+: p → ∃ b,
      best = some b ∧ b ≤ j) := by
  induction len with
  | zero => exact .inr ⟨rfl, fun j hj hlt => by omega⟩
  | succ len ih =>
    unfold partialMatch
    by_cases hhit : ((jail.drop (jail.length - (len + 1))).isPrefixOf p &&
        best.all fun current => decide (jail.length - (len + 1) < current)) = true
    · rw [if_pos hhit]
      simp only [Bool.and_eq_true, isPrefixOf_iff_prefix] at hhit
      refine .inl ⟨_, rfl, le_refl _, by omega, hhit.1, fun b hb => ?_, fun j hj hlt => by omega⟩
      rw [hb] at hhit
      simpa using hhit.2
    rw [if_neg hhit]
    have hfirst : jail.drop (jail.length - (len + 1)) <+: p → ∃ b, best = some b ∧ b ≤ jail.length - (len + 1) := by
      intro hpre
      cases best with
      | none =>
        refine absurd ?_ hhit
        rw [ isPrefixOf_iff_prefix.mpr hpre]
        rfl
      | some b =>
        refine ⟨b, rfl, Nat.le_of_not_lt fun hlt => hhit ?_⟩
        rw [ isPrefixOf_iff_prefix.mpr hpre]
        simpa using hlt
    rcases ih (by omega) with ⟨i, hi, hlo, hhi, hpre, hbest, hleft⟩ | ⟨hrun, hall⟩
    · refine .inl ⟨i, hi, by omega, hhi, hpre, hbest, fun j hj hlt hjpre => ?_⟩
      rcases lt_or_ge j (jail.length - len) with hout | hin
      · obtain rfl : j = jail.length - (len + 1) := by omega
        obtain ⟨b, hb, hle⟩ := hfirst hjpre
        have := hbest b hb
        omega
      · exact hleft j hin hlt hjpre
    refine .inr ⟨hrun, fun j hj hlt hjpre => ?_⟩
    rcases lt_or_ge j (jail.length - len) with hout | hin
    · obtain rfl : j = jail.length - (len + 1) := by omega
      exact hfirst hjpre
    · exact hall j hin hlt hjpre

/-- The least position from which the buffer is a proper start of one of the sequences. -/
def IsBest (jail : List Char) (stopSeqs : List (List Char)) : Option Nat → Prop
  | some i => i < jail.length ∧ Starts stopSeqs (jail.drop i) ∧ ∀ j < i, ¬ Starts stopSeqs (jail.drop j)
  | none => ∀ j, ¬ Starts stopSeqs (jail.drop j)

variable {stopSeqs : List (List Char)}

theorem starts_snoc {p u : List Char} : Starts (stopSeqs ++ [p]) u ↔ Starts stopSeqs u ∨
    (u ≠ [] ∧ u <+: p ∧ u.length < p.length) := by
  unfold Starts
  simp only [mem_append, mem_singleton]
  constructor
  · intro h
    obtain ⟨hu, q, hq | rfl, hpre, hlt⟩ := h
    · exact .inl ⟨hu, q, hq, hpre, hlt⟩
    · exact .inr ⟨hu, hpre, hlt⟩
  · intro h
    rcases h with ⟨hu, q, hq, hpre, hlt⟩ | ⟨hu, hpre, hlt⟩
    · exact ⟨hu, q, .inl hq, hpre, hlt⟩
    · exact ⟨hu, p, .inr rfl, hpre, hlt⟩

theorem IsBest.step {jail p : List Char} {best : Option Nat} (h : IsBest jail stopSeqs best) :
    IsBest jail (stopSeqs ++ [p]) (if p.length ≤ 1 ∨ jail.length = 0 then best
      else partialMatch jail p best (min jail.length (p.length - 1))) := by
  split
  · rename_i hshort
    -- no end of the buffer is a proper start of `p`
    have hno : ∀ j, Starts (stopSeqs ++ [p]) (jail.drop j) ↔ Starts stopSeqs (jail.drop j) := by
      intro j
      rw [starts_snoc]
      refine or_iff_left fun hp => ?_
      have := length_pos_iff.mpr hp.1
      have := length_drop (i := j) (l := jail)
      omega
    cases best with
    | none => exact fun j => (hno j).not.mpr (h j)
    | some i => exact ⟨h.1, (hno i).mpr h.2.1, fun j hj => (hno j).not.mpr (h.2.2 j hj)⟩
  rename_i hlong
  generalize hlen : min jail.length (p.length - 1) = len
  have hproper : ∀ j, (jail.drop j ≠ [] ∧ jail.drop j <+: p ∧ (jail.drop j).length < p.length) ↔
      jail.length - len ≤ j ∧ j < jail.length ∧ jail.drop j <+: p := by
    intro j
    rw [← length_pos_iff, length_drop]
    constructor
    · intro hj
      exact ⟨by omega, by omega, hj.2.1⟩
    · intro hj
      exact ⟨by omega, hj.2.2, by omega⟩
  rcases partialMatch_spec jail p best len (by omega) with ⟨i, hi, hlo, hhi, hpre, hbest, hleft⟩ | ⟨hrun, hall⟩
  · rw [hi]
    refine ⟨hhi, starts_snoc.mpr (.inr ((hproper i).mpr ⟨hlo, hhi, hpre⟩)), fun j hj hs => ?_⟩
    rcases starts_snoc.mp hs with hs | hs
    · cases best with
      | none => exact h j hs
      | some b => exact h.2.2 j (by have := hbest b rfl; omega) hs
    · obtain ⟨hj1, hj2, hj3⟩ := (hproper j).mp hs
      exact hleft j hj1 hj hj3
  rw [hrun]
  cases best with
  | none =>
    intro j hs
    rcases starts_snoc.mp hs with hs | hs
    · exact h j hs
    obtain ⟨hj1, hj2, hj3⟩ := (hproper j).mp hs
    obtain ⟨b, hb, -⟩ := hall j hj1 hj2 hj3
    cases hb
  | some b =>
    refine ⟨h.1, starts_snoc.mpr (.inl h.2.1), fun j hj hs => ?_⟩
    rcases starts_snoc.mp hs with hs | hs
    · exact h.2.2 j hj hs
    obtain ⟨hj1, hj2, hj3⟩ := (hproper j).mp hs
    obtain ⟨b', hb', hle⟩ := hall j hj1 hj2 hj3
    cases hb'
    omega

theorem bestSplitPos_spec (jail : List Char) (stopSeqs : List (List Char)) :
    IsBest jail stopSeqs (bestSplitPos jail stopSeqs) := by
  suffices hfold : ∀ (rest done : List (List Char)) (best : Option Nat), IsBest jail done best → IsBest jail (done ++ rest)
      (rest.foldl (fun best stopSeq => if stopSeq.length ≤ 1 ∨ jail.length = 0 then best
        else partialMatch jail stopSeq best (min jail.length (stopSeq.length - 1))) best) from
    hfold stopSeqs [] none fun j hs => by simp [Starts] at hs
  intro rest
  induction rest with
  | nil =>
    intro done best h
    rw [append_nil]
    exact h
  | cons p rest ih =>
    intro done best h
    have := ih (done ++ [p]) _ h.step
    rwa [append_assoc] at this

/-! ## The invariant -/

/-- What was emitted and what is held make up the text, and what may still grow into a stop
    sequence is held. -/
structure Held (c : StopSequenceConfig) (w emitted jail : List Char) : Prop where
  text_eq : w = emitted ++ jail
  clean : ¬ Completes c w
  kept : ∀ i, Starts c.all (w.drop i) → emitted.length ≤ i

variable {c : StopSequenceConfig} {w x e jail : List Char}

theorem Completes.append (h : Completes c w) (x : List Char) : Completes c (w ++ x) := by
  obtain ⟨p, hp, hin⟩ := h
  exact ⟨p, hp, hin.trans (prefix_append w x).isInfix⟩

theorem Held.in_buffer (h : Held c w e jail) {p : List Char} (hp : p ∈ c.all) {i : Nat} (hocc : Occurs (w ++ x) p i) :
    e.length ≤ i := by
  have hlen := congrArg length h.text_eq
  rw [length_append] at hlen
  rcases hocc.append_cases with hin | ⟨hlt, hpre, hshort⟩ | hout
  · exact absurd ⟨p, hp, infix_iff_occurs.mpr ⟨i, hocc.of_append hin⟩⟩ h.clean
  · refine h.kept i ⟨?_, p, hp, hpre, hshort⟩
    rw [← length_pos_iff, length_drop]
    omega
  · omega

theorem findFirst_append {u v : List Char} {stopSeqs : List (List Char)}
    (h : ∀ p ∈ stopSeqs, ∀ i, Occurs (u ++ v) p i → u.length ≤ i) :
    findFirst (u ++ v) stopSeqs = (findFirst v stopSeqs).map fun r => (r.1, u.length + r.2) := by
  induction stopSeqs with
  | nil => rfl
  | cons p stopSeqs ih =>
    unfold findFirst
    rw [find_append (h p mem_cons_self)]
    cases find p v with
    | none => exact ih fun q hq => h q (mem_cons_of_mem p hq)
    | some i => rfl

theorem findFirst_some {q : List Char} {i : Nat} (h : findFirst w stopSeqs = some (q, i)) : q ∈ stopSeqs ∧ find q w = some i := by
  induction stopSeqs with
  | nil => cases h
  | cons p stopSeqs ih =>
    unfold findFirst at h
    split at h
    · rename_i pos hpos
      cases h
      exact ⟨mem_cons_self, hpos⟩
    · obtain ⟨hq, hi⟩ := ih h
      exact ⟨mem_cons_of_mem p hq, hi⟩

theorem findFirst_none : findFirst w stopSeqs = none ↔ ∀ p ∈ stopSeqs, ¬ p <:+: w := by
  induction stopSeqs with
  | nil => simp [findFirst]
  | cons p stopSeqs ih =>
    unfold findFirst
    split
    · rename_i pos hpos
      have hin : p <:+: w := infix_iff_occurs.mpr ⟨pos, (find_eq_some.mp hpos).1⟩
      exact ⟨nofun, fun h => absurd hin (h p mem_cons_self)⟩
    rename_i hnone
    rw [ih, forall_mem_cons]
    refine (and_iff_right fun hin => ?_).symm
    rw [← find_isSome, hnone] at hin
    cases hin

/-! ## One token -/

/-- How much of the text is emitted by a decoder that stops with it. -/
def cut (c : StopSequenceConfig) (w : List Char) : Nat :=
  match findFirst w c.stopSequences with
  | some (_, pos) => pos
  | none =>
    match findFirst w c.visibleStopSequences with
    | some (stopSeq, pos) => pos + stopSeq.length
    | none => w.length

theorem Held.next (h : Held c w e jail) (hclean : ¬ Completes c (w ++ x)) {k : Nat} (hk : k ≤ (jail ++ x).length)
    (hbest : ∀ j, Starts c.all ((jail ++ x).drop j) → k ≤ j) :
    Held c (w ++ x) (e ++ (jail ++ x).take k) ((jail ++ x).drop k) := by
  have htext : w ++ x = e ++ (jail ++ x) := by rw [h.text_eq, append_assoc]
  refine ⟨by rw [htext, append_assoc, take_append_drop], hclean, fun i hs => ?_⟩
  -- a start that begins before the piece was held
  have hin : e.length ≤ i := by
    obtain ⟨hne, p, hp, hpre, hlt⟩ := hs
    rcases lt_or_ge i w.length with hiw | hiw
    · rw [drop_append_of_le_length (by omega)] at hpre hlt
      refine h.kept i ⟨?_, p, hp, (prefix_append _ _).trans hpre, ?_⟩
      · rw [← length_pos_iff, length_drop]
        omega
      · rw [length_append] at hlt
        omega
    · have := congrArg length h.text_eq
      rw [length_append] at this
      omega
  obtain ⟨j, rfl⟩ := Nat.exists_eq_add_of_le hin
  rw [htext, drop_append, drop_eq_nil_of_le (Nat.le_add_right _ _), nil_append, Nat.add_sub_cancel_left] at hs
  have := hbest j hs
  rw [length_append, length_take]
  omega

/-- The token is delivered as a text. -/
def Delivery.Plain (c : StopSequenceConfig) (t : Delivery) : Prop := t.tokenId ∉ c.stopTokens ∧ t.tokenId ∉ c.visibleStopTokens

theorem completes_iff : Completes c w ↔ findFirst w c.stopSequences ≠ none ∨ findFirst w c.visibleStopSequences ≠ none := by
  unfold Completes StopSequenceConfig.all
  simp [findFirst_none, not_forall, or_and_right, exists_or]

/-- A plain token either stops the decoder at the cut or adds to the text. -/
inductive Outcome (c : StopSequenceConfig) (w e : List Char) : SequenceDecoderOutput × StopSequenceDecoder → Prop
  | stop {o : SequenceDecoderOutput} : Completes c w → o.stops = true → e ++ o.emitted = w.take (cut c w) →
    Outcome c w e (o, ⟨c, [], true⟩)
  | go {o : SequenceDecoderOutput} {jail : List Char} : o.stops = false → Held c w (e ++ o.emitted) jail →
    Outcome c w e (o, ⟨c, jail, false⟩)

theorem processToken_spec {t : Delivery} (ht : t.Plain c) (h : Held c w e jail) :
    Outcome c (w ++ t.newText) e (processToken ⟨c, jail, false⟩ t) := by
  set text := jail ++ t.newText
  have htext : w ++ t.newText = e ++ text := by rw [h.text_eq, append_assoc]
  have hfind : ∀ stopSeqs, (∀ p ∈ stopSeqs, p ∈ c.all) →
      findFirst (w ++ t.newText) stopSeqs = (findFirst text stopSeqs).map fun r => (r.1, e.length + r.2) := by
    intro stopSeqs hsub
    rw [htext]
    refine findFirst_append fun p hp i hocc => ?_
    rw [← htext] at hocc
    exact h.in_buffer (hsub p hp) hocc
  have hhidden := hfind c.stopSequences fun p hp => mem_append_left _ hp
  have hvisible := hfind c.visibleStopSequences fun p hp => mem_append_right _ hp
  have htake : ∀ k, e ++ text.take k = (w ++ t.newText).take (e.length + k) := by
    intro k
    rw [htext, take_length_add_append]
  simp only [processToken, Bool.false_eq_true, if_false, ht.1, ht.2]
  cases hh : findFirst text c.stopSequences with
  | some r =>
    obtain ⟨q, pos⟩ := r
    rw [hh, map_some] at hhidden
    refine Outcome.stop (completes_iff.mpr (.inl (by rw [hhidden]; simp))) (by split <;> rfl) ?_
    rw [emitted_ite, htake, cut, hhidden] <;> rfl
  | none =>
    rw [hh, map_none] at hhidden
    cases hv : findFirst text c.visibleStopSequences with
    | some r =>
      rw [hv, map_some] at hvisible
      refine Outcome.stop (completes_iff.mpr (.inr (by rw [hvisible]; simp))) rfl ?_
      simp only [emitted]
      rw [htake, cut, hhidden, hvisible]
      simp [Nat.add_assoc]
    | none =>
      rw [hv, map_none] at hvisible
      have hclean : ¬ Completes c (w ++ t.newText) := by
        rw [completes_iff, hhidden, hvisible]
        simp
      have hbest := bestSplitPos_spec text (c.stopSequences ++ c.visibleStopSequences)
      cases hb : bestSplitPos text (c.stopSequences ++ c.visibleStopSequences) with
      | some k =>
        rw [hb] at hbest
        refine Outcome.go (by split <;> rfl) ?_
        rw [emitted_ite] <;> try rfl
        exact h.next hclean (Nat.le_of_lt hbest.1) fun j hs => Nat.le_of_not_lt fun hlt => hbest.2.2 j hlt hs
      | none =>
        rw [hb] at hbest
        refine Outcome.go (by split <;> rfl) ?_
        rw [emitted_ite] <;> try rfl
        have := h.next hclean (le_refl _) fun j hs => absurd hs (hbest j)
        rwa [take_length, drop_length] at this

/-! ## A run -/

def textOf (ts : List Delivery) : List Char := ts.flatMap Delivery.newText

def emittedOf (os : List SequenceDecoderOutput) : List Char := os.flatMap emitted

/-- The piece at `k` is the first that completes a stop sequence. -/
def FirstCompletes (c : StopSequenceConfig) (w : List Char) (ts : List Delivery) (k : Nat) : Prop :=
  k < ts.length ∧ ¬ Completes c (w ++ textOf (ts.take k)) ∧ Completes c (w ++ textOf (ts.take (k + 1)))

theorem processTokens_stopped (ts : List Delivery) :
    processTokens ⟨c, [], true⟩ ts = (ts.map fun _ => .stopped, ⟨c, [], true⟩) := by
  induction ts with
  | nil => rfl
  | cons t ts ih => simp [processTokens, processToken, ih]

/-- What a run that is not stopped comes to. -/
theorem processTokens_clean {ts : List Delivery} {w e jail : List Char} (hplain : ∀ t ∈ ts, t.Plain c) (h : Held c w e jail)
    (hclean : ¬ Completes c (w ++ textOf ts)) :
    (∀ o ∈ (processTokens ⟨c, jail, false⟩ ts).1, o.stops = false) ∧ ∃ jail',
      (processTokens ⟨c, jail, false⟩ ts).2 = ⟨c, jail', false⟩ ∧
        Held c (w ++ textOf ts) (e ++ emittedOf (processTokens ⟨c, jail, false⟩ ts).1) jail' := by
  induction ts generalizing w e jail with
  | nil =>
    refine ⟨by simp [processTokens], jail, rfl, ?_⟩
    simpa [textOf, emittedOf, processTokens] using h
  | cons t ts ih =>
    have htext : w ++ textOf (t :: ts) = (w ++ t.newText) ++ textOf ts := by simp [textOf]
    rw [htext] at hclean
    have hout := processToken_spec (hplain t mem_cons_self) h
    simp only [processTokens]
    generalize processToken ⟨c, jail, false⟩ t = r at hout
    cases hout with
    | stop hc => exact absurd (hc.append _) hclean
    | @go o jail1 hstop hheld =>
      obtain ⟨hall, jail', hd, hheld'⟩ := ih (fun u hu => hplain u (mem_cons_of_mem t hu)) hheld hclean
      refine ⟨forall_mem_cons.mpr ⟨hstop, hall⟩, jail', hd, ?_⟩
      rw [htext, emittedOf, flatMap_cons, ← append_assoc]
      exact hheld'

/-- What a run comes to whose piece at `k` is the first that completes a stop sequence. -/
theorem processTokens_stops {ts : List Delivery} {w e jail : List Char} {k : Nat} (hplain : ∀ t ∈ ts, t.Plain c)
    (h : Held c w e jail) (hk : FirstCompletes c w ts k) :
    (∀ o ∈ (processTokens ⟨c, jail, false⟩ ts).1.take k, o.stops = false) ∧
      (∃ o, (processTokens ⟨c, jail, false⟩ ts).1[k]? = some o ∧ o.stops = true) ∧
      (∀ o ∈ (processTokens ⟨c, jail, false⟩ ts).1.drop (k + 1), o = .stopped) ∧
      (processTokens ⟨c, jail, false⟩ ts).2 = ⟨c, [], true⟩ ∧
      e ++ emittedOf (processTokens ⟨c, jail, false⟩ ts).1 = (w ++ textOf (ts.take (k + 1))).take
      (cut c (w ++ textOf (ts.take (k + 1)))) := by
  induction ts generalizing w e jail k with
  | nil =>
    exact absurd hk.1 (not_lt_zero k)
  | cons t ts ih =>
    obtain ⟨hlen, hbefore, hat⟩ := hk
    have hone : textOf ((t :: ts).take 1) = t.newText := by simp [textOf]
    have hout := processToken_spec (hplain t mem_cons_self) h
    simp only [processTokens]
    generalize processToken ⟨c, jail, false⟩ t = r at hout
    cases hout with
    | @stop o hc hstop hemit =>
      cases k with
      | zero =>
        have hnone : emittedOf (ts.map fun _ => stopped) = [] := by
          simp [emittedOf, emitted]
        simp only [processTokens_stopped]
        refine ⟨by simp, ⟨o, rfl, hstop⟩, ?_, trivial, ?_⟩
        · intro o' ho'
          simp only [Nat.zero_add, drop_succ_cons, drop_zero, List.mem_map] at ho'
          obtain ⟨-, -, rfl⟩ := ho'
          rfl
        · rw [Nat.zero_add, hone, emittedOf, flatMap_cons, ← emittedOf, hnone, append_nil]
          exact hemit
      | succ k =>
        refine absurd ?_ hbefore
        have : w ++ textOf ((t :: ts).take (k + 1)) = (w ++ t.newText) ++ textOf (ts.take k) := by simp [textOf]
        rw [this]
        exact hc.append _
    | @go o jail1 hstop hheld =>
      cases k with
      | zero =>
        rw [Nat.zero_add, hone] at hat
        exact absurd hat hheld.clean
      | succ k =>
        have htext : ∀ j, w ++ textOf ((t :: ts).take (j + 1)) = (w ++ t.newText) ++ textOf (ts.take j) := by
          intro j
          simp [textOf]
        rw [htext] at hbefore hat
        obtain ⟨h1, h2, h3, h4, h5⟩ := ih (fun u hu => hplain u (mem_cons_of_mem t hu)) hheld
          ⟨lt_of_succ_lt_succ hlen, hbefore, hat⟩
        refine ⟨?_, h2, h3, h4, ?_⟩
        · rw [take_succ_cons]
          exact forall_mem_cons.mpr ⟨hstop, h1⟩
        · rw [htext, emittedOf, flatMap_cons, ← append_assoc]
          exact h5

/-! ## Where the text should end -/

/-- The text ends just before the leftmost hidden sequence, or just after a visible one that
    occurs earlier. -/
def EndsRight (c : StopSequenceConfig) (w : List Char) (pos : Nat) : Prop :=
  ((∃ q ∈ c.stopSequences, Occurs w q pos) ∧ (∀ q ∈ c.stopSequences, ∀ j, Occurs w q j → pos ≤ j) ∧
    ∀ v ∈ c.visibleStopSequences, ∀ j, Occurs w v j → pos ≤ j) ∨
  ∃ v ∈ c.visibleStopSequences, ∃ j, Occurs w v j ∧ pos = j + v.length ∧ ∀ q ∈ c.stopSequences, ∀ k, Occurs w q k → j < k

/-- The hidden sequence that is listed first among those that occur in the text begins before the
    others and before every visible one, or right after a visible one that begins before every
    hidden one. -/
def ListedRight (c : StopSequenceConfig) (w : List Char) : Prop :=
  ∀ q pos, findFirst w c.stopSequences = some (q, pos) →
    ((∀ q' ∈ c.stopSequences, ∀ j, Occurs w q' j → pos ≤ j) ∧ ∀ v ∈ c.visibleStopSequences, ∀ j, Occurs w v j → pos ≤ j) ∨
    ∃ v ∈ c.visibleStopSequences, ∃ j, Occurs w v j ∧ pos = j + v.length ∧
      ∀ q' ∈ c.stopSequences, ∀ k, Occurs w q' k → j < k ∧ pos < k + q'.length

theorem cut_le (hne : ∀ p ∈ c.all, p ≠ []) : cut c w ≤ w.length := by
  unfold cut
  split
  · rename_i q pos hf
    obtain ⟨hq, hpos⟩ := findFirst_some hf
    have := (find_eq_some.mp hpos).1.add_le (hne q (mem_append_left _ hq))
    omega
  split
  · rename_i q pos hf
    obtain ⟨hq, hpos⟩ := findFirst_some hf
    exact (find_eq_some.mp hpos).1.add_le (hne q (mem_append_right _ hq))
  · exact le_refl _

theorem ends_right_iff (hne : ∀ p ∈ c.stopSequences, p ≠ []) (hc : Completes c w) :
    ((∀ q ∈ c.stopSequences, ¬ q <:+: w.take (cut c w)) ∧ EndsRight c w (cut c w)) ↔ ListedRight c w := by
  have hhidden : ∀ pos, (∀ q ∈ c.stopSequences, ¬ q <:+: w.take pos) ↔ ∀ q ∈ c.stopSequences, ∀ k, Occurs w q k →
    pos < k + q.length := by
    intro pos
    refine forall₂_congr fun q hq => ?_
    constructor
    · intro hno k hocc
      by_contra hle
      exact hno (infix_iff_occurs.mpr ⟨k, hocc.take (by omega)⟩)
    · intro hall hin
      obtain ⟨k, hocc⟩ := infix_iff_occurs.mp hin
      have hle := hocc.add_le (hne q hq)
      have := hall k hocc.of_take
      rw [length_take] at hle
      omega
  rw [hhidden]
  cases hf : findFirst w c.stopSequences with
  | some r =>
    obtain ⟨q, pos⟩ := r
    obtain ⟨hq, hpos⟩ := findFirst_some hf
    have hocc := (find_eq_some.mp hpos).1
    have hcut : cut c w = pos := by rw [cut, hf]
    rw [hcut]
    constructor
    · intro h q' pos' hf'
      rw [hf] at hf'
      cases hf'
      rcases h.2 with ⟨-, hfirst, hvis⟩ | ⟨v, hv, j, hvocc, hend, hbefore⟩
      · exact .inl ⟨hfirst, hvis⟩
      · exact .inr ⟨v, hv, j, hvocc, hend, fun q' hq' k hk => ⟨hbefore q' hq' k hk, h.1 q' hq' k hk⟩⟩
    · intro h
      rcases h q pos hf with ⟨hfirst, hvis⟩ | ⟨v, hv, j, hvocc, hend, hbefore⟩
      · refine ⟨fun q' hq' k hk => ?_, .inl ⟨⟨q, hq, hocc⟩, hfirst, hvis⟩⟩
        have := hfirst q' hq' k hk
        have := length_pos_iff.mpr (hne q' hq')
        omega
      · exact ⟨fun q' hq' k hk => (hbefore q' hq' k hk).2,
          .inr ⟨v, hv, j, hvocc, hend, fun q' hq' k hk => (hbefore q' hq' k hk).1⟩⟩
  | none =>
    have hnone : ∀ q ∈ c.stopSequences, ∀ k, ¬ Occurs w q k := fun q hq k hk =>
      findFirst_none.mp hf q hq (infix_iff_occurs.mpr ⟨k, hk⟩)
    have hlisted : ListedRight c w := fun q pos hf' => by
      rw [hf] at hf'
      cases hf'
    refine iff_of_true ⟨fun q hq k hk => absurd hk (hnone q hq k), .inr ?_⟩ hlisted
    cases hv : findFirst w c.visibleStopSequences with
    | none => exact absurd hc (by rw [completes_iff, hf, hv]; simp)
    | some r =>
      obtain ⟨v, pos⟩ := r
      obtain ⟨hvmem, hpos⟩ := findFirst_some hv
      refine ⟨v, hvmem, pos, (find_eq_some.mp hpos).1, by rw [cut, hf, hv], fun q hq k hk => absurd hk (hnone q hq k)⟩

/-! ## The decoder -/

/-- What the decoder is for: its outputs for a row of deliveries, with what a flush adds. -/
structure Faithful (c : StopSequenceConfig) (ts : List Delivery) (outputs : List SequenceDecoderOutput)
    (flushed : List Char) : Prop where
  start : emittedOf outputs ++ flushed <+: textOf ts
  whole : ¬ Completes c (textOf ts) → emittedOf outputs ++ flushed = textOf ts ∧ ∀ o ∈ outputs, o.stops = false
  stops : ∀ k, FirstCompletes c [] ts k → (∀ o ∈ outputs.take k, o.stops = false) ∧ (∃ o, outputs[k]? = some o ∧ o.stops = true) ∧
    (∀ o ∈ outputs.drop (k + 1), o = .stopped) ∧ flushed = [] ∧
    emittedOf outputs <+: textOf (ts.take (k + 1)) ∧ (∀ q ∈ c.stopSequences, ¬ q <:+: emittedOf outputs) ∧
    EndsRight c (textOf (ts.take (k + 1))) (emittedOf outputs).length

theorem textOf_take_isPrefix (ts : List Delivery) (k : Nat) : textOf (ts.take k) <+: textOf ts := by
  refine ⟨textOf (ts.drop k), ?_⟩
  rw [textOf, textOf, ← flatMap_append, take_append_drop, textOf]

/-- Some piece is the first that completes a stop sequence. -/
theorem exists_firstCompletes {ts : List Delivery} (hstart : ¬ Completes c []) (h : Completes c (textOf ts)) :
    ∃ k, FirstCompletes c [] ts k := by
  induction ts using reverseRecOn with
  | nil => exact absurd h hstart
  | append_singleton ts t ih =>
    by_cases hts : Completes c (textOf ts)
    · obtain ⟨k, hk, hbefore, hat⟩ := ih hts
      refine ⟨k, by simp; omega, ?_, ?_⟩
      · rwa [take_append_of_le_length (by omega)]
      · rwa [take_append_of_le_length (by omega)]
    · refine ⟨ts.length, by simp, by simpa using hts, ?_⟩
      rw [nil_append, take_of_length_le (by simp)]
      exact h

theorem held_new (hne : ∀ p ∈ c.all, p ≠ []) : Held c [] [] [] where
  text_eq := rfl
  clean h := by
    obtain ⟨p, hp, hin⟩ := h
    exact hne p hp (infix_nil.mp hin)
  kept i hs := zero_le i

/-- The decoder does what it is for exactly when, in the text up to the first piece that completes
    a stop sequence, the hidden sequence that is listed first is the one to stop at. -/
theorem stop_decoder_iff (c : StopSequenceConfig) (hne : ∀ p ∈ c.all, p ≠ []) (ts : List Delivery)
    (hplain : ∀ t ∈ ts, t.Plain c) :
    Faithful c ts (processTokens (.new c) ts).1 (flush (processTokens (.new c) ts).2).1.emitted ↔
      ∀ k, FirstCompletes c [] ts k → ListedRight c (textOf (ts.take (k + 1))) := by
  have hnew := held_new hne
  have hhid : ∀ p ∈ c.stopSequences, p ≠ [] := fun p hp => hne p (mem_append_left _ hp)
  change Faithful c ts (processTokens ⟨c, [], false⟩ ts).1 (flush (processTokens ⟨c, [], false⟩ ts).2).1.emitted ↔ _
  generalize hrun : processTokens ⟨c, [], false⟩ ts = r
  obtain ⟨outputs, d⟩ := r
  -- the outputs of a run that stops, by what the text is up to the piece
  have hstops : ∀ k, FirstCompletes c [] ts k → (∀ o ∈ outputs.take k, o.stops = false) ∧
    (∃ o, outputs[k]? = some o ∧ o.stops = true) ∧
      (∀ o ∈ outputs.drop (k + 1), o = .stopped) ∧ d = ⟨c, [], true⟩ ∧
      emittedOf outputs = (textOf (ts.take (k + 1))).take (cut c (textOf (ts.take (k + 1)))) := by
    intro k hk
    have := processTokens_stops hplain hnew hk
    rwa [hrun] at this
  have hlen : ∀ k, FirstCompletes c [] ts k → (emittedOf outputs).length = cut c (textOf (ts.take (k + 1))) := by
    intro k hk
    rw [(hstops k hk).2.2.2.2, length_take]
    exact min_eq_left (cut_le hne)
  constructor
  · intro h k hk
    obtain ⟨-, -, -, -, -, hhidden, hends⟩ := h.stops k hk
    rw [hlen k hk] at hends
    rw [(hstops k hk).2.2.2.2] at hhidden
    exact (ends_right_iff hhid hk.2.2).mp ⟨hhidden, hends⟩
  intro h
  have hwhole : ¬ Completes c (textOf ts) → emittedOf outputs ++ (flush d).1.emitted = textOf ts ∧ ∀ o ∈ outputs,
    o.stops = false := by
    intro hc
    obtain ⟨hall, jail, hd, hheld⟩ := processTokens_clean hplain hnew hc
    rw [hrun] at hall hd hheld
    change d = ⟨c, jail, false⟩ at hd
    refine ⟨?_, hall⟩
    rw [hd]
    exact hheld.text_eq.symm
  refine ⟨?_, hwhole, fun k hk => ?_⟩
  · by_cases hc : Completes c (textOf ts)
    · obtain ⟨k, hk⟩ := exists_firstCompletes hnew.clean hc
      obtain ⟨-, -, -, hd, hemit⟩ := hstops k hk
      have hflush : (flush d).1.emitted = [] := by rw [hd]; rfl
      rw [hflush, append_nil, hemit]
      exact ( take_prefix _ _).trans (textOf_take_isPrefix ts _)
    · rw [(hwhole hc).1]
  obtain ⟨hbefore, hat, hafter, hd, hemit⟩ := hstops k hk
  obtain ⟨hhidden, hends⟩ := (ends_right_iff hhid hk.2.2).mpr (h k hk)
  refine ⟨hbefore, hat, hafter, by rw [hd]; rfl, ?_, ?_, ?_⟩
  · rw [hemit]
    exact take_prefix _ _
  · rw [hemit]
    exact hhidden
  · rw [hlen k hk]
    exact hends

/-- The sequences "b" and "a" are hidden and the piece "ab" completes both. -/
theorem stop_listed_first : ∃ (c : StopSequenceConfig) (t : Delivery), (∀ p ∈ c.all, p ≠ []) ∧ t.Plain c ∧
    FirstCompletes c [] [t] 0 ∧ emittedOf (processTokens (.new c) [t]).1 = ['a'] ∧ ['a'] ∈ c.stopSequences ∧
    ¬ Faithful c [t] (processTokens (.new c) [t]).1 (flush (processTokens (.new c) [t]).2).1.emitted := by
  refine ⟨⟨[], [['b'], ['a']], [], []⟩, ⟨0, ['a', 'b'], ['a', 'b']⟩, by decide, ⟨by decide, by decide⟩, ?_, by decide,
    by decide, fun h => ?_⟩
  · refine ⟨by decide, ?_, ['a'], by decide, by decide⟩
    rw [completes_iff]
    decide
  · have hk : FirstCompletes ⟨[], [['b'], ['a']], [], []⟩ [] [⟨0, ['a', 'b'], ['a', 'b']⟩] 0 := by
      refine ⟨by decide, ?_, ['a'], by decide, by decide⟩
      rw [completes_iff]
      decide
    exact (h.stops 0 hk).2.2.2.2.2.1 ['a'] (by decide) (by decide)

/-- With "a" listed first the decoder emits nothing of the piece. -/
theorem stop_decoder_sorted : Faithful ⟨[], [['a'], ['b']], [], []⟩ [⟨0, ['a', 'b'], ['a', 'b']⟩]
    (processTokens (.new ⟨[], [['a'], ['b']], [], []⟩) [⟨0, ['a', 'b'], ['a', 'b']⟩]).1
    (flush (processTokens (.new ⟨[], [['a'], ['b']], [], []⟩) [⟨0, ['a', 'b'], ['a', 'b']⟩]).2).1.emitted := by
  refine (stop_decoder_iff _ (by decide) _ (by simp [Delivery.Plain])).mpr fun k hk q pos hf => ?_
  obtain rfl : k = 0 := by have := hk.1; simpa using this
  cases hf
  exact .inl ⟨fun _ _ j _ => zero_le j, fun _ _ j _ => zero_le j⟩

end DynaSpec.Router.StopDecoder
