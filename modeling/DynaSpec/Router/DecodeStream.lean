/-
  DynaSpec.Router.DecodeStream — streaming detokenization (sgl-router/src/tokenizer/stream.rs).

  The tokenizer is byte-level, as in `Sequence`; a special token that is skipped has no bytes.
  `none` is a panic of a slice. A chunk is returned only when the new text does not end with
  U+FFFD, so the bytes that are read end where a character does and decode apart from all that
  follow: the chunks and the flush are the decoding of all generated bytes
  (`stepBatch_flush_lossless`).
-/

import DynaSpec.Router.Sequence

namespace DynaSpec.Router

open DynaSpec.Lib.Utf8 List Nat

structure DecodeStream where
  allTokenIds : List Nat
  prefixOffset : Nat
  readOffset : Nat

namespace DecodeStream

open Sequence (decode endsWithReplacement)

def initialIncrementalDetokenizationOffset : Nat := 5

def new (promptTokenIds : List Nat) : DecodeStream :=
  ⟨promptTokenIds, promptTokenIds.length - initialIncrementalDetokenizationOffset, promptTokenIds.length⟩

variable (bytes : Nat → List Nat) (s : DecodeStream)

def step (id : Nat) : Option (Option (List Char) × DecodeStream) :=
  let s := { s with allTokenIds := s.allTokenIds ++ [id] }
  if s.prefixOffset ≤ s.readOffset ∧ s.readOffset ≤ s.allTokenIds.length then
    let prefixText := decode bytes ((s.allTokenIds.take s.readOffset).drop s.prefixOffset)
    let newText := decode bytes (s.allTokenIds.drop s.prefixOffset)
    if size prefixText < size newText ∧ endsWithReplacement newText = false then
      (sliceFrom newText (size prefixText)).map fun newText =>
        (some newText, { s with prefixOffset := s.readOffset, readOffset := s.allTokenIds.length })
    else some (none, s)
  else none

def stepBatch : DecodeStream → List Nat → Option (List (List Char) × DecodeStream)
  | s, [] => some ([], s)
  | s, id :: ids => do
    let (chunk, s) ← step bytes s id
    let (chunks, s) ← stepBatch s ids
    return (chunk.toList ++ chunks, s)

def flush : Option (List Char) × DecodeStream :=
  if s.readOffset < s.allTokenIds.length then
    let remaining := decode bytes (s.allTokenIds.drop s.readOffset)
    (if remaining.isEmpty then none else some remaining, { s with readOffset := s.allTokenIds.length })
  else (none, s)

/-! ## One token -/

/-- The tokens that were read and are decoded once more, before those that are held. -/
def window : List Nat := (s.allTokenIds.take s.readOffset).drop s.prefixOffset

def held : List Nat := s.allTokenIds.drop s.readOffset

structure Ready : Prop where
  le : s.prefixOffset ≤ s.readOffset
  read : s.readOffset ≤ s.allTokenIds.length
  apart : ∀ rest, lossy ((window s).flatMap bytes ++ rest) = decode bytes (window s) ++ lossy rest

variable {bytes s}

theorem step_spec (h : Ready bytes s) (id : Nat) : ∃ chunk s', step bytes s id = some (chunk, s') ∧ Ready bytes s' ∧
    ∀ rest, chunk.toList.flatten ++ lossy ((held s').flatMap bytes ++ rest) = lossy ((held s ++ [id]).flatMap bytes ++ rest) := by
  obtain ⟨hle, hread, hapart⟩ := h
  have hwindow : ((s.allTokenIds ++ [id]).take s.readOffset).drop s.prefixOffset = window s := by
    rw [take_append_of_le_length hread]
    rfl
  have hheld : (s.allTokenIds ++ [id]).drop s.readOffset = held s ++ [id] := drop_append_of_le_length hread
  have hall : (s.allTokenIds ++ [id]).drop s.prefixOffset = window s ++ (held s ++ [id]) := by
    rw [← hheld, ← hwindow, ← drop_append_of_le_length (by simp; omega), take_append_drop]
  have hnew : decode bytes (window s ++ (held s ++ [id])) = decode bytes (window s) ++ decode bytes (held s ++ [id]) := by
    rw [decode, flatMap_append, hapart]
    rfl
  unfold step
  simp only [hwindow, hall, hnew, length_append, length_singleton]
  rw [if_pos ⟨hle, by omega⟩]
  split
  · rename_i hemit
    rw [sliceFrom_size]
    -- the new text ends with a character, so the bytes that were held do
    have hread' : ∀ rest, lossy ((held s ++ [id]).flatMap bytes ++ rest) = decode bytes (held s ++ [id]) ++ lossy rest := by
      intro rest
      refine (lossy_append_or _ rest).resolve_right fun hcut => ?_
      have hlast : (decode bytes (held s ++ [id])).getLast? = some replacement := hcut.2
      have := hemit.2
      rw [endsWithReplacement, getLast?_append, hlast] at this
      simp at this
    refine ⟨_, _, rfl, ⟨by simpa using by omega, by simp, fun rest => ?_⟩, fun rest => ?_⟩
    · rw [window, take_of_length_le (by simp), hheld, hread']
    · rw [hread']
      simp [held]
  · refine ⟨_, _, rfl, ⟨hle, by simp; omega, ?_⟩, fun rest => ?_⟩
    · intro rest
      rw [window, hwindow, hapart]
    · rw [held, hheld]
      rfl

theorem stepBatch_spec (h : Ready bytes s) (ids : List Nat) : ∃ chunks s', stepBatch bytes s ids = some (chunks, s') ∧
    chunks.flatten ++ decode bytes (held s') = decode bytes (held s ++ ids) := by
  induction ids generalizing s with
  | nil => exact ⟨[], s, rfl, by rw [append_nil]; rfl⟩
  | cons id ids ih =>
    obtain ⟨chunk, s1, hstep, h1, htext⟩ := step_spec h id
    obtain ⟨chunks, s', hbatch, hrest⟩ := ih h1
    refine ⟨chunk.toList ++ chunks, s', by simp [stepBatch, hstep, hbatch], ?_⟩
    rw [flatten_append, append_assoc, hrest, decode, flatMap_append, htext, ← flatMap_append, append_assoc]
    rfl

theorem flush_text : (flush bytes s).1.getD [] = decode bytes (held s) := by
  unfold flush
  split
  · dsimp only
    split
    · rename_i hempty
      exact (isEmpty_iff.mp hempty).symm
    · rfl
  · rw [held, drop_of_length_le (by omega)]
    rfl

theorem ready_new {promptTokenIds : List Nat} (h : endsAtBoundary (promptTokenIds.flatMap bytes) = true) :
    Ready bytes (new promptTokenIds) := by
  refine ⟨sub_le _ _, le_refl _, fun rest => lossy_append_of_boundary h ?_ rest⟩
  unfold window
  rw [new, take_length]
  refine ⟨(promptTokenIds.take (promptTokenIds.length - initialIncrementalDetokenizationOffset)).flatMap bytes, ?_⟩
  rw [← flatMap_append, take_append_drop]

theorem stepBatch_flush_lossless (bytes : Nat → List Nat) (promptTokenIds ids : List Nat)
    (h : endsAtBoundary (promptTokenIds.flatMap bytes) = true) : ∃ chunks s, stepBatch bytes (new promptTokenIds) ids =
    some (chunks, s) ∧
      chunks.flatten ++ (flush bytes s).1.getD [] = lossy (ids.flatMap bytes) := by
  obtain ⟨chunks, s, hbatch, htext⟩ := stepBatch_spec (ready_new h) ids
  refine ⟨chunks, s, hbatch, ?_⟩
  rw [flush_text, htext, held, new, drop_length]
  rfl

/-- A prompt whose window begins inside a character, and a character that two tokens share. -/
theorem stepBatch_flush_lossless_split : ∃ chunks s,
    stepBatch (fun t => [t]) (new [0xE2, 0x82, 0xAC, 0x61, 0x61, 0x61]) [0xC3, 0xA9, 0xFF] = some (chunks, s) ∧
      chunks.flatten ++ (flush (fun t => [t]) s).1.getD [] = lossy [0xC3, 0xA9, 0xFF] :=
  stepBatch_flush_lossless (fun t => [t]) [0xE2, 0x82, 0xAC, 0x61, 0x61, 0x61] [0xC3, 0xA9, 0xFF] (by decide)

end DecodeStream

end DynaSpec.Router
