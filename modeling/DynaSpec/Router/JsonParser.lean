/-
  DynaSpec.Router.JsonParser — finding a JSON value in a text
  (sgl-router/src/tool_parser/parsers/json.rs, extract_json_from_text).

  The scan knows quotes, escapes and a stack of brackets, and asks serde_json about what it has
  cut out; what serde_json accepts is left open. Positions count characters. Any text whose
  strings are closed and whose brackets outside strings match is `Nested`: that the stack is
  empty again only at the end of such a value needs no more of the grammar of JSON.
-/

import Mathlib.Data.List.Basic

namespace DynaSpec.Router.JsonParser

open List

structure Scan where
  inString : Bool := false
  escape : Bool := false
  /-- The last bracket that was opened is the first. -/
  stack : List Char := []
  start : Option Nat := none

variable (accepts : List Char → Bool) (text : List Char)

/-- The loop from position `i` on; `start` is known whenever the stack is not empty. -/
def scanFrom (s : Scan) (i : Nat) : List Char → Option (List Char × List Char)
  | [] => none
  | ch :: rest =>
    if s.escape then scanFrom { s with escape := false } (i + 1) rest
    else if ch = '\\' ∧ s.inString then scanFrom { s with escape := true } (i + 1) rest
    else if ch = '"' then scanFrom { s with inString := !s.inString } (i + 1) rest
    else if s.inString then scanFrom s (i + 1) rest
    else if ch = '{' ∨ ch = '[' then scanFrom { s with start := s.start <|> some i, stack := ch :: s.stack } (i + 1) rest
    else if ch = '}' ∨ ch = ']' then
      match s.stack with
      | [] => scanFrom { s with start := none } (i + 1) rest
      | opened :: stack =>
        if (opened = '{' ∧ ch = '}') ∨ (opened = '[' ∧ ch = ']') then
          if stack = [] then do
            let start ← s.start
            let potentialJson := (text.take (i + 1)).drop start
            if accepts potentialJson then some (potentialJson, text.take start ++ text.drop (i + 1))
            else scanFrom { s with start := none, stack } (i + 1) rest
          else scanFrom { s with stack } (i + 1) rest
        else scanFrom { s with start := none, stack := [] } (i + 1) rest
    else scanFrom s (i + 1) rest

def extractJsonFromText : Option (List Char × List Char) := scanFrom accepts text {} 0 text

/-! ## The text of a value -/

/-- What stands between the quotes of a string. -/
inductive StringBody : List Char → Prop
  | nil : StringBody []
  | char {c : Char} {w : List Char} : c ≠ '"' → c ≠ '\\' → StringBody w → StringBody (c :: w)
  | escape {c : Char} {w : List Char} : StringBody w → StringBody ('\\' :: c :: w)

/-- The closing bracket of an opening one. -/
def Pair (opened closed : Char) : Prop := (opened = '{' ∧ closed = '}') ∨ (opened = '[' ∧ closed = ']')

def Plain (c : Char) : Prop := c ≠ '"' ∧ (c ≠ '{' ∧ c ≠ '[') ∧ c ≠ '}' ∧ c ≠ ']'

/-- Numbers, words, commas, colons and blanks are plain. -/
inductive Nested : List Char → Prop
  | nil : Nested []
  | plain {l w : List Char} : (∀ c ∈ l, Plain c) → Nested w → Nested (l ++ w)
  | string {body w : List Char} : StringBody body → Nested w → Nested ('"' :: (body ++ '"' :: w))
  | bracket {opened closed : Char} {inner w : List Char} : Pair opened closed → Nested inner → Nested w →
    Nested (opened :: (inner ++ closed :: w))

/-- An object or an array. -/
inductive Value : List Char → Prop
  | mk {opened closed : Char} {inner : List Char} : Pair opened closed → Nested inner → Value (opened :: (inner ++ [closed]))

/-! ## The scan -/

variable {accepts text} {stack w rest : List Char} {start : Option Nat} {st i : Nat} {opened closed : Char}

theorem scanFrom_plain (h : ∀ c ∈ w, Plain c) : scanFrom accepts text ⟨false, false, stack, start⟩ i (w ++ rest) =
    scanFrom accepts text ⟨false, false, stack, start⟩ (i + w.length) rest := by
  induction w generalizing i with
  | nil => rfl
  | cons c w ih =>
    obtain ⟨hquote, hopen, hclose⟩ := h c mem_cons_self
    rw [cons_append, scanFrom]
    simp [hquote, hopen, hclose, ih fun c hc => h c (mem_cons_of_mem _ hc), Nat.add_assoc, Nat.add_comm 1]

theorem scanFrom_opened (h : Pair opened closed) : scanFrom accepts text ⟨false, false, stack, start⟩ i (opened :: rest) =
    scanFrom accepts text ⟨false, false, opened :: stack, start <|> some i⟩ (i + 1) rest := by
  rcases h with ⟨rfl, -⟩ | ⟨rfl, -⟩ <;> simp [scanFrom]

theorem scanFrom_closed (h : Pair opened closed) (hstack : stack ≠ []) :
    scanFrom accepts text ⟨false, false, opened :: stack, start⟩ i (closed :: rest) =
    scanFrom accepts text ⟨false, false, stack, start⟩ (i + 1) rest := by
  rcases h with ⟨rfl, rfl⟩ | ⟨rfl, rfl⟩ <;> simp [scanFrom, hstack]

theorem scanFrom_string (hw : StringBody w) : scanFrom accepts text ⟨true, false, stack, start⟩ i (w ++ '"' :: rest) =
    scanFrom accepts text ⟨false, false, stack, start⟩ (i + w.length + 1) rest := by
  induction hw generalizing i with
  | nil => simp [scanFrom]
  | char hq hb _ ih => simp [scanFrom, hq, hb, ih, Nat.add_comm 1, Nat.add_assoc]
  | escape _ ih => simp [scanFrom, ih, Nat.add_assoc, Nat.add_comm 2]

/-- Inside a bracket, a nested text leaves the stack as it is. -/
theorem scanFrom_nested (hw : Nested w) (hstack : stack ≠ []) :
    scanFrom accepts text ⟨false, false, stack, some st⟩ i (w ++ rest) =
    scanFrom accepts text ⟨false, false, stack, some st⟩ (i + w.length) rest := by
  induction hw generalizing stack i rest with
  | nil => rfl
  | plain hl _ ih => rw [append_assoc, scanFrom_plain hl, ih hstack, length_append, Nat.add_assoc]
  | string hbody _ ih =>
    have hquote : ∀ l, scanFrom accepts text ⟨false, false, stack, some st⟩ i ('"' :: l) =
        scanFrom accepts text ⟨true, false, stack, some st⟩ (i + 1) l := fun l => by simp [scanFrom]
    rw [cons_append, append_assoc, cons_append, hquote, scanFrom_string hbody, ih hstack]
    congr 1
    simp
    omega
  | bracket hp _ _ ih ihw =>
    rw [cons_append, append_assoc, cons_append, scanFrom_opened hp]
    change scanFrom accepts text ⟨false, false, _, some st⟩ _ _ = _
    rw [ih (cons_ne_nil _ _), scanFrom_closed hp hstack, ihw hstack]
    congr 1
    simp
    omega

/-- Only what serde_json accepts is returned. -/
theorem accepts_scanFrom {s : Scan} {r : List Char × List Char} (h : scanFrom accepts text s i w = some r) :
    accepts r.1 = true := by
  induction w generalizing s i with
  | nil => cases h
  | cons ch rest ih =>
    rw [scanFrom] at h
    repeat' split at h
    all_goals try exact ih h
    obtain ⟨st, -, h⟩ := Option.bind_eq_some_iff.mp h
    dsimp only at h
    split at h
    · rename_i hok
      cases h
      exact hok
    · exact ih h

/-- An object or array after plain text is found exactly if serde_json accepts it. -/
theorem extractJsonFromText_iff (accepts : List Char → Bool) (n1 n2 : List Char) {j : List Char} (h1 : ∀ c ∈ n1, Plain c)
    (hj : Value j) :
    extractJsonFromText accepts (n1 ++ j ++ n2) = some (j, n1 ++ n2) ↔ accepts j = true := by
  refine ⟨accepts_scanFrom, fun hok => ?_⟩
  cases hj with
  | @mk opened closed inner hp hinner =>
    have hscan : ∀ text, scanFrom accepts text {} 0 (n1 ++ opened :: (inner ++ [closed]) ++ n2) =
        scanFrom accepts text ⟨false, false, [opened], some n1.length⟩ (n1.length + 1 + inner.length) (closed :: n2) := by
      intro text
      rw [append_assoc, scanFrom_plain h1, cons_append, scanFrom_opened hp, append_assoc, Nat.zero_add]
      exact scanFrom_nested hinner (cons_ne_nil _ _)
    have hend : n1.length + 1 + inner.length + 1 = (n1 ++ opened :: (inner ++ [closed])).length := by
      simp
      omega
    have hjson : (n1 ++ opened :: (inner ++ [closed]) ++ n2).take _ = _ := take_left
    have hafter : (n1 ++ opened :: (inner ++ [closed]) ++ n2).drop _ = _ := drop_left
    have hbefore : (n1 ++ opened :: (inner ++ [closed]) ++ n2).take n1.length = n1 := by rw [append_assoc, take_left]
    rw [extractJsonFromText, hscan]
    rw [← hend] at hjson hafter
    generalize n1 ++ opened :: (inner ++ [closed]) ++ n2 = text at hjson hafter hbefore ⊢
    rcases hp with ⟨rfl, rfl⟩ | ⟨rfl, rfl⟩ <;> simp [scanFrom, hjson, hafter, hbefore, hok]

/-- An array of one string: the bracket in the string does not count. -/
theorem extractJsonFromText_iff_string :
    extractJsonFromText (· = ['[', '"', '}', '"', ']']) ['a', '[', '"', '}', '"', ']', 'b'] =
      some (['[', '"', '}', '"', ']'], ['a', 'b']) :=
  (extractJsonFromText_iff _ ['a'] ['b'] (by simp [Plain])
    (.mk (.inr ⟨rfl, rfl⟩) (.string (.char (by decide) (by decide) .nil) .nil))).mpr rfl

/-- serde_json's recursion limit, here for an array nested as deep. -/
theorem nested_array_skipped : extractJsonFromText (fun j => j.count '[' < 128) (replicate 128 '[' ++ replicate 128 ']') =
    none := by
  decide +kernel

end DynaSpec.Router.JsonParser
