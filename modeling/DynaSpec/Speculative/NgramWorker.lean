/-
  DynaSpec.Speculative.NgramWorker — the insert worker of the n-gram cache and its callers
  (ngram.cpp: `asyncInsert`, `synchronize`, `batchMatch`, the loop of `insert`; queue.h).

  The steps of the callers and of the worker interleave in any order. The worker takes an
  item off the queue, then takes the lock, inserts all branches of the item and releases the
  lock; `synchronize` returns when it sees the queue empty; `batchMatch` takes the lock.

  The queue is empty as soon as the worker has taken the last item, before that item is
  inserted. So a match after `synchronize` finds everything inserted that was enqueued before
  it unless the worker still holds such an item (`synchronize_barrier_iff`), which it can
  (`synchronize_misses`).
-/

import DynaSpec.Speculative.NgramTrie

namespace DynaSpec.Speculative.Ngram

open DynaSpec.Lib Option List Trie

variable {e : Event} {start : Trie}

inductive Worker where
  | idle
  /-- An item has been taken off the queue. -/
  | dequeued (data : List Token)
  /-- The item is in the trie; the lock is still held. -/
  | inserted
  deriving DecidableEq

/-- `done` are the items inserted so far, which only the statements read. -/
structure System where
  insertQueue : List (List Token) := []
  worker : Worker := .idle
  trie : Trie
  done : List (List Token) := []

inductive Event where
  /-- `asyncInsert` puts one of its sequences on the queue. -/
  | enqueue (data : List Token)
  /-- The loop of `synchronize` sees the queue empty. -/
  | synchronize
  /-- `batchMatch` takes the lock and reads the trie. -/
  | batchMatch
  | dequeue
  | insert
  | unlock

namespace System

/-- A step, `none` where it cannot be taken. -/
def exec (p : Param) (s : System) : Event → Option System
  | .enqueue data => some { s with insertQueue := s.insertQueue ++ [data] }
  | .synchronize => if s.insertQueue = [] then some s else none
  | .batchMatch => if s.worker = .inserted then none else some s
  | .dequeue =>
    match s.worker, s.insertQueue with
    | .idle, data :: queue => some { s with insertQueue := queue, worker := .dequeued data }
    | _, _ => none
  | .insert =>
    match s.worker with
    | .dequeued data =>
      match s.trie.insert p data with
      | .ok trie => some { s with trie := trie, worker := .inserted, done := s.done ++ [data] }
      | .error _ => none
    | _ => none
  | .unlock => if s.worker = .inserted then some { s with worker := .idle } else none

def run (p : Param) (s : System) (events : List Event) : Option System := events.foldlM (exec p) s

/-- What `asyncInsert` has put on the queue. -/
def items : List Event → List (List Token)
  | [] => []
  | .enqueue data :: events => data :: items events
  | _ :: events => items events

def held : Worker → List (List Token)
  | .dequeued data => [data]
  | _ => []

variable {p : Param} {s s' : System}

theorem items_append (es es' : List Event) : items (es ++ es') = items es ++ items es' := by
  induction es with
  | nil => rfl
  | cons e es ih => cases e <;> simp [items, ih]

/-- What a step can do. -/
theorem exec_cases (hs : s.exec p e = some s') :
    (∃ data, e = .enqueue data ∧ s' = { s with insertQueue := s.insertQueue ++ [data] }) ∨
    (e = .synchronize ∧ s.insertQueue = [] ∧ s' = s) ∨ (e = .batchMatch ∧ s.worker ≠ .inserted ∧ s' = s) ∨
    (∃ data queue, e = .dequeue ∧ s.worker = .idle ∧ s.insertQueue = data :: queue ∧
      s' = { s with insertQueue := queue, worker := .dequeued data }) ∨
    (∃ data trie, e = .insert ∧ s.worker = .dequeued data ∧ s.trie.insert p data = .ok trie ∧
      s' = { s with trie := trie, worker := .inserted, done := s.done ++ [data] }) ∨
    (e = .unlock ∧ s.worker = .inserted ∧ s' = { s with worker := .idle }) := by
  cases e with
  | enqueue data => exact .inl ⟨data, rfl, (some.inj hs).symm⟩
  | synchronize =>
    obtain ⟨hq, hs⟩ := ite_none_right_eq_some.mp hs
    exact .inr (.inl ⟨rfl, hq, (some.inj hs).symm⟩)
  | batchMatch =>
    obtain ⟨hw, hs⟩ := ite_none_left_eq_some.mp hs
    exact .inr (.inr (.inl ⟨rfl, hw, (some.inj hs).symm⟩))
  | dequeue =>
    simp only [exec] at hs
    split at hs
    · rename_i data queue hw hq
      exact .inr (.inr (.inr (.inl ⟨data, queue, rfl, hw, hq, (some.inj hs).symm⟩)))
    · cases hs
  | insert =>
    simp only [exec] at hs
    split at hs
    · rename_i data hw
      split at hs
      · rename_i trie htrie
        exact .inr (.inr (.inr (.inr (.inl ⟨data, trie, rfl, hw, htrie, (some.inj hs).symm⟩))))
      · cases hs
    · cases hs
  | unlock =>
    obtain ⟨hw, hs⟩ := ite_none_right_eq_some.mp hs
    exact .inr (.inr (.inr (.inr (.inr ⟨rfl, hw, (some.inj hs).symm⟩))))

/-- The items are inserted in the order in which they came, and the trie is the result. -/
structure Follows (p : Param) (start : Trie) (came : List (List Token)) (s : System) : Prop where
  items : s.done ++ held s.worker ++ s.insertQueue = came
  trie : s.done.foldlM (fun t data => t.insert p data) start = .ok s.trie

theorem exec_follows {came : List (List Token)} (h : Follows p start came s)
    (hs : s.exec p e = some s') : Follows p start (came ++ items [e]) s' := by
  have hitems := h.items
  rcases exec_cases hs with ⟨data, rfl, rfl⟩ | ⟨rfl, -, rfl⟩ | ⟨rfl, -, rfl⟩ | ⟨data, queue, rfl, hw, hq, rfl⟩ |
    ⟨data, trie, rfl, hw, htrie, rfl⟩ | ⟨rfl, hw, rfl⟩
  · refine ⟨?_, h.trie⟩
    show s.done ++ held s.worker ++ (s.insertQueue ++ [data]) = came ++ [data]
    rw [← append_assoc, hitems]
  · exact ⟨by simpa [items] using hitems, h.trie⟩
  · exact ⟨by simpa [items] using hitems, h.trie⟩
  · rw [hw, hq] at hitems
    exact ⟨by simpa [held, items] using hitems, h.trie⟩
  · rw [hw] at hitems
    refine ⟨by simpa [held, items] using hitems, ?_⟩
    rw [foldlM_append, h.trie, ok_bind, foldlM_cons, htrie]
    rfl
  · rw [hw] at hitems
    exact ⟨by simpa [held, items] using hitems, h.trie⟩

theorem run_follows {es : List Event} {came : List (List Token)} {s s' : System} (h : Follows p start came s)
    (hs : s.run p es = some s') : Follows p start (came ++ items es) s' := by
  induction es generalizing came s s' with
  | nil =>
    cases hs
    simpa [items] using h
  | cons e es ih =>
    obtain ⟨s1, h1, hs⟩ := bind_eq_some_iff.mp hs
    have := ih (exec_follows h h1) hs
    rwa [append_assoc, ← items_append] at this

/-- Steps only add to what has been inserted or taken. -/
theorem exec_done (hs : s.exec p e = some s') : s.done ++ held s.worker <+: s'.done ++ held s'.worker := by
  rcases exec_cases hs with ⟨data, rfl, rfl⟩ | ⟨rfl, -, rfl⟩ | ⟨rfl, -, rfl⟩ | ⟨data, queue, rfl, hw, hq, rfl⟩ |
    ⟨data, trie, rfl, hw, htrie, rfl⟩ | ⟨rfl, hw, rfl⟩
  · exact prefix_refl _
  · exact prefix_refl _
  · exact prefix_refl _
  · simp [hw, held]
  · simp [hw, held]
  · simp [hw, held]

theorem run_done {es : List Event} {s s' : System} (hs : s.run p es = some s') :
    s.done ++ held s.worker <+: s'.done ++ held s'.worker := by
  induction es generalizing s s' with
  | nil =>
    cases hs
    exact prefix_refl _
  | cons e es ih =>
    obtain ⟨s1, h1, hs⟩ := bind_eq_some_iff.mp hs
    exact (exec_done h1).trans (ih hs)

/-- A match after `synchronize` runs on the trie of the items inserted so far. Everything
    enqueued before `synchronize` is among them exactly when the worker does not hold one
    of those items. -/
theorem synchronize_barrier_iff {start : Trie} {before after : List Event}
    (hs : run p { trie := start } (before ++ .synchronize :: (after ++ [.batchMatch])) = some s) :
    s.done.foldlM (fun t data => t.insert p data) start = .ok s.trie ∧
      (items before <+: s.done ↔ ¬ ∃ data, s.worker = .dequeued data ∧ s.done ++ [data] <+: items before) := by
  have hstart : Follows p start [] { trie := start } := ⟨rfl, rfl⟩
  have hend := run_follows hstart hs
  refine ⟨hend.trie, ?_⟩
  rw [run, foldlM_append] at hs
  obtain ⟨s1, h1, hs⟩ := bind_eq_some_iff.mp hs
  obtain ⟨s2, h2, hs⟩ := bind_eq_some_iff.mp hs
  obtain ⟨hempty, h2⟩ := ite_none_right_eq_some.mp h2
  cases h2
  -- at the barrier nothing is left on the queue
  have hbarrier := (run_follows hstart h1).items
  rw [hempty, append_nil, nil_append] at hbarrier
  have hpre : items before <+: s.done ++ held s.worker := hbarrier ▸ run_done hs
  have hlock : s.worker ≠ .inserted := by
    rw [foldlM_append] at hs
    obtain ⟨s3, -, hs⟩ := bind_eq_some_iff.mp hs
    obtain ⟨s4, h4, hs⟩ := bind_eq_some_iff.mp hs
    cases hs
    obtain ⟨hw, h4⟩ := ite_none_left_eq_some.mp h4
    cases h4
    exact hw
  constructor
  · rintro hdone ⟨data, -, hnext⟩
    have := (hnext.trans hdone).length_le
    rw [length_append, length_singleton] at this
    omega
  intro hno
  refine prefix_of_prefix_length_le hpre (prefix_append _ _) ?_
  cases hw : s.worker with
  | idle =>
    rw [hw] at hpre
    simpa [held] using hpre.length_le
  | dequeued data =>
    refine Nat.le_of_not_lt fun hlt => hno ⟨data, hw, ?_⟩
    rw [hw] at hpre
    rw [hpre.eq_of_length_le (by simpa [held, Nat.succ_le_iff] using hlt)]
    exact prefix_refl _
  | inserted => exact absurd hw hlock

/-- The trie `Ngram` starts with when it has room for three nodes. -/
def atRest : Trie :=
  { capacity := 4, nodes := upd (fun _ => {}) 3 {}, nodePool := [0, 1, 2, 3], freeNodeCount := 3, globalLru := [], root := 3 }

theorem synchronize_barrier_inserted : ∃ s : System,
    run small { trie := atRest } [.enqueue [1, 2], .dequeue, .insert, .synchronize, .unlock, .batchMatch] = some s ∧
      [[1, 2]] <+: s.done := by
  refine ⟨_, rfl, ?_⟩
  refine (@synchronize_barrier_iff small _ atRest [.enqueue [1, 2], .dequeue, .insert] [.unlock] rfl).2.mpr ?_
  rintro ⟨data, hw, -⟩
  cases hw

/-- The worker has taken the only item off the queue; `synchronize` returns, and the match
    that follows finds none of the item's branches. -/
theorem synchronize_misses : ∃ s : System, new 4 small = .ok atRest ∧
    run small { trie := atRest } [.enqueue [1, 2, 3], .dequeue, .synchronize, .batchMatch] = some s ∧
      branches small [1, 2, 3] = [[1, 2, 3], [2, 3]] ∧ s.trie.find s.trie.root [1, 2, 3] = none ∧
      s.trie.find s.trie.root [2, 3] = none :=
  ⟨_, rfl, rfl, rfl, rfl, rfl⟩

end System

end DynaSpec.Speculative.Ngram
