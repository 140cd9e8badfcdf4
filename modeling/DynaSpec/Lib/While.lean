/-
  DynaSpec.Lib.While — a `while` loop whose body may raise.

  The loop runs a bounded number of turns and answers `out` when the bound is reached with
  the condition still true. `whileLoop_ok` is its rule: an invariant that the body keeps
  and a measure that it lowers give a run that ends, with the invariant and without the
  condition, for every bound that is at least the measure. In `whileLoop_bound` the measure
  need not be a function of the state, and in `whileLoop_settles` the turns go down a
  well-founded order, so that no bound is known beforehand: a program with a bound
  `Settles` when it gives one and the same result for every bound that is large enough.
-/

import Mathlib.Data.List.Forall2

namespace DynaSpec.Lib

variable {σ ε : Type}

@[simp] theorem ok_bind {α β : Type} (x : α) (f : α → Except ε β) : ((Except.ok x : Except ε α) >>= f) = f x := rfl

@[simp] theorem error_bind {α β : Type} (e : ε) (f : α → Except ε β) :
    ((Except.error e : Except ε α) >>= f) = Except.error e := rfl

def whileLoop (out : ε) (cond : σ → Bool) (body : σ → Except ε σ) : Nat → σ → Except ε σ
  | 0, s => if cond s then .error out else .ok s
  | turns + 1, s => if cond s then body s >>= whileLoop out cond body turns else .ok s

/-- An invariant that comes with a bound, which every turn lowers. -/
theorem whileLoop_bound (out : ε) (cond : σ → Bool) (body : σ → Except ε σ) (Inv : σ → Nat → Prop)
    (step : ∀ s m, Inv s m → cond s = true → ∃ s' m', body s = .ok s' ∧ Inv s' m' ∧ m' < m)
    (turns : Nat) (s : σ) (m : Nat) (hs : Inv s m) (hm : m ≤ turns) :
    ∃ s' m', whileLoop out cond body turns s = .ok s' ∧ Inv s' m' ∧ cond s' = false := by
  induction turns generalizing s m with
  | zero =>
    have hc : cond s = false := by
      by_contra hc
      obtain ⟨s', m', -, -, hlt⟩ := step s m hs (by simpa using hc)
      omega
    exact ⟨s, m, by simp [whileLoop, hc], hs, hc⟩
  | succ turns ih =>
    by_cases hc : cond s = true
    · obtain ⟨s1, m1, hb, hs1, hlt⟩ := step s m hs hc
      obtain ⟨s', m', he, hs', hc'⟩ := ih s1 m1 hs1 (by omega)
      refine ⟨s', m', ?_, hs', hc'⟩
      unfold whileLoop
      rw [if_pos hc, hb]
      exact he
    · have hc : cond s = false := by simpa using hc
      exact ⟨s, m, by simp [whileLoop, hc], hs, hc⟩

theorem whileLoop_ok (out : ε) (cond : σ → Bool) (body : σ → Except ε σ) (Inv : σ → Prop) (measure : σ → Nat)
    (step : ∀ s, Inv s → cond s = true → ∃ s', body s = .ok s' ∧ Inv s' ∧ measure s' < measure s)
    (turns : Nat) (s : σ) (hs : Inv s) (hm : measure s ≤ turns) :
    ∃ s', whileLoop out cond body turns s = .ok s' ∧ Inv s' ∧ cond s' = false := by
  obtain ⟨s', _, hrun, ⟨hs', -⟩, hend⟩ := whileLoop_bound out cond body (fun s m => Inv s ∧ m = measure s)
    (by
      rintro s m ⟨hs, rfl⟩ hc
      obtain ⟨s', hb, hs', hlt⟩ := step s hs hc
      exact ⟨s', _, hb, ⟨hs', rfl⟩, hlt⟩)
    turns s _ ⟨hs, rfl⟩ hm
  exact ⟨s', hrun, hs', hend⟩

/-- A loop over a list whose body keeps an invariant. -/
theorem foldlM_ok {α : Type} {l : List α} {f : σ → α → Except ε σ} {P : σ → Prop}
    (step : ∀ a ∈ l, ∀ s, P s → ∃ s', f s a = .ok s' ∧ P s') {s : σ} (hs : P s) : ∃ s', l.foldlM f s = .ok s' ∧ P s' := by
  induction l generalizing s with
  | nil => exact ⟨s, rfl, hs⟩
  | cons a l ih =>
    obtain ⟨s', hstep, hs'⟩ := step a List.mem_cons_self s hs
    rw [List.foldlM_cons, hstep]
    exact ih (fun b hb => step b (List.mem_cons_of_mem a hb)) hs'

/-! ## Programs that settle -/

def Settles {α : Type} (f : Nat → Except ε α) (P : α → Prop) : Prop := ∃ a, P a ∧ ∃ n, ∀ turns, n ≤ turns → f turns = .ok a

section
variable {α β : Type} {P : α → Prop}

theorem Settles.pure {a : α} (h : P a) : Settles (fun _ => (.ok a : Except ε α)) P := ⟨a, h, 0, fun _ _ => rfl⟩

variable {f : Nat → Except ε α}

theorem Settles.bind {g : Nat → α → Except ε β} {Q : β → Prop} (hf : Settles f P)
    (hg : ∀ a, P a → Settles (fun turns => g turns a) Q) : Settles (fun turns => f turns >>= g turns) Q := by
  obtain ⟨a, ha, n, hn⟩ := hf
  obtain ⟨b, hb, m, hm⟩ := hg a ha
  refine ⟨b, hb, max n m, fun turns ht => ?_⟩
  show (f turns >>= g turns) = .ok b
  rw [hn turns (by omega), ok_bind]
  exact hm turns (by omega)

/-- The result is the one that every large bound gives. -/
theorem Settles.self (h : Settles f P) : Settles f fun a => P a ∧ ∃ n, ∀ turns, n ≤ turns → f turns = .ok a := by
  obtain ⟨a, ha, hn⟩ := h
  exact ⟨a, ⟨ha, hn⟩, hn⟩

variable {l : List α}

/-- A loop over a list that puts the results of programs that settle together. -/
theorem Settles.collect {γ : Type} {g : Nat → α → Except ε γ} {Q : α → γ → Prop} (join : β → γ → β)
    (hg : ∀ a ∈ l, Settles (fun turns => g turns a) (Q a)) (b : β) :
    Settles (fun turns => l.foldlM (fun b a => do .ok (join b (← g turns a))) b) fun out =>
      ∃ rs, List.Forall₂ Q l rs ∧ out = rs.foldl join b := by
  induction l generalizing b with
  | nil => exact ⟨b, ⟨[], List.Forall₂.nil, rfl⟩, 0, fun _ _ => rfl⟩
  | cons a l ih =>
    obtain ⟨r, hr, n, hn⟩ := hg a List.mem_cons_self
    obtain ⟨out, ⟨rs, hrs, hout⟩, m, hm⟩ := ih (fun x hx => hg x (List.mem_cons_of_mem a hx)) (join b r)
    refine ⟨out, ⟨r :: rs, List.Forall₂.cons hr hrs, hout⟩, max n m, fun turns ht => ?_⟩
    have hfirst : g turns a = Except.ok r := hn turns (by omega)
    dsimp only
    rw [List.foldlM_cons, hfirst]
    exact hm turns (by omega)

/-- A loop over a list of programs that settle. -/
theorem Settles.foldlM {g : Nat → β → α → Except ε β} {P : β → Prop}
    (hg : ∀ b, P b → ∀ a ∈ l, Settles (fun turns => g turns b a) P) {b : β} (hb : P b) :
    Settles (fun turns => l.foldlM (g turns) b) P := by
  induction l generalizing b with
  | nil => exact ⟨b, hb, 0, fun _ _ => rfl⟩
  | cons a l ih =>
    simp only [List.foldlM_cons]
    exact (hg b hb a List.mem_cons_self).bind fun b' hb' => ih (fun c hc x hx => hg c hc x (List.mem_cons_of_mem a hx)) hb'

end

theorem whileLoop_settles (out : ε) (cond : σ → Bool) (body : σ → Except ε σ) (Inv : σ → Prop) {R : σ → σ → Prop}
    (hR : WellFounded R) (step : ∀ s, Inv s → cond s = true → ∃ s', body s = .ok s' ∧ Inv s' ∧ R s' s) {s : σ} (hs : Inv s) :
    Settles (fun turns => whileLoop out cond body turns s) fun s' => Inv s' ∧ cond s' = false := by
  induction s using hR.induction with
  | _ s ih =>
    by_cases hc : cond s = true
    · obtain ⟨s1, hb, hs1, hlt⟩ := step s hs hc
      obtain ⟨s', hs', n, hn⟩ := ih s1 hlt hs1
      refine ⟨s', hs', n + 1, fun turns ht => ?_⟩
      obtain ⟨turns, rfl⟩ : ∃ k, turns = k + 1 := ⟨turns - 1, by omega⟩
      show whileLoop out cond body (turns + 1) s = .ok s'
      rw [whileLoop, if_pos hc, hb]
      exact hn turns (by omega)
    · have hc : cond s = false := by simpa using hc
      refine ⟨s, ⟨hs, hc⟩, 0, fun turns _ => ?_⟩
      cases turns <;> simp [whileLoop, hc]

end DynaSpec.Lib
