/-!
# Transition systems

A transition system has initial states and steps, labelled by what is done in them. Its reachable
states may be restricted to the runs all of whose steps meet a condition on the state before the
step and the label (`ReachableBy`), and so may be its runs from one state to another (`RunBy`).
-/

namespace Mcpq

universe u v w

/-- A transition system on the states `σ`, with the labels `ι`. -/
structure Transition (σ : Type u) (ι : Type v) where
  /-- The initial states. -/
  init : σ → Prop
  /-- The steps. -/
  step : σ → ι → σ → Prop

namespace Transition

variable {σ : Type u} {ι : Type v} (T : Transition σ ι)

/-- The states reached by runs whose steps meet the condition `P`. -/
inductive ReachableBy (P : σ → ι → Prop) : σ → Prop
  | init {s : σ} : T.init s → ReachableBy P s
  | step {s s' : σ} {i : ι} : ReachableBy P s → P s i → T.step s i s' → ReachableBy P s'

/-- The states reached by any run. -/
abbrev Reachable : σ → Prop := T.ReachableBy fun _ _ => True

variable {T}

theorem ReachableBy.mono {P Q : σ → ι → Prop} (hPQ : ∀ s i, P s i → Q s i) {s : σ}
    (hs : T.ReachableBy P s) : T.ReachableBy Q s := by
  induction hs with
  | init h => exact .init h
  | step _ hP hst ih => exact .step ih (hPQ _ _ hP) hst

theorem ReachableBy.reachable {P : σ → ι → Prop} {s : σ} (hs : T.ReachableBy P s) :
    T.Reachable s :=
  hs.mono fun _ _ _ => trivial

/-- A property of the initial states that every step keeps holds in all the states reached. -/
theorem ReachableBy.invariant {P : σ → ι → Prop} {I : σ → Prop} (hinit : ∀ s, T.init s → I s)
    (hstep : ∀ s i s', I s → P s i → T.step s i s' → I s') {s : σ} (hs : T.ReachableBy P s) :
    I s := by
  induction hs with
  | init h => exact hinit _ h
  | step _ hP hst ih => exact hstep _ _ _ ih hP hst

/-- The states that a function which takes steps computes are reached. -/
theorem ReachableBy.foldlM {ε : Type w} {P : σ → ι → Prop} {f : σ → ι → Except ε σ}
    (hf : ∀ s i s', f s i = .ok s' → T.step s i s') {is : List ι} (hP : ∀ s, ∀ i ∈ is, P s i)
    {s s' : σ} (hs : T.ReachableBy P s) (h : is.foldlM f s = .ok s') : T.ReachableBy P s' := by
  induction is generalizing s with
  | nil => exact Except.ok.inj h ▸ hs
  | cons i is ih =>
    rw [List.foldlM_cons] at h
    cases hi : f s i with
    | error e =>
      rw [hi] at h
      cases h
    | ok s₁ =>
      rw [hi] at h
      exact ih (fun t j hj => hP t j (List.mem_cons_of_mem i hj))
        (.step hs (hP s i List.mem_cons_self) (hf s i s₁ hi)) h

variable (T) in
/-- A run whose steps meet the condition, with their labels. -/
inductive RunBy (P : σ → ι → Prop) : σ → List ι → σ → Prop
  | nil {s : σ} : RunBy P s [] s
  | cons {s s₁ s' : σ} {i : ι} {is : List ι} : P s i → T.step s i s₁ → RunBy P s₁ is s' →
    RunBy P s (i :: is) s'

theorem RunBy.mono {P Q : σ → ι → Prop} (hPQ : ∀ s i, P s i → Q s i) {s s' : σ} {is : List ι}
    (h : T.RunBy P s is s') : T.RunBy Q s is s' := by
  induction h with
  | nil => exact .nil
  | cons hP hst _ ih => exact .cons (hPQ _ _ hP) hst ih

/-- Runs one after the other. -/
theorem RunBy.append {P : σ → ι → Prop} {s s₁ s' : σ} {is js : List ι} (h : T.RunBy P s is s₁)
    (h' : T.RunBy P s₁ js s') : T.RunBy P s (is ++ js) s' := by
  induction h with
  | nil => exact h'
  | cons hP hstep _ ih => exact .cons hP hstep (ih h')

theorem RunBy.reachable {P : σ → ι → Prop} {s s' : σ} {is : List ι} (h : T.RunBy P s is s')
    (hs : T.ReachableBy P s) : T.ReachableBy P s' := by
  induction h with
  | nil => exact hs
  | cons hP hst _ ih => exact ih (.step hs hP hst)

/-- The run that a function which takes steps computes. -/
theorem RunBy.foldlM {ε : Type w} {f : σ → ι → Except ε σ}
    (hf : ∀ s i s', f s i = .ok s' → T.step s i s') {is : List ι} {s s' : σ}
    (h : is.foldlM f s = .ok s') : T.RunBy (fun _ _ => True) s is s' := by
  induction is generalizing s with
  | nil => exact Except.ok.inj h ▸ .nil
  | cons i is ih =>
    rw [List.foldlM_cons] at h
    cases hi : f s i with
    | error e =>
      rw [hi] at h
      cases h
    | ok s₁ =>
      rw [hi] at h
      exact .cons trivial (hf s i s₁ hi) (ih h)

/-- A property that every step keeps holds at the end of a run if it holds at its start. -/
theorem RunBy.invariant {P : σ → ι → Prop} {I : σ → Prop}
    (hstep : ∀ s i s', I s → P s i → T.step s i s' → I s') {s s' : σ} {is : List ι}
    (h : T.RunBy P s is s') (hs : I s) : I s' := by
  induction h with
  | nil => exact hs
  | cons hP hst _ ih => exact ih (hstep _ _ _ hs hP hst)

end Transition

end Mcpq
