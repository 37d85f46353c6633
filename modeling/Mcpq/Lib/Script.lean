import Mcpq.Lib.Java

/-!
# Scripts

A *script* is a list of commands executed one after the other, each of which changes the state and
adds to the outputs. A command may depend on its number.

A *triple* (`Triple`) says that a script executed in a state that satisfies the precondition ends
normally, in a state that satisfies the postcondition together with the outputs: total correctness.

* `Triple.single`, `Triple.append`: a command, and one script after another;
* `Triple.flatMap`: a loop that executes a script for each element of a list, by an invariant of the
  elements done, and `Triple.range`, for each number below another one.
-/

namespace Mcpq

variable {σ κ ω β : Type*}

/-- Execute a script whose first command has the number `i`. -/
def runScript (exec : ℕ → σ → κ → Java (σ × List ω)) : ℕ → σ → List κ → Java (σ × List ω)
  | _, s, [] => .ok (s, [])
  | i, s, c :: cs => do
    let (s, o) ← exec i s c
    let (s, os) ← runScript exec (i + 1) s cs
    pure (s, o ++ os)

/-- From the states of `P`, the script ends normally, in a state and with outputs of `Q`. -/
def Triple (exec : ℕ → σ → κ → Java (σ × List ω)) (P : σ → Prop) (cs : List κ)
    (Q : σ → List ω → Prop) : Prop :=
  ∀ i s, P s → ∃ s' os, runScript exec i s cs = .ok (s', os) ∧ Q s' os

variable {exec : ℕ → σ → κ → Java (σ × List ω)}

theorem runScript_append {i : ℕ} {s s₁ s₂ : σ} {cs₁ cs₂ : List κ} {os₁ os₂ : List ω}
    (h₁ : runScript exec i s cs₁ = .ok (s₁, os₁))
    (h₂ : runScript exec (i + cs₁.length) s₁ cs₂ = .ok (s₂, os₂)) :
    runScript exec i s (cs₁ ++ cs₂) = .ok (s₂, os₁ ++ os₂) := by
  induction cs₁ generalizing i s os₁ with
  | nil =>
    obtain ⟨rfl, rfl⟩ := Prod.mk.inj (Except.ok.inj h₁)
    exact h₂
  | cons c cs₁ ih =>
    rw [runScript] at h₁
    cases hc : exec i s c with
    | error e =>
      rw [hc] at h₁
      cases h₁
    | ok r =>
      cases hr : runScript exec (i + 1) r.1 cs₁ with
      | error e =>
        simp only [hc, ok_bind, hr, error_bind] at h₁
        cases h₁
      | ok r' =>
        simp only [hc, ok_bind, hr, pure_eq_ok] at h₁
        obtain ⟨rfl, rfl⟩ := Prod.mk.inj (Except.ok.inj h₁)
        rw [List.length_cons, Nat.add_comm cs₁.length, ← Nat.add_assoc] at h₂
        rw [List.cons_append, runScript]
        simp only [hc, ok_bind, ih hr h₂, pure_eq_ok, List.append_assoc]

namespace Triple

variable {P P' : σ → Prop} {Q Q' : σ → List ω → Prop} {cs cs' : List κ}

theorem conseq (h : Triple exec P cs Q) (hP : ∀ s, P' s → P s)
    (hQ : ∀ s os, Q s os → Q' s os) : Triple exec P' cs Q' := by
  intro i s hs
  obtain ⟨s', os, heq, hq⟩ := h i s (hP s hs)
  exact ⟨s', os, heq, hQ s' os hq⟩

theorem nil (h : ∀ s, P s → Q s []) : Triple exec P [] Q := fun _ s hs => ⟨s, [], rfl, h s hs⟩

/-- A fact of the precondition that is not about the state. -/
theorem of_and {p : Prop} (h : p → Triple exec P cs Q) :
    Triple exec (fun s => P s ∧ p) cs Q := fun i s hs => h hs.2 i s hs.1

theorem of_exists {γ : Sort*} {P : γ → σ → Prop} (h : ∀ x, Triple exec (P x) cs Q) :
    Triple exec (fun s => ∃ x, P x s) cs Q := fun i s ⟨x, hs⟩ => h x i s hs

/-- A command. -/
theorem single {c : κ} (h : ∀ i s, P s → ∃ s' os, exec i s c = .ok (s', os) ∧ Q s' os) :
    Triple exec P [c] Q := by
  intro i s hs
  obtain ⟨s', os, heq, hq⟩ := h i s hs
  refine ⟨s', os, ?_, hq⟩
  simp only [runScript, heq, ok_bind, pure_eq_ok, List.append_nil]

/-- One script after another. -/
theorem append {R : σ → List ω → Prop} (h : Triple exec P cs R)
    (h' : ∀ os, Triple exec (R · os) cs' fun s os' => Q s (os ++ os')) :
    Triple exec P (cs ++ cs') Q := by
  intro i s hs
  obtain ⟨s₁, os₁, heq₁, hr⟩ := h i s hs
  obtain ⟨s₂, os₂, heq₂, hq⟩ := h' os₁ (i + cs.length) s₁ hr
  exact ⟨s₂, os₁ ++ os₂, runScript_append heq₁ heq₂, hq⟩

/-- A loop over a list, with an invariant of the elements done. -/
theorem flatMap {body : β → List κ} (I : List β → σ → List ω → Prop) {l : List β}
    (hstep : ∀ done b rest, l = done ++ b :: rest → ∀ os,
      Triple exec (I done · os) (body b) fun s os' => I (done ++ [b]) s (os ++ os')) :
    Triple exec (I [] · []) (l.flatMap body) (I l) := by
  suffices h : ∀ rest done os, l = done ++ rest →
      Triple exec (I done · os) (rest.flatMap body) fun s os' => I l s (os ++ os') from
    h l [] [] rfl
  intro rest
  induction rest with
  | nil =>
    intro done os hl
    refine nil fun s hs => ?_
    rwa [hl, List.append_nil, List.append_nil]
  | cons b rest ih =>
    intro done os hl
    rw [List.flatMap_cons]
    refine (hstep done b rest hl os).append fun os' => ?_
    have := ih (done ++ [b]) (os ++ os') (by rw [hl, List.append_assoc]; rfl)
    simpa only [List.append_assoc] using this

/-- A loop over the numbers below `n`, with an invariant of the number of iterations done. -/
theorem range {body : ℕ → List κ} (I : ℕ → σ → List ω → Prop) {n : ℕ}
    (hstep : ∀ i < n, ∀ os, Triple exec (I i · os) (body i) fun s os' => I (i + 1) s (os ++ os')) :
    Triple exec (I 0 · []) ((List.range n).flatMap body) (I n) := by
  induction n with
  | zero => exact nil fun _ hs => hs
  | succ n ih =>
    rw [List.range_succ, List.flatMap_append, List.flatMap_singleton]
    exact (ih fun i hi => hstep i (hi.trans n.lt_succ_self)).append (hstep n n.lt_succ_self)

end Triple

end Mcpq
