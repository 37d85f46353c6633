import Mathlib.Tactic

/-!
# Loops

The rules of a loop over a list, whose iterations may fail: one for the loops that end normally, by
total correctness of the body (`foldlM_ok`), and one for what holds when a loop has ended normally
(`foldlM_invariant`).
-/

namespace Mcpq

/-- A loop over a list ends normally, with an invariant of the elements done, if each of its
    iterations does. -/
theorem foldlM_ok {ε : Type*} {α β : Type*} {f : β → α → Except ε β} (I : List α → β → Prop)
    {l : List α}
    (hstep : ∀ done a rest, l = done ++ a :: rest → ∀ b, I done b →
      ∃ b', f b a = .ok b' ∧ I (done ++ [a]) b') {b : β} (hb : I [] b) :
    ∃ b', l.foldlM f b = .ok b' ∧ I l b' := by
  suffices h : ∀ rest done b, l = done ++ rest → I done b →
      ∃ b', rest.foldlM f b = .ok b' ∧ I l b' from h l [] b rfl hb
  intro rest
  induction rest with
  | nil =>
    intro done b hl hb
    rw [List.append_nil] at hl
    exact ⟨b, rfl, hl ▸ hb⟩
  | cons a rest ih =>
    intro done b hl hb
    obtain ⟨b₁, h₁, hb₁⟩ := hstep done a rest hl b hb
    obtain ⟨b₂, h₂, hb₂⟩ := ih (done ++ [a]) b₁ (by rw [hl, List.append_assoc]; rfl) hb₁
    exact ⟨b₂, by rw [List.foldlM_cons, h₁]; exact h₂, hb₂⟩

/-- What each iteration of a loop that ends normally keeps, the loop keeps. -/
theorem foldlM_invariant {ε : Type*} {α β : Type*} {f : β → α → Except ε β} (I : β → Prop)
    {l : List α} (hstep : ∀ a ∈ l, ∀ b b', I b → f b a = .ok b' → I b') {b b' : β} (hb : I b)
    (h : l.foldlM f b = .ok b') : I b' := by
  induction l generalizing b with
  | nil => exact Except.ok.inj h ▸ hb
  | cons a l ih =>
    rw [List.foldlM_cons] at h
    cases ha : f b a with
    | error e =>
      rw [ha] at h
      cases h
    | ok b₁ =>
      rw [ha] at h
      exact ih (fun x hx => hstep x (List.mem_cons_of_mem a hx))
        (hstep a List.mem_cons_self b b₁ hb ha) h

/-- What each iteration of a loop that ends normally keeps, of the elements done, the loop keeps. -/
theorem foldlM_run {ε : Type*} {α β : Type*} {f : β → α → Except ε β} (I : List α → β → Prop)
    {l : List α} (hstep : ∀ done a b b', a ∈ l → I done b → f b a = .ok b' → I (done ++ [a]) b')
    {b b' : β} (hb : I [] b) (h : l.foldlM f b = .ok b') : I l b' := by
  suffices hrun : ∀ rest done b, (∀ a ∈ rest, a ∈ l) → I done b → rest.foldlM f b = .ok b' →
      I (done ++ rest) b' from hrun l [] b (fun _ ha => ha) hb h
  intro rest
  induction rest with
  | nil =>
    intro done b _ hb h
    rw [List.append_nil]
    exact Except.ok.inj h ▸ hb
  | cons a rest ih =>
    intro done b hrest hb h
    rw [List.foldlM_cons] at h
    cases ha : f b a with
    | error e =>
      rw [ha] at h
      cases h
    | ok b₁ =>
      rw [ha] at h
      rw [List.append_cons]
      exact ih (done ++ [a]) b₁ (fun x hx => hrest x (List.mem_cons_of_mem a hx))
        (hstep done a b b₁ (hrest a List.mem_cons_self) hb ha) h

end Mcpq
