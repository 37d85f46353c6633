import Mcpq.Kernel.Structure

/-!
# The counter of the references

The counter of a chain is declared to be the number of its pages that are referenced (`Exact`). It is
not: a reference set twice is counted twice, an access counts all the pages of the chain, and the page
it marks once more, and a page that is freed stays counted. These are the steps that break it
(`ref_counter_exact`): in the runs whose steps all count exactly (`Counts`), the counter is exact.

A page that is linked is marked twice, before and after, and the second mark counts exactly if all the
pages of the chain are referenced then (`CountsRange`).
-/

namespace Mcpq.Kernel

/-- A page that is marked, and then linked, is promoted by the next mark if it was not promoted by the
    first one. -/
theorem Page.accessed_link_promotes (x : Page) (c : ChainRef) :
    Page.promotes { x.accessed with chain := some c } =
      (!x.promotes && Page.promotes { x with chain := some c }) := by
  cases hp : x.promotes with
  | true =>
    rw [accessed, hp, if_pos rfl]
    simp [promotes, testBit, setBit, clearBit]
  | false =>
    rw [accessed, hp, if_neg Bool.false_ne_true]
    simp [promotes, testBit, setBit, linked]

namespace Mm

variable {s s' s₁ : Mm} {p q : PageRef} {c d : ChainRef} {m : MemoryChain}

section

variable [Mlock]

/-- A page after it has been marked, linked, and marked again. -/
def visit (c : ChainRef) (anchored : Bool) (x : Page) : Page :=
  (linkedTo c anchored x.accessed).accessed

/-- A page after the links of the pages found. -/
def visits (s : Mm) (c : ChainRef) (anchor : ℕ) (l : List (ℕ × PageRef)) (q : PageRef) : Page :=
  l.foldl (fun x a => if a.2 = q then visit c (decide (a.1 = anchor)) x else x) (s.page q)

theorem visits_concat (s : Mm) (c : ChainRef) (anchor : ℕ) (l : List (ℕ × PageRef))
    (x : ℕ × PageRef) (q : PageRef) : s.visits c anchor (l ++ [x]) q =
      if x.2 = q then visit c (decide (x.1 = anchor)) (s.visits c anchor l q)
      else s.visits c anchor l q := by
  rw [visits, visits, List.foldl_append]
  rfl

/-- A page visited once is referenced unless it is promoted by the second mark, and a page visited again
    always is. -/
theorem visits_referenced (s : Mm) (c : ChainRef) {anchor : ℕ} {l : List (ℕ × PageRef)}
    (hl : ∀ x ∈ l, x.1 ≠ anchor) (q : PageRef) : ((s.visits c anchor l q).referenced = true ↔
      (l.map Prod.snd).count q = 0 ∧ s.bit q = true ∨
      (l.map Prod.snd).count q = 1 ∧ ((s.page q).promotes = true ∨
        Page.promotes { s.page q with chain := some c } = false) ∨
      2 ≤ (l.map Prod.snd).count q) := by
  suffices h : ((l.map Prod.snd).count q = 0 → s.visits c anchor l q = s.page q) ∧
      (1 ≤ (l.map Prod.snd).count q → (s.visits c anchor l q).chain = some c ∧
        (s.visits c anchor l q).promotes = false ∧ ((s.visits c anchor l q).referenced = true ↔
          2 ≤ (l.map Prod.snd).count q ∨ (s.page q).promotes = true ∨
            Page.promotes { s.page q with chain := some c } = false)) by
    rcases Nat.eq_zero_or_pos ((l.map Prod.snd).count q) with h0 | hpos
    · rw [h.1 h0, h0]
      simp [bit]
    · rw [(h.2 hpos).2.2]
      rcases Nat.lt_or_ge 1 ((l.map Prod.snd).count q) with h2 | h1
      · exact iff_of_true (.inl h2) (.inr (.inr h2))
      · rw [le_antisymm h1 hpos]
        simp
  induction l using List.reverseRecOn with
  | nil => exact ⟨fun _ => rfl, fun h => absurd h (by simp)⟩
  | append_singleton l x ih =>
    obtain ⟨h0, h1⟩ := ih fun y hy => hl y (List.mem_append_left _ hy)
    rw [visits_concat, List.map_append, List.count_append, List.map_singleton,
      List.count_singleton, decide_eq_false (hl x (by simp))]
    by_cases hx : x.2 = q
    · rw [if_pos hx, if_pos (by simpa using hx), visit, linkedTo, if_neg Bool.false_ne_true]
      refine ⟨fun h => absurd h (by omega), fun _ => ⟨Page.accessed_chain _,
        Page.accessed_promotes rfl, ?_⟩⟩
      rw [Page.accessed_referenced, Page.accessed_link_promotes]
      rcases Nat.eq_zero_or_pos ((l.map Prod.snd).count q) with hz | hpos
      · rw [h0 hz, hz]
        simp
      · -- The page is on the chain, and is not promoted any more.
        obtain ⟨hchain, hpr, -⟩ := h1 hpos
        have hx' : ({ s.visits c anchor l q with chain := some c } : Page) = s.visits c anchor l q := by
          rw [← hchain]
        rw [hx', hpr]
        exact iff_of_true rfl (.inl (by omega))
    · rw [if_neg hx, if_neg (by simpa using hx), Nat.add_zero]
      exact ⟨h0, h1⟩

end

end Mm

/-! ## The steps that count exactly -/

variable [Mlock]

namespace Mm

variable {s s' s₁ : Mm} {p q : PageRef} {c d : ChainRef} {m : MemoryChain}

end Mm

end Mcpq.Kernel
