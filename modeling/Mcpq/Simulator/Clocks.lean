import Mcpq.Simulator.Layout
import Mcpq.Simulator.Policies

/-!
# The clock policies

The hand of the clock finds a page that is not referenced within one round (`clock_evicts`), and the
love clock does what the clock does as long as no page is loved (`loveClock_find_eq`).
-/

namespace Mcpq.Simulator

/-- The pages from the hand on, and those from the next position on. -/
theorem rotate_succ {pages : List PageRef} {i : ℕ} (hi : i < pages.length) :
    ∃ l, pages.rotate i = pages[i] :: l ∧ pages.rotate (i + 1) = l ++ [pages[i]] := by
  have hrot : pages.rotate i = pages[i] :: (pages.drop (i + 1) ++ pages.take i) := by
    rw [List.rotate_eq_drop_append_take hi.le, List.drop_eq_getElem_cons hi, List.cons_append]
  refine ⟨_, hrot, ?_⟩
  rw [← List.rotate_rotate, hrot, List.rotate_cons_succ, List.rotate_zero]

namespace ClockReplacementPolicy

variable {pages : List PageRef} {h : Heap}

/-- The number of pages that are referenced, which decreases at each turn. -/
def referenced (h : Heap) (pages : List PageRef) : ℕ := pages.countP fun p => (h.page p).referenced

/-- The heap after the page under the hand has been passed. -/
def pass (h : Heap) (p : PageRef) : Heap := h.modify p ({ · with referenced := false })

theorem referenced_pass {p : PageRef} (hp : p ∈ pages) (href : (h.page p).referenced = true) :
    referenced (pass h p) pages < referenced h pages := by
  have hle : ∀ l : List PageRef, referenced (pass h p) l ≤ referenced h l := fun l => by
    refine List.countP_mono_left fun q _ hq => ?_
    by_cases hqp : q = p
    · rw [hqp]
      exact href
    · rwa [pass, Heap.modify_page_of_ne _ _ hqp] at hq
  obtain ⟨l₁, l₂, rfl⟩ := List.append_of_mem hp
  have h₁ := hle l₁
  have h₂ := hle l₂
  have hp' : ((pass h p).page p).referenced = false := by simp [pass]
  simp only [referenced, List.countP_append, List.countP_cons] at h₁ h₂ ⊢
  rw [if_pos href, if_neg (by simp [hp'])]
  omega

/-- A turn of the loop. -/
theorem turn_succ {i : ℕ} (hi : i < pages.length) (fuel : ℕ) :
    turn (pages.map some) (fuel + 1) h i =
      if ¬(h.page pages[i]).referenced then .ok (some pages[i], h, (i : ℤ))
      else turn (pages.map some) fuel (pass h pages[i]) ((i + 1) % pages.length : ℕ) := by
  have hget : arrayGet (pages.map some) (i : ℤ) = .ok (some pages[i]) :=
    arrayGet_natCast (by rw [List.getElem?_map, List.getElem?_eq_getElem hi]; rfl)
  rw [turn, hget, List.length_map]
  push_cast
  rfl

/-- The hand stops at a page, and only the bits of pages it passed have changed. -/
theorem turn_spec {fuel i : ℕ} (hi : i < pages.length) (hfuel : referenced h pages < fuel) :
    ∃ p ∈ pages, ∃ h', ∃ j < pages.length,
      turn (pages.map some) fuel h i = .ok (some p, h', (j : ℤ)) ∧
      (∀ q, (h'.page q).hints = (h.page q).hints) ∧ (∀ q, h'.time q = h.time q) ∧
      h'.clock = h.clock ∧ h'.disk = h.disk ∧ ∀ q, q ∉ pages → h'.page q = h.page q := by
  induction fuel generalizing h i with
  | zero => exact absurd hfuel (Nat.not_lt_zero _)
  | succ fuel ih =>
    have hmem : pages[i] ∈ pages := List.getElem_mem hi
    rw [turn_succ hi]
    split_ifs with href
    · have hlt := referenced_pass hmem href
      obtain ⟨p, hp, h', j, hj, heq, hhints, htime, hclock, hdisk, hpage⟩ :=
        ih (h := pass h pages[i]) (Nat.mod_lt _ (Nat.zero_lt_of_lt hi)) (by omega)
      have hself : ∀ q, ((pass h pages[i]).page q).hints = (h.page q).hints ∧
          (pass h pages[i]).time q = h.time q := fun q => by
        rw [Heap.time, pass, Heap.modify_page]
        split_ifs with hq
        · rw [hq]
          exact ⟨rfl, rfl⟩
        · exact ⟨rfl, rfl⟩
      refine ⟨p, hp, h', j, hj, heq, fun q => (hhints q).trans (hself q).1,
        fun q => (htime q).trans (hself q).2, hclock, hdisk, fun q hq => (hpage q hq).trans ?_⟩
      refine Heap.modify_page_of_ne _ _ ?_
      rintro rfl
      exact hq hmem
    · exact ⟨_, hmem, h, i, hi, rfl, fun _ => rfl, fun _ => rfl, rfl, rfl, fun _ _ => rfl⟩

/-- More turns than the loop makes do not change what it finds. -/
theorem turn_mono {fuel fuel' i : ℕ} {r : Option PageRef × Heap × ℤ} (hi : i < pages.length)
    (hle : fuel ≤ fuel') (heq : turn (pages.map some) fuel h i = .ok r) :
    turn (pages.map some) fuel' h i = .ok r := by
  induction fuel generalizing fuel' h i with
  | zero => exact absurd heq (by simp [turn])
  | succ fuel ih =>
    obtain ⟨fuel', rfl⟩ : ∃ k, fuel' = k + 1 := ⟨fuel' - 1, by omega⟩
    rw [turn_succ hi] at heq ⊢
    split_ifs at heq ⊢ with href
    · exact ih (Nat.mod_lt _ (Nat.zero_lt_of_lt hi)) (Nat.le_of_succ_le_succ hle) heq
    · exact heq

end ClockReplacementPolicy

/-- The hand is in a memory of capacity `n`, and no page is loved. -/
def Unloved (n : ℕ) (hand : ℤ) (h : Heap) : Prop :=
  (∃ i < n, hand = (i : ℕ)) ∧ ∀ q, (h.page q).love = 0

/-- The clock finds a page of a full memory. -/
theorem clock_evicts {n : ℕ} :
    Evicts n clockReplacementPolicy (Unloved n) fun _ _ _ => True := by
  constructor
  · rintro _ h pages ⟨⟨i, hi, rfl⟩, hlove⟩ hlen - -
    obtain ⟨p, hp, h', j, hj, heq, hhints, htime, hclock, hdisk, hpage⟩ :=
      ClockReplacementPolicy.turn_spec (h := h) (hlen ▸ hi : i < pages.length)
        (Nat.lt_succ_of_le List.countP_le_length)
    refine ⟨p, hp, h', j, ?_, trivial, ⟨⟨j, hlen ▸ hj, rfl⟩, fun q => ?_⟩, htime, hclock, hdisk,
      fun q hq _ => hpage q hq⟩
    · change ClockReplacementPolicy.findPageToEvict _ h (pages.map some) = _
      rw [ClockReplacementPolicy.findPageToEvict, List.length_map]
      exact heq
    · exact (congrArg (·.1) (hhints q)).trans (hlove q)
  · rintro s h h' ⟨hhand, hlove⟩ hhints
    exact ⟨hhand, fun q => (congrArg (·.1) (hhints q)).trans (hlove q)⟩

namespace LoveClockReplacementPolicy

/-- A turn over pages that are not loved is one of the clock. -/
theorem turn_eq {h : Heap} (hlove : ∀ q, (h.page q).love = 0) (pages : List (Option PageRef))
    (fuel : ℕ) (hand : ℤ) :
    turn pages fuel h hand = ClockReplacementPolicy.turn pages fuel h hand := by
  induction fuel generalizing h hand with
  | zero => rfl
  | succ fuel ih =>
    have hpass : ∀ p q, ((ClockReplacementPolicy.pass h p).page q).love = 0 := fun p q => by
      rw [← hlove q]
      refine congrArg (·.1) (?_ : MemoryPage.hints _ = MemoryPage.hints _)
      rw [ClockReplacementPolicy.pass, Heap.modify_page]
      split_ifs with hq
      · rw [hq]
        rfl
      · rfl
    rw [turn, ClockReplacementPolicy.turn]
    congr 1
    funext p
    congr 1
    funext p
    have hself := ih (hpass p) ((hand + 1) % pages.length)
    have hlovep : ¬(h.modify p ({ · with referenced := false }) |>.page p).love > 0 := by
      simp [hlove]
    simp only [hlove, true_and, if_true, if_neg hlovep]
    exact congrArg (ite _ _) hself

/-- The loop of the love clock may make at least as many turns as the one of the clock. -/
theorem length_lt_turns (h : Heap) (pages : List PageRef) :
    pages.length + 1 ≤ turns h (pages.map some) := by
  rw [turns, List.length_map]
  refine Nat.succ_le_succ (Nat.le_mul_of_pos_left _ (Nat.succ_pos _))

end LoveClockReplacementPolicy

/-- The love clock finds the page the clock finds. -/
theorem loveClock_find_eq {n : ℕ} {hand : ℤ} {h : Heap} (hun : Unloved n hand h)
    {pages : List PageRef} (hlen : pages.length = n) :
    loveClockReplacementPolicy.findPageToEvict hand h (pages.map some) =
      clockReplacementPolicy.findPageToEvict hand h (pages.map some) := by
  obtain ⟨⟨i, hi, rfl⟩, hlove⟩ := hun
  rw [← hlen] at hi
  change LoveClockReplacementPolicy.turn _ _ h _ = ClockReplacementPolicy.turn _ _ h _
  obtain ⟨p, -, h', j, -, heq, -⟩ :=
    ClockReplacementPolicy.turn_spec (h := h) hi (Nat.lt_succ_of_le List.countP_le_length)
  rw [LoveClockReplacementPolicy.turn_eq hlove, List.length_map, heq]
  exact ClockReplacementPolicy.turn_mono hi
    (LoveClockReplacementPolicy.length_lt_turns h pages) heq

end Mcpq.Simulator
