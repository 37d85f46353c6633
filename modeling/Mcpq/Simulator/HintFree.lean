import Mcpq.Simulator.MultiLevel
import Mcpq.Simulator.Clocks

/-!
# Hint-aware policies without hints

When no page is loved or hated, `LoveHateReplacementPolicy`, the chained LRU policy and the
multi-level manager are LRU, and `LoveClockReplacementPolicy` is `ClockReplacementPolicy`: they fault
at the same accesses and evict the same pages (`hint_free`).
-/

namespace Mcpq.Simulator

/-! ## Love and hate -/

namespace LoveHateReplacementPolicy

/-- The two searches of the loop find the same page. -/
def Search.Agree (s : Search) : Prop :=
  s.minLove = 0 ∧ s.minTime = s.lruMinTime ∧ s.evictedBlock = s.lruEvictedBlock

theorem Search.block_agree {h : Heap} (hlove : ∀ q, (h.page q).love = 0) {s : Search} (p : PageRef)
    (hs : s.Agree ∨ s.minLove > 0 ∧ (h.page p).time < s.lruMinTime) :
    (s.block h p).Agree ∧ ((s.block h p).lruMinTime, (s.block h p).lruEvictedBlock) =
      keepLeast h.time (s.lruMinTime, s.lruEvictedBlock) p := by
  rcases hs with ⟨h₁, h₂, h₃⟩ | ⟨h₁, h₂⟩
  · by_cases hlt : (h.page p).time < s.lruMinTime
    · simp [block, Agree, keepLeast, Heap.time, hlove, h₁, h₂, hlt]
    · simp [block, Agree, keepLeast, Heap.time, hlove, h₁, h₂, h₃, hlt]
  · simp [block, Agree, keepLeast, Heap.time, hlove, h₁, h₂]

theorem foldl_block {h : Heap} (hlove : ∀ q, (h.page q).love = 0) (pages : List PageRef)
    {s : Search} (hs : s.Agree) :
    (pages.foldl (Search.block h) s).Agree ∧
      ((pages.foldl (Search.block h) s).lruMinTime,
        (pages.foldl (Search.block h) s).lruEvictedBlock) =
      pages.foldl (keepLeast h.time) (s.lruMinTime, s.lruEvictedBlock) := by
  induction pages generalizing s with
  | nil => exact ⟨hs, rfl⟩
  | cons p pages ih =>
    obtain ⟨hs', heq⟩ := Search.block_agree hlove p (.inl hs)
    rw [List.foldl_cons, List.foldl_cons, ← heq]
    exact ih hs'

end LoveHateReplacementPolicy

open LoveHateReplacementPolicy in
theorem loveHate_evictsLeast {n : ℕ} :
    EvictsLeast n loveHateReplacementPolicy fun _ h => ∀ q, (h.page q).love = 0 := by
  refine ⟨fun _ h pages hlove _ hne htime => ?_, fun _ h h' hlove hhints q =>
    (congrArg (·.1) (hhints q)).trans (hlove q)⟩
  obtain ⟨p, hp, hfold, hle⟩ := foldl_keepLeast_time hne htime
  refine ⟨p, hp, h, (), ?_, hle, hlove, fun _ => rfl, rfl, rfl, fun _ _ _ => rfl⟩
  change findPageToEvict () h (pages.map some) = _
  -- The first page is found by both searches, and the searches agree from there on.
  obtain ⟨a, pages, rfl⟩ := List.exists_cons_of_ne_nil hne
  obtain ⟨hagree, hstep⟩ := Search.block_agree hlove a
    (s := { minTime := h.clock.current + 1, lruMinTime := h.clock.current + 1 })
    (.inr ⟨(by decide : (2147483647 : ℤ) > 0), Nat.lt_succ_of_le (htime a List.mem_cons_self)⟩)
  obtain ⟨⟨-, -, hev⟩, hrest⟩ := foldl_block hlove pages hagree
  rw [hstep] at hrest
  have hlru := (Prod.mk.inj (hrest.trans hfold)).2
  rw [hlru] at hev
  rw [findPageToEvict, foldlM_deref]
  simp only [List.foldl_cons, ok_bind, hlru, hev, deref_some, lt_irrefl, if_false, ite_self,
    pure_eq_ok]

/-! ## Runs -/

/-- A run of accesses on a new manager of capacity `n`, with a new policy. -/
def policyRun {σ : Type} (P : IPageReplacementPolicy σ) (policy : σ) (n : ℕ)
    (clock : LogicalClock) (as : List ℤ) : Java (MemoryManager σ × List (Outcome ℤ)) :=
  runAccesses (fun _ m a => m.access P a) 0 (.make policy n clock) as

theorem access_congr {σ : Type} {P Q : IPageReplacementPolicy σ} {m : MemoryManager σ} {a : ℤ}
    (h : m.isFull = true → P.findPageToEvict m.policy m.heap m.memory =
      Q.findPageToEvict m.policy m.heap m.memory) : m.access P a = m.access Q a := by
  by_cases hfull : m.isFull = true
  · simp only [MemoryManager.access, MemoryManager.freePosition, h hfull]
  · simp only [MemoryManager.access, MemoryManager.freePosition, if_neg hfull]

/-- The clock and the love clock make the same run. -/
theorem loveClock_run {n : ℕ} (h0 : 0 < n) (clock : LogicalClock) (as : List ℤ) :
    ∃ m os, policyRun clockReplacementPolicy 0 n clock as = .ok (m, os) ∧
      policyRun loveClockReplacementPolicy 0 n clock as = .ok (m, os) := by
  refine runAccesses_agree (I := fun m => ∃ slots, Layout n m slots ∧ Unloved n m.policy m.heap)
    (fun _ m a hm => ?_) as ⟨[], .make _ clock, ⟨0, h0, rfl⟩, fun _ => rfl⟩
  obtain ⟨slots, h, hun⟩ := hm
  obtain ⟨m', o, slots', heq, h', hun', -⟩ := access_serves clock_evicts h0 h hun a
  refine ⟨m', o, heq, ?_, slots', h', hun'⟩
  rw [← heq]
  refine access_congr fun hfull => ?_
  have hlen := h.isFull_iff.1 hfull
  rw [h.memory_of_full hlen]
  exact loveClock_find_eq hun hlen

/-- Without hints, the hint-aware policies have the outcomes of their baselines: the same faults,
    with the same pages evicted. The multi-level manager compares times with the system time, which
    is to be ahead of them: the clock ticks once at each access, and once more at each fault. -/
theorem hint_free {n : ℕ} (h0 : 0 < n) (clock : LogicalClock) (as : List ℤ) :
    (∃ m os, policyRun lruReplacementPolicy () n clock as = .ok (m, os) ∧
      (∃ m, policyRun loveHateReplacementPolicy () n clock as = .ok (m, os)) ∧
      (∃ m, policyRun chainedLeastRecentlyUsedReplacementPolicy {} n clock as = .ok (m, os)) ∧
      ∀ millis : ℕ → ℕ, n ≤ 2147483647 →
        (∀ i, clock.current + as.length + faults os < millis i + 1000) →
        ∃ m, multiLevelRun n clock millis as = .ok (m, os)) ∧
    ∃ m os, policyRun clockReplacementPolicy 0 n clock as = .ok (m, os) ∧
      ∃ m, policyRun loveClockReplacementPolicy 0 n clock as = .ok (m, os) := by
  obtain ⟨m₁, h₁, -⟩ := runAccesses_least lru_evictsLeast h0 () clock trivial as
  obtain ⟨m₂, h₂, -⟩ := runAccesses_least loveHate_evictsLeast h0 () clock (fun _ => rfl) as
  obtain ⟨m₃, h₃, -⟩ := runAccesses_least chainedLru_evictsLeast h0 {} clock (fun _ => rfl) as
  obtain ⟨m₄, os, h₄, h₄'⟩ := loveClock_run h0 clock as
  exact ⟨⟨m₁, _, h₁, ⟨m₂, h₂⟩, ⟨m₃, h₃⟩, fun millis hn => multiLevel_outcomes h0 hn clock millis as⟩,
    m₄, os, h₄, m₄, h₄'⟩

/-- The runs of six accesses to three pages in a memory of two. -/
theorem hint_free_two :
    (∃ m os, policyRun lruReplacementPolicy () 2 {} [1, 2, 1, 3, 2, 1] = .ok (m, os) ∧
      (∃ m, policyRun loveHateReplacementPolicy () 2 {} [1, 2, 1, 3, 2, 1] = .ok (m, os)) ∧
      (∃ m, policyRun chainedLeastRecentlyUsedReplacementPolicy {} 2 {} [1, 2, 1, 3, 2, 1] =
        .ok (m, os)) ∧
      ∃ m, multiLevelRun 2 {} (fun _ => 0) [1, 2, 1, 3, 2, 1] = .ok (m, os)) ∧
    ∃ m os, policyRun clockReplacementPolicy 0 2 {} [1, 2, 1, 3, 2, 1] = .ok (m, os) ∧
      ∃ m, policyRun loveClockReplacementPolicy 0 2 {} [1, 2, 1, 3, 2, 1] = .ok (m, os) := by
  obtain ⟨⟨m, os, h₁, h₂, h₃, h₄⟩, hclock⟩ := hint_free (by decide : 0 < 2) {} [1, 2, 1, 3, 2, 1]
  obtain ⟨m', h', -⟩ := runAccesses_least lru_evictsLeast (by decide : 0 < 2) () {} trivial
    [1, 2, 1, 3, 2, 1]
  have hos : os = lruOutcomes 2 [] [1, 2, 1, 3, 2, 1] :=
    (Prod.mk.inj (Except.ok.inj (h₁.symm.trans h'))).2
  refine ⟨⟨m, os, h₁, h₂, h₃, h₄ _ (by decide) fun _ => ?_⟩, hclock⟩
  rw [hos]
  decide

end Mcpq.Simulator
