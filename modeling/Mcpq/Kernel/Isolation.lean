import Mcpq.Kernel.Mm

/-!
# Isolated pages

Reclaim takes pages off the LRU lists of a zone and charges them to the lists they came from, which
it tells by their flags (`update_isolated_counts`). The flags name eight lists (`Page.listIndex`), but
the counters of four are charged: those of the pages that are not linked. The counts are right if and
only if no isolated page is linked (`updateIsolatedCounts_iff`).

The pages are those of order 0.
-/

namespace Mcpq.Kernel

/-- `LRU_ACTIVE_ANON`. -/
def lruActiveAnon : ℕ := lruBase + lruActive
/-- `LRU_ACTIVE_FILE`. -/
def lruActiveFile : ℕ := lruBase + lruFile + lruActive

/-- The list that the flags of a page name, unless it is unevictable. -/
def Page.listIndex (x : Page) : ℕ :=
  x.lruBaseType + if x.testBit .active then lruActive else lruBase

/-- The pages and the counters that reclaim reads and writes. `nrIsolated` and `recentScanned` are
    those of the anonymous pages and of the pages of files. -/
structure Reclaim where
  page : PageRef → Page
  zone : Zone
  nrIsolated : Bool → ℤ := fun _ => 0
  recentScanned : Bool → ℤ := fun _ => 0
  pagesScanned : ℤ := 0
  pgdeactivate : ℤ := 0
  pgrefill : ℤ := 0
  pgscanKswapd : ℤ := 0
  pgscanDirect : ℤ := 0

/-- The state of the loop of `clear_active_flags`. -/
structure ActiveFlags where
  page : PageRef → Page
  count : ℕ → ℤ := fun _ => 0
  nrActive : ℤ := 0

namespace ActiveFlags

/-- An iteration of the loop. -/
def clear (f : ActiveFlags) (p : PageRef) : ActiveFlags :=
  let lru := (f.page p).lruBaseType
  if (f.page p).testBit .active then
    { page := Function.update f.page p ((f.page p).clearBit .active)
      nrActive := f.nrActive + 1
      count := Function.update f.count (lru + lruActive) (f.count (lru + lruActive) + 1) }
  else { f with count := Function.update f.count lru (f.count lru + 1) }

end ActiveFlags

/-- `clear_active_flags`, with the counts of the lists. -/
def clearActiveFlags (page : PageRef → Page) (pages : List PageRef) : ActiveFlags :=
  pages.foldl ActiveFlags.clear { page }

namespace Reclaim

/-- `update_isolated_counts`, with the values `nr_anon` and `nr_file`. -/
def updateIsolatedCounts (s : Reclaim) (pages : List PageRef) : Reclaim × ℤ × ℤ :=
  let f := clearActiveFlags s.page pages
  let zone := s.zone.modState lruActiveFile (-f.count lruActiveFile)
  let zone := zone.modState lruInactiveFile (-f.count lruInactiveFile)
  let zone := zone.modState lruActiveAnon (-f.count lruActiveAnon)
  let zone := zone.modState lruInactiveAnon (-f.count lruInactiveAnon)
  let nrAnon := f.count lruActiveAnon + f.count lruInactiveAnon
  let nrFile := f.count lruActiveFile + f.count lruInactiveFile
  let nr := fun file => if file then nrFile else nrAnon
  ({ s with
    page := f.page
    zone := zone
    nrIsolated := fun file => s.nrIsolated file + nr file
    recentScanned := fun file => s.recentScanned file + nr file
    pgdeactivate := s.pgdeactivate + f.nrActive }, nrAnon, nrFile)

end Reclaim

/-! ## Counts -/

variable {page : PageRef → Page} {pages : List PageRef} {p : PageRef} {l : ℕ} {s : Reclaim}

/-- The flags are the digits of the list. -/
theorem Page.listIndex_eq (x : Page) :
    x.listIndex = (if x.isFileCache then lruFile else lruBase) +
      (if x.linked then lruLinked else lruBase) +
        (if x.testBit .active then lruActive else lruBase) := by
  rw [listIndex, lruBaseType]
  cases x.isFileCache
  all_goals simp [lruInactiveAnon, lruInactiveFile, lruBase]

/-- Four of the lists are those of the pages that are not linked. -/
theorem Page.listIndex_of_unlinked (x : Page) :
    (if x.listIndex = lruActiveAnon then 1 else 0) +
          (if x.listIndex = lruInactiveAnon then 1 else 0) +
        ((if x.listIndex = lruActiveFile then 1 else 0) +
          (if x.listIndex = lruInactiveFile then 1 else 0)) =
      if x.linked = false then 1 else 0 := by
  rw [listIndex_eq]
  cases x.isFileCache
  all_goals
    cases x.linked
    all_goals
      cases x.testBit .active
      all_goals rfl

theorem ActiveFlags.clear_count (f : ActiveFlags) (p : PageRef) (l : ℕ) :
    (f.clear p).count l = f.count l + if (f.page p).listIndex = l then 1 else 0 := by
  rw [clear, Page.listIndex]
  cases (f.page p).testBit .active
  all_goals
    simp only [if_true, Bool.false_eq_true, if_false, lruBase, add_zero, eq_comm,
      Function.update_apply]
    split_ifs with h
    · rw [h]
    · rw [add_zero]

theorem ActiveFlags.clear_page (f : ActiveFlags) {p q : PageRef} (h : q ≠ p) :
    (f.clear p).page q = f.page q := by
  rw [clear]
  split_ifs
  · exact Function.update_of_ne h _ _
  · rfl

/-- Each page is counted once, under the list that its flags name before it is cleared. -/
theorem clearActiveFlags_spec (page : PageRef → Page) (hnd : pages.Nodup) :
    (∀ p, p ∉ pages → (clearActiveFlags page pages).page p = page p) ∧
      ∀ l, (clearActiveFlags page pages).count l =
        pages.countP fun p => (page p).listIndex = l := by
  induction pages using List.reverseRecOn with
  | nil => exact ⟨fun _ _ => rfl, fun _ => rfl⟩
  | append_singleton pages p ih =>
    obtain ⟨hnd, -, hne⟩ := List.nodup_append.1 hnd
    have hp : p ∉ pages := fun hp => hne p hp p List.mem_cons_self rfl
    obtain ⟨hpage, hcount⟩ := ih hnd
    rw [clearActiveFlags, List.foldl_append, List.foldl_cons, List.foldl_nil]
    refine ⟨fun q hq => ?_, fun l => ?_⟩
    · rw [List.mem_append, List.mem_singleton, not_or] at hq
      rw [ActiveFlags.clear_page _ hq.2]
      exact hpage q hq.1
    · rw [ActiveFlags.clear_count, List.countP_append, List.countP_singleton]
      change (clearActiveFlags page pages).count l +
        (if ((clearActiveFlags page pages).page p).listIndex = l then 1 else 0) = _
      rw [hcount, hpage p hp]
      push_cast
      simp only [decide_eq_true_eq]

/-- The pages of the four lists are those that are not linked. -/
theorem countP_unlinked (page : PageRef → Page) (pages : List PageRef) :
    (pages.countP fun p => (page p).listIndex = lruActiveAnon) +
        (pages.countP fun p => (page p).listIndex = lruInactiveAnon) +
        ((pages.countP fun p => (page p).listIndex = lruActiveFile) +
          pages.countP fun p => (page p).listIndex = lruInactiveFile) =
      pages.countP fun p => (page p).linked = false := by
  induction pages with
  | nil => rfl
  | cons p pages ih =>
    simp only [List.countP_cons, decide_eq_true_eq]
    rw [← ih, ← (page p).listIndex_of_unlinked]
    ring

/-- The counters of four lists are charged with the pages that came from them. -/
theorem updateIsolatedCounts_nr (s : Reclaim) (hnd : pages.Nodup) (l : ℕ) :
    (s.updateIsolatedCounts pages).1.zone.nr l = s.zone.nr l -
      if l ∈ [lruInactiveAnon, lruActiveAnon, lruInactiveFile, lruActiveFile] then
        ((pages.countP fun p => (s.page p).listIndex = l : ℕ) : ℤ) else 0 := by
  have hcount := (clearActiveFlags_spec s.page hnd).2
  simp only [Reclaim.updateIsolatedCounts, Zone.modState, hcount, Function.update_apply,
    List.mem_cons, List.not_mem_nil, or_false]
  by_cases h₀ : l = lruInactiveAnon
  · subst h₀
    rfl
  by_cases h₁ : l = lruActiveAnon
  · subst h₁
    rfl
  by_cases h₄ : l = lruInactiveFile
  · subst h₄
    rfl
  by_cases h₅ : l = lruActiveFile
  · subst h₅
    rfl
  simp only [h₀, h₁, h₄, h₅, if_false, or_self, sub_zero]

/-- The values `nr_anon` and `nr_file` add up to the number of the pages that are not linked. -/
theorem updateIsolatedCounts_sum (s : Reclaim) (hnd : pages.Nodup) :
    (s.updateIsolatedCounts pages).2.1 + (s.updateIsolatedCounts pages).2.2 =
      (pages.countP fun p => (s.page p).linked = false : ℕ) := by
  have hcount := (clearActiveFlags_spec s.page hnd).2
  simp only [Reclaim.updateIsolatedCounts, hcount]
  rw [← countP_unlinked]
  push_cast
  rfl

/-! ## The counts of the isolated pages -/

/-- Each counter is charged with the isolated pages that came from its list, and all the isolated
    pages are counted. -/
structure CountsIsolated (s : Reclaim) (pages : List PageRef) (r : Reclaim × ℤ × ℤ) : Prop where
  nr_eq : ∀ l < lruUnevictable,
    r.1.zone.nr l = s.zone.nr l - (pages.countP fun p => (s.page p).listIndex = l : ℕ)
  sum_eq : r.2.1 + r.2.2 = pages.length

/-- The counts are right exactly if no isolated page is linked. -/
theorem updateIsolatedCounts_iff (s : Reclaim) (hnd : pages.Nodup) :
    CountsIsolated s pages (s.updateIsolatedCounts pages) ↔
      ∀ p ∈ pages, (s.page p).linked = false := by
  have hsum := updateIsolatedCounts_sum s hnd
  constructor
  · intro h
    have hlen := Int.natCast_inj.1 (hsum.symm.trans h.sum_eq)
    exact fun p hp => of_decide_eq_true (List.countP_eq_length.1 hlen p hp)
  · intro h
    refine ⟨fun l hl => ?_, ?_⟩
    · rw [updateIsolatedCounts_nr s hnd]
      split_ifs with hmem
      · rfl
      -- The list is one of those of the linked pages.
      · rw [List.countP_eq_zero.2 fun p hp => ?_]
        · rfl
        · rw [decide_eq_true_eq]
          rintro rfl
          have hone := (s.page p).listIndex_of_unlinked
          simp only [List.mem_cons, List.not_mem_nil, or_false, not_or] at hmem
          simp [h p hp, hmem] at hone
    · rw [hsum, List.countP_eq_length.2 fun p hp => decide_eq_true (h p hp)]

/-- A page of a file, an active anonymous page, and an inactive one. -/
def threeLists : Reclaim where
  page p := { flags := fun b => decide (b = .swapbacked ∧ p ≠ 0 ∨ b = .active ∧ p = 1) }
  zone := { nr := fun _ => 4 }

/-- One page of each of three lists: two that are counted as inactive, and one that is active. -/
theorem updateIsolatedCounts_threeLists :
    ([0, 1, 2].map fun p => (threeLists.page p).listIndex) = [lruFile, lruActiveAnon, lruBase] ∧
      (threeLists.updateIsolatedCounts [0, 1, 2]).2 = (2, 1) ∧
      CountsIsolated threeLists [0, 1, 2] (threeLists.updateIsolatedCounts [0, 1, 2]) :=
  ⟨by decide, by decide, (updateIsolatedCounts_iff _ (by decide)).2 fun _ _ => rfl⟩

/-- A linked page is not counted. -/
theorem linked_not_counted :
    ¬ CountsIsolated { page := fun _ => { chain := some 0 }, zone := {} } [0]
      (Reclaim.updateIsolatedCounts { page := fun _ => { chain := some 0 }, zone := {} } [0]) := by
  intro h
  have h0 : (0 : ℤ) = 1 := h.sum_eq
  exact absurd h0 (by decide)

end Mcpq.Kernel
