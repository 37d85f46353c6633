import Mcpq.Simulator.Policies

/-!
# The love queue

The page that `MultiLevelQueueReplacementPolicy` evicts. The quotient of integers that is compared with
`loveQueueRatio` exceeds it only if all pages are loved (`tooBigLoveQueue_eq`), and a search does not
lower `minTime`, so that it ends with the last page it may take (`search_eq`): the last page is reset if
all pages are loved, and the last page of love 0 is evicted (`findPageToEvict_eq`).

* `evictsOldest`: the page evicted, or reset, is the least recently used one if that one comes last;
* `keepsRatio`: at most half of the pages are loved at the end if they were at the beginning, or if all
  were and the last page is half of the array.
-/

namespace Mcpq.Simulator

namespace MultiLevelQueueReplacementPolicy

/-- No page was used in the future. -/
def Past (h : Heap) (pages : List PageRef) : Prop := ∀ p ∈ pages, h.time p ≤ h.clock.current

instance (h : Heap) (pages : List PageRef) : Decidable (Past h pages) :=
  inferInstanceAs (Decidable (∀ p ∈ pages, h.time p ≤ h.clock.current))

/-- All pages are loved. -/
def AllLoved (h : Heap) (pages : List PageRef) : Prop := ∀ p ∈ pages, (h.page p).love > 0

instance (h : Heap) (pages : List PageRef) : Decidable (AllLoved h pages) :=
  inferInstanceAs (Decidable (∀ p ∈ pages, (h.page p).love > 0))

/-- The number of the pages that are loved. -/
def loved (h : Heap) (pages : List PageRef) : ℕ := pages.countP fun p => (h.page p).love > 0

/-- The heap after the loop of `findPageToEvict`: the last page is reset if all pages are loved. -/
def reduced (h : Heap) (pages : List PageRef) : Heap :=
  if AllLoved h pages then pages.getLast?.elim h (h.modify · ({ · with love := 0 })) else h

variable {h : Heap} {pages : List PageRef} {p : PageRef}

/-! ## The loops -/

theorem foldl_loved (c : ℕ) :
    pages.foldl (fun c p => if (h.page p).love > 0 then c + 1 else c) c = c + loved h pages := by
  rw [loved]
  induction pages generalizing c with
  | nil => rfl
  | cons p pages ih =>
    rw [List.foldl_cons, ih, List.countP_cons]
    by_cases hp : (h.page p).love > 0
    · rw [if_pos hp, if_pos (decide_eq_true hp)]
      omega
    · rw [if_neg hp, if_neg (by simpa using hp)]
      omega

theorem loved_eq_length : loved h pages = pages.length ↔ AllLoved h pages := by
  rw [loved, List.countP_eq_length]
  simp only [decide_eq_true_eq, AllLoved]

/-- A quotient of integers is above the ratio as soon as it is not 0. -/
theorem loveQueueRatio_lt {c n : ℕ} (hn : 0 < n) (hc : c ≤ n) :
    ((c / n : ℕ) : ℚ) > loveQueueRatio ↔ c = n := by
  rcases hc.lt_or_eq with hlt | rfl
  · rw [Nat.div_eq_of_lt hlt, loveQueueRatio]
    exact ⟨fun h => absurd h (by norm_num), fun h => absurd h hlt.ne⟩
  · rw [Nat.div_self hn, loveQueueRatio]
    exact ⟨fun _ => rfl, fun _ => by norm_num⟩

theorem tooBigLoveQueue_eq (hne : pages ≠ []) :
    tooBigLoveQueue h (pages.map some) = .ok (decide (AllLoved h pages)) := by
  have hn : 0 < pages.length := List.length_pos_iff.2 hne
  rw [tooBigLoveQueue, foldlM_deref (fun c p => if (h.page p).love > 0 then c + 1 else c), ok_bind,
    foldl_loved, Nat.zero_add, List.length_map, if_neg hn.ne', pure_eq_ok]
  exact congrArg Except.ok (decide_eq_decide.2
    ((loveQueueRatio_lt hn List.countP_le_length).trans loved_eq_length))

/-- A search ends with the last page it may take. -/
theorem search_eq (eligible : ℤ → Bool) (hpast : Past h pages) :
    search eligible h (pages.map some) =
      .ok (pages.filter fun p => eligible (h.page p).love).getLast? := by
  rw [search, foldlM_deref (fun b p =>
    if eligible (h.page p).love ∧ (h.page p).time < h.clock.current + 1 then some p else b),
    ← foldl_last]
  refine congrArg Except.ok (List.foldl_ext _ _ none fun b p hp => ?_)
  exact if_congr (and_iff_left (Nat.lt_succ_of_le (hpast p hp))) rfl rfl

theorem reduceLoveQueue_eq (hall : AllLoved h pages) (hpast : Past h pages) (hne : pages ≠ []) :
    reduceLoveQueue h (pages.map some) = .ok (reduced h pages) := by
  have hfilter : pages.filter (fun p => decide ((h.page p).love > 0)) = pages :=
    List.filter_eq_self.2 fun p hp => decide_eq_true (hall p hp)
  rw [reduceLoveQueue, search_eq _ hpast, hfilter, reduced, if_pos hall,
    List.getLast?_eq_some_getLast hne]
  rfl

theorem reduced_of_allLoved (hall : AllLoved h pages) (hne : pages ≠ []) :
    reduced h pages = h.modify (pages.getLast hne) ({ · with love := 0 }) := by
  rw [reduced, if_pos hall, List.getLast?_eq_some_getLast hne]
  rfl

theorem reduced_of_not_allLoved (hall : ¬AllLoved h pages) : reduced h pages = h := if_neg hall

theorem reduced_time : (reduced h pages).time p = h.time p := by
  rw [reduced]
  split_ifs
  · cases pages.getLast? with
    | none => rfl
    | some q =>
      rw [Option.elim_some, Heap.time, Heap.modify_page]
      split_ifs with hpq
      · rw [hpq]
        rfl
      · rfl
  · rfl

theorem reduced_clock : (reduced h pages).clock = h.clock := by
  rw [reduced]
  split_ifs
  · cases pages.getLast? <;> rfl
  · rfl

theorem past_reduced (hpast : Past h pages) : Past (reduced h pages) pages := fun p hp => by
  rw [reduced_time, reduced_clock]
  exact hpast p hp

/-- If all pages are loved, the last one is reset. -/
theorem reduced_love_of_allLoved (hall : AllLoved h pages) (hne : pages ≠ []) :
    ((reduced h pages).page p).love = if p = pages.getLast hne then 0 else (h.page p).love := by
  rw [reduced_of_allLoved hall hne, Heap.modify_page]
  split_ifs <;> rfl

/-- Once the last page is reset, not all pages are loved. -/
theorem not_allLoved_reduced (hne : pages ≠ []) : ¬AllLoved (reduced h pages) pages := by
  by_cases hall : AllLoved h pages
  · intro hall'
    have hpos := hall' _ (List.getLast_mem hne)
    rw [reduced_love_of_allLoved hall hne, if_pos rfl] at hpos
    exact lt_irrefl _ hpos
  · rwa [reduced_of_not_allLoved hall]

/-- The `while` loop makes at most one iteration. -/
theorem reduce_eq (hpast : Past h pages) (hne : pages ≠ []) :
    reduce (pages.map some) (pages.length + 1) h = .ok (reduced h pages) := by
  rw [reduce, tooBigLoveQueue_eq hne, ok_bind]
  by_cases hall : AllLoved h pages
  · obtain ⟨n, hn⟩ : ∃ n, pages.length = n + 1 :=
      ⟨pages.length - 1, (Nat.succ_pred_eq_of_pos (List.length_pos_iff.2 hne)).symm⟩
    rw [if_pos (decide_eq_true hall), reduceLoveQueue_eq hall hpast hne, ok_bind, hn, reduce,
      tooBigLoveQueue_eq hne, ok_bind, if_neg (by simpa using not_allLoved_reduced hne)]
    rfl
  · rw [if_neg (by simpa using hall), reduced_of_not_allLoved hall]
    rfl

/-- What `findPageToEvict` returns and leaves. -/
theorem findPageToEvict_eq (hpast : Past h pages) (hne : pages ≠ []) :
    findPageToEvict () h (pages.map some) =
      .ok ((pages.filter fun p => ((reduced h pages).page p).love = 0).getLast?,
        reduced h pages, ()) := by
  rw [findPageToEvict, List.length_map, reduce_eq hpast hne, ok_bind, search_eq _ (past_reduced hpast)]
  rfl

/-! ## The page evicted -/

/-- The pages from which a page is taken: all of them if all are loved, or those of love 0. -/
def candidates (h : Heap) (pages : List PageRef) : List PageRef :=
  if AllLoved h pages then pages else pages.filter fun p => (h.page p).love = 0

/-- The last candidate is the least recently used one. -/
def LastOldest (h : Heap) (pages : List PageRef) : Prop :=
  ∃ p ∈ (candidates h pages).getLast?, ∀ q ∈ candidates h pages, h.time p ≤ h.time q

instance (h : Heap) (pages : List PageRef) : Decidable (LastOldest h pages) :=
  inferInstanceAs (Decidable (∃ p ∈ (candidates h pages).getLast?, ∀ q ∈ candidates h pages,
    h.time p ≤ h.time q))

/-- From the heap `h`, the page `p` is found and the heap `h'` is left: `p` is the least recently used
    page of love 0, and the pages reset are the least recently used of those that were loved. -/
structure Oldest (h h' : Heap) (pages : List PageRef) (p : PageRef) : Prop where
  mem : p ∈ pages
  love_eq : (h'.page p).love = 0
  time_le : ∀ q ∈ pages, (h'.page q).love = 0 → h'.time p ≤ h'.time q
  reset_le : ∀ q ∈ pages, (h.page q).love > 0 → (h'.page q).love = 0 →
    ∀ r ∈ pages, (h.page r).love > 0 → (h'.page r).love ≠ 0 → h.time q ≤ h.time r

/-- The search for a page to evict ends with the right page. -/
def EvictsOldest (h : Heap) (pages : List PageRef) : Prop :=
  ∃ p h', findPageToEvict () h (pages.map some) = .ok (some p, h', ()) ∧ Oldest h h' pages p

theorem candidates_of_allLoved (hall : AllLoved h pages) : candidates h pages = pages := if_pos hall

theorem mem_candidates_of_not_allLoved (hall : ¬AllLoved h pages) :
    p ∈ candidates h pages ↔ p ∈ pages ∧ (h.page p).love = 0 := by
  rw [candidates, if_neg hall, List.mem_filter, decide_eq_true_eq]

theorem candidates_ne_nil (hlove : ∀ p ∈ pages, 0 ≤ (h.page p).love) (hne : pages ≠ []) :
    candidates h pages ≠ [] := by
  by_cases hall : AllLoved h pages
  · rwa [candidates_of_allLoved hall]
  · obtain ⟨p, hp, hle⟩ : ∃ p ∈ pages, (h.page p).love ≤ 0 := by
      simpa only [AllLoved, gt_iff_lt, not_forall, not_lt, exists_prop] using hall
    exact List.ne_nil_of_mem
      ((mem_candidates_of_not_allLoved hall).2 ⟨hp, le_antisymm hle (hlove p hp)⟩)

/-- The last candidate is evicted. -/
theorem findPageToEvict_eq_getLast? (hpast : Past h pages) (hne : pages ≠ []) :
    findPageToEvict () h (pages.map some) =
      .ok ((candidates h pages).getLast?, reduced h pages, ()) := by
  rw [findPageToEvict_eq hpast hne]
  by_cases hall : AllLoved h pages
  · -- The last page has been reset.
    rw [candidates_of_allLoved hall, List.getLast?_eq_some_getLast hne]
    refine congrArg Except.ok (Prod.ext (getLast?_filter_of_getLast hne (decide_eq_true ?_)) rfl)
    rw [reduced_love_of_allLoved hall hne, if_pos rfl]
  · rw [candidates, if_neg hall, reduced_of_not_allLoved hall]

/-- A page of love 0 is found. -/
theorem findPageToEvict_returns (hpast : Past h pages) (hne : pages ≠ [])
    (hlove : ∀ p ∈ pages, 0 ≤ (h.page p).love) :
    ∃ p ∈ pages, findPageToEvict () h (pages.map some) = .ok (some p, reduced h pages, ()) ∧
      ((reduced h pages).page p).love = 0 := by
  have hlast := List.getLast?_eq_some_getLast (candidates_ne_nil hlove hne)
  have heq := (findPageToEvict_eq_getLast? hpast hne).symm.trans (findPageToEvict_eq hpast hne)
  have hmem := List.mem_of_getLast? (hlast ▸ congrArg Prod.fst (Except.ok.inj heq)).symm
  obtain ⟨hp, hz⟩ := List.mem_filter.1 hmem
  refine ⟨_, hp, ?_, of_decide_eq_true hz⟩
  rw [findPageToEvict_eq_getLast? hpast hne, hlast]

/-- The page evicted and the page reset are the least recently used ones if and only if the last page
    that may be taken is the least recently used one. -/
theorem evictsOldest (hne : pages ≠ []) (hpast : Past h pages) :
    EvictsOldest h pages ↔ LastOldest h pages := by
  have heq := findPageToEvict_eq_getLast? hpast hne
  constructor
  · rintro ⟨p, h', heq', hp⟩
    rw [heq] at heq'
    obtain ⟨hlast, hh'⟩ := Prod.mk.inj (Except.ok.inj heq')
    obtain rfl : reduced h pages = h' := congrArg Prod.fst hh'
    refine ⟨p, hlast, fun q hq => ?_⟩
    by_cases hall : AllLoved h pages
    · -- The page `p` has been reset, and `q` is `p` or has not.
      rw [candidates_of_allLoved hall] at hlast hq
      by_cases hz : ((reduced h pages).page q).love = 0
      · simpa only [reduced_time] using hp.time_le q hq hz
      · exact hp.reset_le p hp.mem (hall p hp.mem) hp.love_eq q hq (hall q hq) hz
    · obtain ⟨hq, hz⟩ := (mem_candidates_of_not_allLoved hall).1 hq
      rw [reduced_of_not_allLoved hall] at hp
      exact hp.time_le q hq hz
  · rintro ⟨p, hlast, hle⟩
    refine ⟨p, reduced h pages, by rw [heq, Option.mem_def.1 hlast], ?_⟩
    have hmem := List.mem_of_getLast? hlast
    by_cases hall : AllLoved h pages
    · rw [candidates_of_allLoved hall] at hlast hle hmem
      obtain rfl : pages.getLast hne = p :=
        Option.some.inj ((List.getLast?_eq_some_getLast hne).symm.trans hlast)
      refine ⟨hmem, ?_, fun q hq _ => ?_, fun q hq hpos hz r hr _ _ => ?_⟩
      · rw [reduced_love_of_allLoved hall hne, if_pos rfl]
      · simpa only [reduced_time] using hle q hq
      · -- Only the last page has been reset.
        obtain rfl : q = pages.getLast hne := by
          by_contra hq'
          rw [reduced_love_of_allLoved hall hne, if_neg hq'] at hz
          exact hpos.ne' hz
        exact hle r hr
    · rw [reduced_of_not_allLoved hall]
      obtain ⟨hp, hz⟩ := (mem_candidates_of_not_allLoved hall).1 hmem
      refine ⟨hp, hz, fun q hq hq' => hle q ((mem_candidates_of_not_allLoved hall).2 ⟨hq, hq'⟩), ?_⟩
      intro q _ hpos hz' _ _ _ _
      exact absurd hz' hpos.ne'

/-- The last of two pages of love 0 is evicted, and it is the least recently used one. -/
theorem evictsOldest_of_two :
    EvictsOldest { page := fun p => { time := (3 - p).toNat }, clock := ⟨2⟩ } [1, 2] :=
  (evictsOldest (by decide) (by decide)).2 (by decide)

/-- The last of two pages of love 0 is evicted, and the other one is older. -/
theorem not_evictsOldest_of_two : ¬∀ (h : Heap) (pages : List PageRef), pages ≠ [] →
    (∀ p ∈ pages, 0 ≤ (h.page p).love) → Past h pages → EvictsOldest h pages := by
  intro hevicts
  obtain ⟨p, h', heq, hp⟩ := hevicts { page := fun p => { time := p.toNat }, clock := ⟨2⟩ } [1, 2]
    (by decide) (by decide) (by decide)
  rw [findPageToEvict_eq_getLast? (by decide) (by decide)] at heq
  obtain ⟨hlast, hh'⟩ := Prod.mk.inj (Except.ok.inj heq)
  obtain rfl : 2 = p := Option.some.inj hlast
  obtain rfl := congrArg Prod.fst hh'
  exact absurd (hp.time_le 1 (by decide) (by decide)) (by decide)

/-! ## The pages loved -/

/-- At most half of the pages are loved. -/
def AtMostRatio (h : Heap) (pages : List PageRef) : Prop :=
  (loved h pages : ℚ) ≤ loveQueueRatio * pages.length

/-- The search for a page to evict leaves at most half of the pages loved, and changes the love of no
    page if there were no more before. -/
def KeepsRatio (h : Heap) (pages : List PageRef) : Prop :=
  ∃ p h', findPageToEvict () h (pages.map some) = .ok (p, h', ()) ∧ AtMostRatio h' pages ∧
    (AtMostRatio h pages → ∀ q, (h'.page q).love = (h.page q).love)

theorem atMostRatio_iff : AtMostRatio h pages ↔ 2 * loved h pages ≤ pages.length := by
  rw [AtMostRatio, loveQueueRatio, ← @Nat.cast_le ℚ]
  push_cast
  constructor <;> intro hle <;> linarith

/-- The loop resets all the occurrences of the last page. -/
theorem loved_reduced (hall : AllLoved h pages) (hne : pages ≠ []) :
    loved (reduced h pages) pages + pages.count (pages.getLast hne) = pages.length := by
  rw [pages.length_eq_countP_add_countP (· == pages.getLast hne), List.count, add_comm, loved]
  refine congrArg _ (List.countP_congr fun p hp => ?_)
  rw [reduced_love_of_allLoved hall hne]
  by_cases hlast : p = pages.getLast hne
  · simp [hlast]
  · simp [hlast, hall p hp]

/-- The pages loved are brought to half of the array if and only if there are no more at the beginning,
    or all pages are loved and the last one is half of the array. -/
theorem keepsRatio (hne : pages ≠ []) (hpast : Past h pages) :
    KeepsRatio h pages ↔ AtMostRatio h pages ∨
      AllLoved h pages ∧ ∃ p ∈ pages.getLast?, pages.length ≤ 2 * pages.count p := by
  have heq := findPageToEvict_eq hpast hne
  have hkeeps : KeepsRatio h pages ↔ AtMostRatio (reduced h pages) pages ∧
      (AtMostRatio h pages → ∀ q, ((reduced h pages).page q).love = (h.page q).love) := by
    constructor
    · rintro ⟨p, h', heq', hratio⟩
      rw [heq] at heq'
      obtain rfl : reduced h pages = h' := congrArg (·.2.1) (Except.ok.inj heq')
      exact hratio
    · exact fun hratio => ⟨_, _, heq, hratio⟩
  rw [hkeeps]
  by_cases hall : AllLoved h pages
  · -- More than half of the pages are loved, and the last one is reset.
    have hpos : 0 < pages.length := List.length_pos_iff.2 hne
    have hnot : ¬AtMostRatio h pages := by
      rw [atMostRatio_iff, loved_eq_length.2 hall]
      omega
    have hcount := loved_reduced hall hne
    rw [atMostRatio_iff, List.getLast?_eq_some_getLast hne]
    constructor
    · rintro ⟨hle, -⟩
      exact .inr ⟨hall, _, rfl, by omega⟩
    · rintro (hle | ⟨-, p, hp, hle⟩)
      · exact absurd hle hnot
      · obtain rfl := Option.some.inj hp
        exact ⟨by omega, fun hle => absurd hle hnot⟩
  · -- The loop makes no iteration.
    rw [reduced_of_not_allLoved hall]
    constructor
    · exact fun hle => .inl hle.1
    · rintro (hle | ⟨hall', -⟩)
      · exact ⟨hle, fun _ _ => rfl⟩
      · exact absurd hall' hall

/-- Of two loved pages, one stays loved. -/
theorem keepsRatio_of_two : KeepsRatio { page := fun _ => { love := 1 } } [1, 2] :=
  (keepsRatio (by decide) (by decide)).2 (.inr ⟨by decide, 2, rfl, by decide⟩)

/-- Two of three pages stay loved. -/
theorem not_keepsRatio_of_three : ¬∀ (h : Heap) (pages : List PageRef), pages ≠ [] →
    (∀ p ∈ pages, 0 ≤ (h.page p).love) → Past h pages → KeepsRatio h pages := by
  intro hkeeps
  obtain ⟨p, h', heq, hratio, -⟩ := hkeeps { page := fun p => { love := if p = 3 then 0 else 1 } }
    [1, 2, 3] (by decide) (by decide) (by decide)
  rw [findPageToEvict_eq (by decide) (by decide)] at heq
  obtain rfl := congrArg (·.2.1) (Except.ok.inj heq)
  exact absurd (atMostRatio_iff.1 hratio) (by decide)

end MultiLevelQueueReplacementPolicy

end Mcpq.Simulator
