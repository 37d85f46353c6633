import Mcpq.Kernel.PageAlloc.Run
import Mathlib.Algebra.Order.BigOperators.Group.Finset
import Mathlib.Algebra.Order.Ring.Int

/-!
# What the page allocator ensures

Results about all states that the page allocator of a zone reaches, for the lists of the CPUs in runs in
which they are not resized. No page is lost or held twice, and the counters are exact
(`pages_accounted`). The free blocks depend on nothing but the free pages (`free_eq_maximal`), so that a
block that is allocated and freed leaves no trace (`free_of_alloc`), and draining the lists of the CPUs
leaves the blocks that the pages in use allow for (`drainAllPages_free`). Freeing ends (`frees_end`), and
allocating fails only if there is no block (`alloc_fails_iff`): if the watermarks were checked, only if
the zone is empty (`alloc_of_watermark`).
-/

namespace Mcpq.Kernel.PageAlloc

open Finset

variable {c : Config} {cpus cpu : ℕ} {boot : List (ℕ × ℕ)} {x : State × List (ℕ × ℕ)} {o p t : ℕ}
  {z z' : Zone}

/-! ## Accounting -/

/-- Every page is free, on the list of a CPU or in use, and the counters are exact. -/
theorem pages_accounted (hb : Boot c boot)
    (h : (allocator c cpus boot).ReachableBy (fun _ i => i.Sized) x) :
    Custody c (pagesOf boot) x.1.zone (x.1.cached cpus ++ x.2) ∧
      x.1.nrFreePages = (covered x.1.zone.free).ncard ∧
      (∀ cpu < cpus, (x.1.pageset cpu).count = (blocksOn (x.1.pageset cpu).lists).length) ∧
      x.1.nrFreePages = ∑ o ∈ range c.maxOrder, x.1.zone.nrFree o * 2 ^ o := by
  have hinv := inv_of_reachable hb h.reachable
  exact ⟨hinv.custody, hinv.nrFreePages_eq, hinv.count_eq,
    hinv.nrFreePages_eq.trans hinv.custody.ok.ncard_covered.2⟩

/-- Six of the eight pages are free, and two are given out. -/
theorem pages_accounted_small :
    Custody smallZone (pagesOf smallBoot) smallState.zone [(0, 0), (0, 1)] ∧
      ((covered smallState.zone.free).ncard : ℤ) = 6 := by
  obtain ⟨hcust, hnr, -⟩ := pages_accounted smallBoot_boot smallState_reachableBy
  exact ⟨hcust, hnr.symm⟩

theorem Custody.covered_free {F : Set ℕ} {H : List (ℕ × ℕ)} (h : Custody c F z H) :
    covered z.free = F \ pagesOf H := by
  rw [← h.covered_eq, Set.union_sdiff_right, sdiff_eq_left.2 h.disjoint]

/-- The free blocks are the greatest ones of the pages that are not held, whatever happened before. -/
theorem free_eq_maximal (hb : Boot c boot) (h : (allocator c cpus boot).Reachable x) :
    x.1.zone.free = maximalBlocks c.maxOrder (pagesOf boot \ pagesOf (x.1.cached cpus ++ x.2)) := by
  have hcust := (inv_of_reachable hb h).custody
  rw [hcust.ok.system.eq_maximal, hcust.covered_free]

/-- The free lists of the small zone after two pages have been taken. -/
theorem free_eq_maximal_small : smallState.zone.free =
    maximalBlocks 3 (pagesOf smallBoot \ pagesOf [(0, 0), (0, 1)]) :=
  free_eq_maximal smallBoot_boot smallState_reachable

/-- Freeing a block or draining the lists of a CPU ends: there is a page for each one to be freed. -/
theorem frees_end (hb : Boot c boot)
    (h : (allocator c cpus boot).ReachableBy (fun _ i => i.Sized) x) (hi : cpu < cpus) :
    (∀ b ∈ x.2, ∃ s', freePages c x.1 cpu b.2 b.1 = some s') ∧
      (∀ cold, ∀ p, (0, p) ∈ x.2 → ∃ s', freeHotColdPage c x.1 cpu p cold = some s') ∧
      (∃ s', drainZonePages c x.1 cpu = some s') ∧
      ∃ s', drainPages c x.1 cpu = some s' ∧ blocksOn (s'.pageset cpu).lists = [] := by
  have hinv := inv_of_reachable hb h.reachable
  have huse : ∀ b ∈ x.2, Inv c cpus (pagesOf boot) x.1 (b :: x.2.erase b) := fun b hb =>
    hinv.perm_used (List.perm_cons_erase hb)
  refine ⟨fun b hb => ?_, fun cold p hp => ?_, ?_, ?_⟩
  · obtain ⟨s', hs', -⟩ := (huse b hb).freePages hi
    exact ⟨s', hs'⟩
  · obtain ⟨s', hs', -⟩ := (huse (0, p) hp).freeHotColdPage hi cold
    exact ⟨s', hs'⟩
  · obtain ⟨s', hs', -⟩ := hinv.drainZonePages hi
    exact ⟨s', hs'⟩
  · obtain ⟨s', hs', hinv', hzero, -⟩ := hinv.drainPages hi
    have hcount := hinv'.count_eq cpu hi
    rw [hzero] at hcount
    exact ⟨s', hs', List.length_eq_zero_iff.1 (by exact_mod_cast hcount.symm)⟩

/-- One page of the two is given back. -/
theorem frees_end_small : ∃ s', freePages smallZone smallState 1 0 0 = some s' :=
  (frees_end smallBoot_boot smallState_reachableBy (by decide)).1 (0, 0) (by decide)

/-- A block that is allocated and freed again, maybe by another CPU, leaves no trace: the halves that
    it was split off are merged with it, on whichever lists they are. -/
theorem free_of_alloc (hb : Boot c boot) (h : (allocator c cpus boot).Reachable x) (hi : cpu < cpus)
    (ht : t < migratePcptypes) (ho : o ≠ 0) {cold : Bool} {s' : State}
    (ha : bufferedRmqueue c x.1 cpu o t cold = (s', some p)) (cpu' : ℕ) :
    ∃ s'', freePages c s' cpu' p o = some s'' ∧ s''.zone.free = x.1.zone.free ∧
      s''.zone.nrFree = x.1.zone.nrFree ∧ s''.nrFreePages = x.1.nrFreePages ∧
      s''.pageset = x.1.pageset := by
  have hinv := inv_of_reachable hb h
  have hused : Inv c cpus (pagesOf boot) s' ((o, p) :: x.2) :=
    hinv.bufferedRmqueue hb.contiguous hi ht ha
  have hpageset : s'.pageset = x.1.pageset := by
    rw [bufferedRmqueue, if_neg ho] at ha
    cases hs : rmqueue c x.1.zone o t with
    | none =>
      rw [hs] at ha
      cases ha
    | some zp =>
      rw [hs] at ha
      cases ha
      rfl
  have hfreed := hused.freePage (hused.typed (c.pfnToBitidx p))
  -- The same pages are free as before.
  have hcached : (freePage c s' p o (getPageblockMigratetype c s'.zone p)).cached cpus =
      x.1.cached cpus := by
    rw [State.cached, State.cached, ← hpageset]
    rfl
  have hcov : covered (freePage c s' p o (getPageblockMigratetype c s'.zone p)).zone.free =
      covered x.1.zone.free := by
    rw [hinv.custody.covered_free, ← hcached]
    exact hfreed.custody.covered_free
  have hfree : (freePage c s' p o (getPageblockMigratetype c s'.zone p)).zone.free =
      x.1.zone.free := by
    rw [hinv.custody.ok.system.eq_maximal, ← hcov]
    exact hfreed.custody.ok.system.eq_maximal
  refine ⟨_, (if_neg ho).trans rfl, hfree, funext fun k => ?_, ?_, hpageset⟩
  · rw [hinv.custody.ok.nrFree_eq_blocks, Zone.blocks, ← hfree]
    exact hfreed.custody.ok.nrFree_eq_blocks k
  · rw [hinv.nrFreePages_eq, ← hcov]
    exact hfreed.nrFreePages_eq

/-- A block of two pages is taken, and given back by another CPU. -/
theorem free_of_alloc_small : ∃ s'', freePages smallZone
    (bufferedRmqueue smallZone smallState 0 1 migrateUnmovable false).1 1 4 1 = some s'' ∧
      s''.zone.free = smallState.zone.free := by
  have halloc : bufferedRmqueue smallZone smallState 0 1 migrateUnmovable false =
      ((bufferedRmqueue smallZone smallState 0 1 migrateUnmovable false).1, some 4) := rfl
  obtain ⟨s'', hs'', hfree, -⟩ := free_of_alloc smallBoot_boot smallState_reachable (by decide)
    (by decide) (by decide) halloc 1
  exact ⟨s'', hs'', hfree⟩

/-- When the lists of all CPUs are drained, the free blocks are the greatest ones of the pages that
    are not in use. -/
theorem drainAllPages_free (hb : Boot c boot)
    (h : (allocator c cpus boot).ReachableBy (fun _ i => i.Sized) x) :
    ∃ s', drainAllPages c x.1 cpus = some s' ∧ s'.cached cpus = [] ∧
      s'.zone.free = maximalBlocks c.maxOrder (pagesOf boot \ pagesOf x.2) ∧
      s'.nrFreePages = (pagesOf boot \ pagesOf x.2).ncard := by
  obtain ⟨s', hs', hinv, hnil⟩ := (inv_of_reachable hb h.reachable).drainAllPages
  have hcust := hinv.custody
  rw [hnil, List.nil_append] at hcust
  refine ⟨s', hs', hnil, ?_, ?_⟩
  · rw [hcust.ok.system.eq_maximal, hcust.covered_free]
  · rw [hinv.nrFreePages_eq, hcust.covered_free]

/-- The lists of both CPUs are drained. -/
theorem drainAllPages_free_small : ∃ s', drainAllPages smallZone smallState 2 = some s' ∧
    s'.zone.free = maximalBlocks 3 (pagesOf smallBoot \ pagesOf [(0, 0), (0, 1)]) := by
  obtain ⟨s', hs', -, hfree, -⟩ := drainAllPages_free smallBoot_boot smallState_reachableBy
  exact ⟨s', hs', hfree⟩

/-! ## Failures -/

/-- An allocation fails if there is no aligned block of free pages. -/
theorem Ok.rmqueue_eq_none_iff (h : Ok c z) (ht : t < migratePcptypes) : rmqueue c z o t = none ↔
    ∀ p, o < c.maxOrder → 2 ^ o ∣ p → ¬blockOf o p ⊆ covered z.free := by
  rw [PageAlloc.rmqueue_eq_none_iff ht]
  constructor
  · intro hnil p ho hp hsub
    obtain ⟨k, q, ⟨u, hq⟩, hok, -⟩ := h.system.exists_of_subset ho hp hsub
    rw [hnil k u hok (h.order_lt hq) (h.type_lt k u q hq)] at hq
    exact List.not_mem_nil hq
  · intro hnone k u hok hk _
    rw [List.eq_nil_iff_forall_not_mem]
    intro q hq
    refine hnone q (hok.trans_lt hk) ((pow_dvd_pow 2 hok).trans (h.aligned hq)) fun x hx => ?_
    exact ⟨k, q, ⟨u, hq⟩, hx.1, hx.2.trans_le
      (Nat.add_le_add_left (Nat.pow_le_pow_right Nat.two_pos hok) q)⟩

theorem rmqueueBulkLoop_length {n : ℕ} {pages : List ℕ} :
    pages.length ≤ (rmqueueBulkLoop c o t n z pages).2.length := by
  induction n generalizing z pages with
  | zero => exact le_rfl
  | succ n ih =>
    rw [rmqueueBulkLoop]
    cases rmqueue c z o t with
    | none => exact le_rfl
    | some zp =>
      have hlen : (pages ++ [zp.2]).length ≤ (rmqueueBulkLoop c o t n
        (zp.1.setPagePrivate zp.2 t) (pages ++ [zp.2])).2.length := ih
      rw [List.length_append] at hlen
      exact (Nat.le_add_right ..).trans hlen

/-- No page is taken off the zone if and only if there is none. -/
theorem rmqueueBulkLoop_eq_nil_iff {n : ℕ} (hn : 0 < n) :
    (rmqueueBulkLoop c o t n z []).2 = [] ↔ rmqueue c z o t = none := by
  obtain ⟨n, rfl⟩ := Nat.exists_eq_succ_of_ne_zero hn.ne'
  rw [rmqueueBulkLoop]
  cases rmqueue c z o t with
  | none => exact ⟨fun _ => rfl, fun _ => rfl⟩
  | some zp =>
    refine ⟨fun hnil => ?_, fun h => absurd h (Option.some_ne_none zp)⟩
    have hlen : ([] ++ [zp.2]).length ≤ (rmqueueBulkLoop c o t n
      (zp.1.setPagePrivate zp.2 t) ([] ++ [zp.2])).2.length := rmqueueBulkLoop_length
    change (rmqueueBulkLoop c o t n (zp.1.setPagePrivate zp.2 t) ([] ++ [zp.2])).2 = [] at hnil
    rw [hnil] at hlen
    exact absurd hlen (Nat.not_succ_le_zero 0)

theorem takePage_eq_none_iff {s : State} {cold : Bool} :
    (takePage s cpu t cold).2 = none ↔ (s.pageset cpu).lists t = [] := by
  rw [takePage]
  dsimp only
  cases hp : (if cold = true then ((s.pageset cpu).lists t).getLast?
      else ((s.pageset cpu).lists t).head?) with
  | none =>
    split_ifs at hp
    · simpa using hp
    · simpa using hp
  | some p =>
    refine ⟨fun h => absurd h (Option.some_ne_none p), fun hnil => ?_⟩
    rw [hnil] at hp
    split_ifs at hp <;> cases hp

/-- The list of a CPU is filled, unless the zone has no page. -/
theorem rmqueueBulk_eq_nil_iff {s : State} {cold : Bool} (hnil : (s.pageset cpu).lists t = [])
    (hn : 0 < (s.pageset cpu).batch) :
    ((rmqueueBulk c s cpu t cold).pageset cpu).lists t = [] ↔ rmqueue c s.zone 0 t = none := by
  rw [← rmqueueBulkLoop_eq_nil_iff hn, rmqueueBulk]
  change (Function.update s.pageset cpu _ cpu).lists t = [] ↔ _
  rw [Function.update_self]
  change Function.update (s.pageset cpu).lists t _ t = [] ↔ _
  rw [Function.update_self, hnil]
  split_ifs
  · rw [List.nil_append, List.reverse_eq_nil_iff]
  · rw [List.append_nil]

theorem Inv.alloc_eq_none_iff {F : Set ℕ} {s : State} {U : List (ℕ × ℕ)} {cold : Bool}
    (h : Inv c cpus F s U) (hi : cpu < cpus) :
    (PageAlloc.bufferedRmqueue c s cpu o t cold).2 = none ↔
      (o = 0 → (s.pageset cpu).lists t = []) ∧ rmqueue c s.zone o t = none := by
  rw [PageAlloc.bufferedRmqueue]
  by_cases ho : o = 0
  · subst ho
    rw [if_pos rfl, takePage_eq_none_iff]
    split_ifs with hnil
    · rw [rmqueueBulk_eq_nil_iff hnil (h.batch_pos cpu hi), and_iff_right fun _ => hnil]
    · exact ⟨fun hnil' => absurd hnil' hnil, fun hand => absurd (hand.1 rfl) hnil⟩
  · rw [if_neg ho, and_iff_right fun heq => absurd heq ho]
    cases rmqueue c s.zone o t with
    | none => exact ⟨fun _ => rfl, fun _ => rfl⟩
    | some zp => exact iff_of_false (Option.some_ne_none _) (Option.some_ne_none _)

/-- An allocation fails if there is no block in the zone, and no single page on the list of the CPU. -/
theorem alloc_fails_iff (hb : Boot c boot) (h : (allocator c cpus boot).Reachable x)
    (hi : cpu < cpus) (ht : t < migratePcptypes) (cold : Bool) :
    (bufferedRmqueue c x.1 cpu o t cold).2 = none ↔
      (o = 0 → (x.1.pageset cpu).lists t = []) ∧
        ∀ p, o < c.maxOrder → 2 ^ o ∣ p →
          ¬blockOf o p ⊆ pagesOf boot \ pagesOf (x.1.cached cpus ++ x.2) := by
  have hinv := inv_of_reachable hb h
  rw [← hinv.custody.covered_free, ← hinv.custody.ok.rmqueue_eq_none_iff ht,
    hinv.alloc_eq_none_iff hi]

/-- A request of four pages, when six are free. -/
theorem alloc_fails_iff_small : (bufferedRmqueue smallZone smallState 0 2 migrateMovable false).2 = none ↔
    (2 = 0 → (smallState.pageset 0).lists migrateMovable = []) ∧ ∀ p, 2 < 3 → 2 ^ 2 ∣ p →
      ¬blockOf 2 p ⊆ pagesOf smallBoot \ pagesOf [(0, 0), (0, 1)] :=
  alloc_fails_iff smallBoot_boot smallState_reachable (by decide) (by decide) false

/-- The check leaves more free pages than the blocks of lower orders have. -/
theorem watermarkLoop_pos {n k : ℕ} {freePages min : ℤ} (hmin : 0 ≤ min)
    (hfree : n = 0 → 0 < freePages) (h : watermarkLoop z n k freePages min = true) :
    0 < freePages - ∑ o ∈ range n, z.nrFree (k + o) * 2 ^ (k + o) := by
  induction n generalizing k freePages min with
  | zero =>
    rw [range_zero, sum_empty, sub_zero]
    exact hfree rfl
  | succ n ih =>
    rw [watermarkLoop] at h
    split_ifs at h with hle
    have hmin' : 0 ≤ min / 2 := Int.ediv_nonneg hmin (by decide)
    have hpos := ih hmin' (fun _ => lt_of_le_of_lt hmin' (not_le.1 hle)) h
    rw [sum_range_succ']
    have hshift : ∀ o, k + 1 + o = k + (o + 1) := fun o => by omega
    simp only [hshift] at hpos
    rw [Nat.add_zero]
    omega

/-- The number of pages that the check compares with, at least. -/
def watermark (mark : ℕ) (high harder : Bool) : ℤ :=
  let min : ℤ := if high then mark - mark / 2 else mark
  if harder then min - min / 4 else min

theorem watermark_nonneg (mark : ℕ) (high harder : Bool) : 0 ≤ watermark mark high harder := by
  rw [watermark]
  split_ifs <;> omega

theorem zoneWatermarkOk_eq {mark lowmemReserve : ℕ} {high harder : Bool} {freePages : ℤ}
    (hmark : mark < 2 ^ 31) : zoneWatermarkOk z o mark lowmemReserve high harder freePages =
      (decide (¬(freePages - (2 ^ o + 1)) % 2 ^ 32 ≤
          (watermark mark high harder + lowmemReserve) % 2 ^ 32) &&
        watermarkLoop z o 0 (freePages - (2 ^ o + 1)) (watermark mark high harder)) := by
  have hbmod : Int.bmod mark (2 ^ 32) = mark :=
    Int.bmod_eq_of_le_mul_two (by omega) (by omega)
  have hhigh : (0 : ℤ) ≤ if high = true then (mark : ℤ) - mark / 2 else mark := by
    split_ifs <;> omega
  rw [zoneWatermarkOk, watermark]
  simp only [hbmod, Int.tdiv_eq_ediv_of_nonneg (Int.natCast_nonneg mark),
    Int.tdiv_eq_ediv_of_nonneg hhigh]
  generalize (if harder = true then _ else _ : ℤ) = min
  by_cases hle : (freePages - (2 ^ o + 1)) % 2 ^ 32 ≤ (min + lowmemReserve) % 2 ^ 32
  · rw [if_pos hle, decide_eq_false (not_not.2 hle), Bool.false_and]
  · rw [if_neg hle, decide_eq_true hle, Bool.true_and]

/-- If the check passes, the blocks of lower orders do not have all free pages; or none is free. -/
theorem zoneWatermarkOk_pos {mark lowmemReserve : ℕ} {high harder : Bool} {freePages : ℤ}
    (hmark : mark < 2 ^ 31) (hfree : o = 0 → 0 < freePages)
    (h : zoneWatermarkOk z o mark lowmemReserve high harder freePages = true) :
    ∑ k ∈ range o, z.nrFree k * 2 ^ k < freePages := by
  rw [zoneWatermarkOk_eq hmark, Bool.and_eq_true] at h
  rcases Nat.eq_zero_or_pos o with rfl | ho
  · rw [range_zero, sum_empty]
    exact hfree rfl
  · have hpos := watermarkLoop_pos (watermark_nonneg ..) (fun h0 => absurd h0 ho.ne') h.2
    have hpow : (0 : ℤ) < 2 ^ o := Int.pow_pos (by decide)
    simp only [Nat.zero_add] at hpos
    omega

/-- The comparison is unsigned, so that the check passes for an empty zone. -/
theorem zoneWatermarkOk_empty {mark lowmemReserve : ℕ} {high harder : Bool} (hmark : mark < 2 ^ 31)
    (hreserve : watermark mark high harder + lowmemReserve < 2 ^ 32 - 2) :
    zoneWatermarkOk z 0 mark lowmemReserve high harder 0 = true := by
  have hnonneg := watermark_nonneg mark high harder
  rw [zoneWatermarkOk_eq hmark, watermarkLoop, Bool.and_true, decide_eq_true_iff]
  omega

/-- If the number of free pages passes the check, there is a block of the order or of a greater one. -/
theorem Ok.rmqueue_of_watermark (h : Ok c z) (ht : t < migratePcptypes)
    (hlt : ∑ k ∈ range o, z.nrFree k * 2 ^ k < ∑ k ∈ range c.maxOrder, z.nrFree k * 2 ^ k) :
    rmqueue c z o t ≠ none := by
  rw [ne_eq, PageAlloc.rmqueue_eq_none_iff ht]
  intro hnil
  -- There is no block of the order or of a greater one.
  have hzero : ∀ k, o ≤ k → z.nrFree k = 0 := fun k hk => by
    rw [h.nrFree_eq]
    refine sum_eq_zero fun u _ => ?_
    have hempty : z.freeList k u = [] := by
      rw [List.eq_nil_iff_forall_not_mem]
      intro q hq
      rw [hnil k u hk (h.order_lt hq) (h.type_lt k u q hq)] at hq
      exact List.not_mem_nil hq
    rw [hempty]
    rfl
  have hnonneg : ∀ k, 0 ≤ z.nrFree k * 2 ^ k := fun k => by
    rw [h.nrFree_eq]
    exact mul_nonneg (sum_nonneg fun _ _ => Int.natCast_nonneg _) (Int.pow_nonneg (by decide))
  refine absurd hlt (not_lt.2 ?_)
  rcases le_total o c.maxOrder with hle | hle
  · rw [← sum_subset (range_mono hle) fun k _ hk => ?_]
    rw [hzero k (not_lt.1 fun hlt => hk (mem_range.2 hlt)), zero_mul]
  · exact sum_le_sum_of_subset_of_nonneg (range_mono hle) fun k _ _ => hnonneg k

/-- An allocation whose order passes the check of the watermarks fails only if it is one of a single
    page, there is none, and the list of the CPU is empty. For an empty zone the check does pass. -/
theorem alloc_of_watermark (hb : Boot c boot) (h : (allocator c cpus boot).Reachable x)
    (hi : cpu < cpus) (ht : t < migratePcptypes) (cold : Bool) {mark lowmemReserve : ℕ}
    {high harder : Bool} (hmark : mark < 2 ^ 31) :
    (zoneWatermarkOk x.1.zone o mark lowmemReserve high harder x.1.nrFreePages = true →
      ((bufferedRmqueue c x.1 cpu o t cold).2 = none ↔
        o = 0 ∧ x.1.nrFreePages = 0 ∧ (x.1.pageset cpu).lists t = [])) ∧
      (x.1.nrFreePages = 0 → watermark mark high harder + lowmemReserve < 2 ^ 32 - 2 →
        zoneWatermarkOk x.1.zone 0 mark lowmemReserve high harder x.1.nrFreePages = true) := by
  have hinv := inv_of_reachable hb h
  refine ⟨fun hw => ?_, fun hnr hreserve => hnr ▸ zoneWatermarkOk_empty hmark hreserve⟩
  rw [hinv.alloc_eq_none_iff hi]
  have hsum := hinv.nrFreePages_eq.trans hinv.custody.ok.ncard_covered.2
  constructor
  · rintro ⟨hnil, hnone⟩
    by_contra hne
    have hfree : o = 0 → 0 < x.1.nrFreePages := fun ho => by
      have hnr : x.1.nrFreePages ≠ 0 := fun hnr => hne ⟨ho, hnr, hnil ho⟩
      rw [hinv.nrFreePages_eq] at hnr ⊢
      omega
    have hlt := zoneWatermarkOk_pos hmark hfree hw
    rw [hsum] at hlt
    exact hinv.custody.ok.rmqueue_of_watermark ht hlt hnone
  · rintro ⟨rfl, hnr, hnil⟩
    refine ⟨fun _ => hnil, (hinv.custody.ok.rmqueue_eq_none_iff ht).2 fun p _ _ hsub => ?_⟩
    have hcov : covered x.1.zone.free = ∅ := by
      rw [hinv.nrFreePages_eq] at hnr
      exact (Set.ncard_eq_zero hinv.custody.ok.ncard_covered.1).1 (by exact_mod_cast hnr)
    have hmem := hsub (self_mem_blockOf 0 p)
    rw [hcov] at hmem
    exact hmem

/-- A request of two pages, which the watermark lets through. -/
theorem alloc_of_watermark_small :
    (bufferedRmqueue smallZone smallState 0 1 migrateMovable false).2 ≠ none := by
  have hok : zoneWatermarkOk smallState.zone 1 2 0 false false smallState.nrFreePages = true := by
    decide
  rw [ne_eq, (alloc_of_watermark smallBoot_boot smallState_reachable (by decide) (by decide) false
    (by decide)).1 hok]
  exact fun h => absurd h.1 (by decide)

end Mcpq.Kernel.PageAlloc
