import Mcpq.Kernel.PageAlloc.Outcome
import Mathlib.Tactic.Ring

/-!
# The fragmentation index

What `fragmentation_index` and `unusable_free_index` tell about a zone, in all states that the page
allocator reaches. The fragmentation index is -1000 if and only if there is a block of the order
(`fragmentationIndex_spec`). Otherwise it is between 0 and 1000, as its comment says, unless there is a
single free block. The other index is the share of the free pages that are in no block of the order
(`unusableFreeIndex_spec`).
-/

namespace Mcpq.Kernel.PageAlloc

open Finset

variable {c : Config} {cpus : ℕ} {boot : List (ℕ × ℕ)} {x : State × List (ℕ × ℕ)} {o : ℕ}
  {z : Zone}

/-- `struct contig_page_info`. The numbers are far from overflowing. -/
structure ContigPageInfo where
  freePages : ℕ := 0
  freeBlocksTotal : ℕ := 0
  freeBlocksSuitable : ℕ := 0

/-- The body of the loop of `fill_contig_page_info`. -/
def ContigPageInfo.countOrder (z : Zone) (suitableOrder : ℕ) (info : ContigPageInfo) (order : ℕ) :
    ContigPageInfo :=
  let blocks := (z.nrFree order).toNat
  { freePages := info.freePages + blocks <<< order
    freeBlocksTotal := info.freeBlocksTotal + blocks
    freeBlocksSuitable := info.freeBlocksSuitable +
      if suitableOrder ≤ order then blocks <<< (order - suitableOrder) else 0 }

/-- `fill_contig_page_info`. -/
def fillContigPageInfo (c : Config) (z : Zone) (suitableOrder : ℕ) : ContigPageInfo :=
  (List.range c.maxOrder).foldl (ContigPageInfo.countOrder z suitableOrder) {}

/-- `__fragmentation_index`. -/
def ContigPageInfo.fragmentationIndex (order : ℕ) (info : ContigPageInfo) : ℤ :=
  let requested := 1 <<< order
  if info.freeBlocksTotal = 0 then 0
  -- The index only makes sense when a request would fail.
  else if info.freeBlocksSuitable ≠ 0 then -1000
  else 1000 - ((1000 + info.freePages * 1000 / requested) / info.freeBlocksTotal : ℕ)

/-- `unusable_free_index`. -/
def ContigPageInfo.unusableFreeIndex (order : ℕ) (info : ContigPageInfo) : ℕ :=
  -- No free memory is interpreted as all free memory being unusable.
  if info.freePages = 0 then 1000
  else (info.freePages - info.freeBlocksSuitable <<< order) * 1000 / info.freePages

/-- `fragmentation_index`. -/
def fragmentationIndex (c : Config) (z : Zone) (order : ℕ) : ℤ :=
  (fillContigPageInfo c z order).fragmentationIndex order

/-! ## Counting the blocks -/

theorem fillContigPageInfo_eq (h : Ok c z) (o : ℕ) : fillContigPageInfo c z o =
    { freePages := ∑ k ∈ range c.maxOrder, z.blocks k * 2 ^ k
      freeBlocksTotal := ∑ k ∈ range c.maxOrder, z.blocks k
      freeBlocksSuitable := ∑ k ∈ range c.maxOrder,
        if o ≤ k then z.blocks k * 2 ^ (k - o) else 0 } := by
  rw [fillContigPageInfo]
  induction c.maxOrder with
  | zero => rfl
  | succ n ih =>
    have hblocks : (z.nrFree n).toNat = z.blocks n := by
      rw [h.nrFree_eq_blocks, Int.toNat_natCast]
    rw [List.range_succ, List.foldl_append, ih, List.foldl_cons, List.foldl_nil,
      ContigPageInfo.countOrder, hblocks, sum_range_succ, sum_range_succ, sum_range_succ,
      Nat.shiftLeft_eq, Nat.shiftLeft_eq]

namespace Ok

theorem blocks_eq_zero_iff (h : Ok c z) : z.blocks o = 0 ↔ ∀ p, (o, p) ∉ z.free := by
  rw [Zone.blocks, Set.ncard_eq_zero (h.finite_blocks o)]
  exact Set.eq_empty_iff_forall_notMem

theorem freeBlocksTotal_eq (h : Ok c z) : (fillContigPageInfo c z o).freeBlocksTotal = z.free.ncard := by
  have hsum := h.sum_free fun _ => 1
  rw [sum_const, nsmul_eq_mul, Nat.cast_id, Nat.mul_one, ← Set.ncard_eq_toFinset_card _ h.finite_free]
    at hsum
  simp only [Nat.mul_one] at hsum
  rw [fillContigPageInfo_eq h, hsum]

theorem freePages_eq (h : Ok c z) :
    (fillContigPageInfo c z o).freePages = (covered z.free).ncard := by
  rw [fillContigPageInfo_eq h, (h.system.finite h.finite_free).2, h.sum_free fun k => 2 ^ k]

/-- The pages of the free blocks are those of the suitable ones, and of those that are not. -/
theorem freePages_sub (h : Ok c z) : (fillContigPageInfo c z o).freePages -
    (fillContigPageInfo c z o).freeBlocksSuitable <<< o = (covered {b ∈ z.free | b.1 < o}).ncard := by
  have hsub : {b ∈ z.free | b.1 < o} ⊆ z.free := fun b hb => hb.1
  have hfilter : (h.finite_free.subset hsub).toFinset =
      h.finite_free.toFinset.filter fun b => b.1 < o := by
    ext b
    simp
  have hsmall : (covered {b ∈ z.free | b.1 < o}).ncard =
      ∑ k ∈ range c.maxOrder, z.blocks k * if k < o then 2 ^ k else 0 := by
    rw [((h.system.mono hsub).finite (h.finite_free.subset hsub)).2, hfilter, sum_filter]
    exact h.sum_free fun k => if k < o then 2 ^ k else 0
  rw [hsmall, fillContigPageInfo_eq h, Nat.shiftLeft_eq]
  dsimp only
  rw [sum_mul]
  refine Nat.sub_eq_of_eq_add ?_
  rw [← sum_add_distrib]
  refine sum_congr rfl fun k _ => ?_
  rcases Nat.lt_or_ge k o with hko | hok
  · rw [if_pos hko, if_neg (not_le.2 hko), Nat.zero_mul, Nat.add_zero]
  · rw [if_neg (not_lt.2 hok), if_pos hok, Nat.mul_zero, Nat.zero_add, Nat.mul_assoc, ← pow_add,
      Nat.sub_add_cancel hok]

theorem suitable_eq_zero (h : Ok c z) : (fillContigPageInfo c z o).freeBlocksSuitable = 0 ↔
    ∀ k < c.maxOrder, o ≤ k → z.blocks k = 0 := by
  rw [fillContigPageInfo_eq h, sum_eq_zero_iff]
  refine forall_congr' fun k => ?_
  rw [mem_range]
  refine forall_congr' fun _ => ?_
  split_ifs with hok
  · simp [hok]
  · simp [hok]

/-- There is no block of the order if and only if allocating one fails. -/
theorem suitable_eq_zero_iff (h : Ok c z) {t : ℕ} (ht : t < migratePcptypes) :
    (fillContigPageInfo c z o).freeBlocksSuitable = 0 ↔ rmqueue c z o t = none := by
  rw [h.suitable_eq_zero, PageAlloc.rmqueue_eq_none_iff ht]
  constructor
  · intro hzero k u hok hk _
    rw [List.eq_nil_iff_forall_not_mem]
    exact fun q hq => h.blocks_eq_zero_iff.1 (hzero k hk hok) q ⟨u, hq⟩
  · intro hnil k hk hok
    refine h.blocks_eq_zero_iff.2 fun p hp => ?_
    obtain ⟨u, hp⟩ := hp
    have hmem : p ∈ z.freeList k u := hp
    rw [hnil k u hok hk (h.type_lt k u p hmem)] at hmem
    exact List.not_mem_nil hmem

/-! ## The index -/

theorem fragmentationIndex_of_suitable (h : Ok c z)
    (hs : (fillContigPageInfo c z o).freeBlocksSuitable ≠ 0) : fragmentationIndex c z o = -1000 := by
  have htotal : (fillContigPageInfo c z o).freeBlocksTotal ≠ 0 := by
    intro htotal
    rw [fillContigPageInfo_eq h, sum_eq_zero_iff] at htotal
    exact hs (h.suitable_eq_zero.2 fun k hk _ => htotal k (mem_range.2 hk))
  rw [fragmentationIndex, ContigPageInfo.fragmentationIndex, if_neg htotal, if_pos hs]

/-- A single free block, of a lower order. -/
theorem fragmentationIndex_of_single (h : Ok c z) {b : ℕ × ℕ} (hfree : z.free = {b}) (hb : b.1 < o) :
    fragmentationIndex c z o = -(1000 * 2 ^ b.1 / 2 ^ o : ℕ) := by
  have hs : (fillContigPageInfo c z o).freeBlocksSuitable = 0 := by
    refine h.suitable_eq_zero.2 fun k _ hok => h.blocks_eq_zero_iff.2 fun p hp => ?_
    rw [hfree] at hp
    have hk : k = b.1 := congrArg Prod.fst hp
    omega
  have htotal : (fillContigPageInfo c z o).freeBlocksTotal = 1 := by
    rw [h.freeBlocksTotal_eq, hfree, Set.ncard_singleton]
  have hpages : (fillContigPageInfo c z o).freePages = 2 ^ b.1 := by
    have hsingle : h.finite_free.toFinset = {b} := by
      ext
      simp [hfree]
    rw [h.freePages_eq, (h.system.finite h.finite_free).2, hsingle, sum_singleton]
  rw [fragmentationIndex, ContigPageInfo.fragmentationIndex, hs, htotal, hpages, Nat.shiftLeft_eq,
    Nat.one_mul, Nat.div_one, Nat.mul_comm]
  push_cast
  simp

/-- The blocks of lower orders have at most half the pages that as many blocks of the order have. -/
theorem freePages_le (h : Ok c z) (hs : (fillContigPageInfo c z o).freeBlocksSuitable = 0) :
    2 * (fillContigPageInfo c z o).freePages ≤ (fillContigPageInfo c z o).freeBlocksTotal * 2 ^ o := by
  rw [h.suitable_eq_zero] at hs
  rw [fillContigPageInfo_eq h, mul_sum, sum_mul]
  refine sum_le_sum fun k hk => ?_
  rcases Nat.lt_or_ge k o with hko | hok
  · calc 2 * (z.blocks k * 2 ^ k) = z.blocks k * 2 ^ (k + 1) := by ring
      _ ≤ z.blocks k * 2 ^ o := Nat.mul_le_mul_left _ (Nat.pow_le_pow_right Nat.two_pos hko)
  · rw [hs k (mem_range.1 hk) hok]
    simp

/-- Without a single free block, the index is between 0 and 1. -/
theorem fragmentationIndex_le (h : Ok c z) (hs : (fillContigPageInfo c z o).freeBlocksSuitable = 0)
    (hne : ∀ b, z.free ≠ {b}) : 0 ≤ fragmentationIndex c z o ∧ fragmentationIndex c z o ≤ 1000 := by
  have htotal : (fillContigPageInfo c z o).freeBlocksTotal ≠ 1 := by
    rw [h.freeBlocksTotal_eq, ne_eq, Set.ncard_eq_one, not_exists]
    exact hne
  have hpages := h.freePages_le hs
  rw [fragmentationIndex, ContigPageInfo.fragmentationIndex, hs, Nat.shiftLeft_eq, Nat.one_mul]
  generalize (fillContigPageInfo c z o).freeBlocksTotal = total at htotal hpages
  generalize (fillContigPageInfo c z o).freePages = pages at hpages
  split_ifs with hzero hsuitable
  · omega
  · exact absurd rfl hsuitable
  · have hdiv : pages * 1000 / 2 ^ o ≤ 500 * total := by
      refine Nat.div_le_of_le_mul ?_
      calc pages * 1000 = 500 * (2 * pages) := by ring
        _ ≤ 500 * (total * 2 ^ o) := Nat.mul_le_mul_left _ hpages
        _ = 2 ^ o * (500 * total) := by ring
    have hle : (1000 + pages * 1000 / 2 ^ o) / total ≤ 1000 :=
      Nat.div_le_of_le_mul (by omega)
    generalize (1000 + pages * 1000 / 2 ^ o) / total = lack at hle ⊢
    omega

theorem fragmentationIndex_eq_iff (h : Ok c z) : fragmentationIndex c z o = -1000 ↔
    (fillContigPageInfo c z o).freeBlocksSuitable ≠ 0 := by
  refine ⟨fun hi hs => ?_, h.fragmentationIndex_of_suitable⟩
  by_cases hsingle : ∃ b, z.free = {b}
  · obtain ⟨b, hfree⟩ := hsingle
    have hmem : (b.1, b.2) ∈ z.free := by
      rw [hfree]
      rfl
    have hb : b.1 < o := by
      by_contra hle
      exact h.blocks_eq_zero_iff.1
        (h.suitable_eq_zero.1 hs b.1 (h.system.order_lt b.1 b.2 hmem) (not_lt.1 hle)) b.2 hmem
    have hdiv : 1000 * 2 ^ b.1 / 2 ^ o ≤ 500 := by
      refine Nat.div_le_of_le_mul ?_
      calc 1000 * 2 ^ b.1 = 2 ^ (b.1 + 1) * 500 := by ring
        _ ≤ 2 ^ o * 500 := Nat.mul_le_mul_right _ (Nat.pow_le_pow_right Nat.two_pos hb)
    rw [h.fragmentationIndex_of_single hfree hb] at hi
    omega
  · have := (h.fragmentationIndex_le hs fun b hfree => hsingle ⟨b, hfree⟩).1
    omega

end Ok

/-- The index is -1000 if and only if there is an aligned block of free pages. It is negative for another
    reason only if there is a single free block, whatever the comment says. -/
theorem fragmentationIndex_spec (hb : Boot c boot) (h : (allocator c cpus boot).Reachable x) (o : ℕ) :
    (fragmentationIndex c x.1.zone o = -1000 ↔ ∃ p, o < c.maxOrder ∧ 2 ^ o ∣ p ∧
        blockOf o p ⊆ pagesOf boot \ pagesOf (x.1.cached cpus ++ x.2)) ∧
      (∀ b, x.1.zone.free = {b} → b.1 < o →
        fragmentationIndex c x.1.zone o = -(1000 * 2 ^ b.1 / 2 ^ o : ℕ)) ∧
        (fragmentationIndex c x.1.zone o ≠ -1000 → (∀ b, x.1.zone.free ≠ {b}) →
          0 ≤ fragmentationIndex c x.1.zone o ∧ fragmentationIndex c x.1.zone o ≤ 1000) := by
  have hcust := (inv_of_reachable hb h).custody
  refine ⟨?_, fun b hfree hlt => hcust.ok.fragmentationIndex_of_single hfree hlt, fun hi hne => ?_⟩
  · have ht : migrateUnmovable < migratePcptypes := by decide
    rw [hcust.ok.fragmentationIndex_eq_iff, ne_eq, hcust.ok.suitable_eq_zero_iff ht,
      hcust.ok.rmqueue_eq_none_iff ht, hcust.covered_free]
    push Not
    rfl
  · rw [ne_eq, hcust.ok.fragmentationIndex_eq_iff, not_not] at hi
    exact hcust.ok.fragmentationIndex_le hi hne

/-- An aligned block of the order is free: the index is -1000. -/
theorem fragmentationIndex_spec_small : fragmentationIndex smallZone smallState.zone 2 = -1000 ∧
    ∃ p, 2 < 3 ∧ 2 ^ 2 ∣ p ∧ blockOf 2 p ⊆ pagesOf smallBoot \ pagesOf [(0, 0), (0, 1)] := by
  have hindex : fragmentationIndex smallZone smallState.zone 2 = -1000 := by
    rw [fragmentationIndex, show fillContigPageInfo smallZone smallState.zone 2 = ⟨6, 2, 1⟩ from rfl]
    rfl
  exact ⟨hindex, (fragmentationIndex_spec smallBoot_boot smallState_reachable 2).1.1 hindex⟩

/-! ## The unusable free space -/

/-- The index is the share of the free pages, in thousandths, that are in no aligned block of free pages. -/
theorem unusableFreeIndex_spec (hb : Boot c boot) (h : (allocator c cpus boot).Reachable x)
    (ho : o < c.maxOrder) : (fillContigPageInfo c x.1.zone o).unusableFreeIndex o =
      if pagesOf boot \ pagesOf (x.1.cached cpus ++ x.2) = ∅ then 1000
      else (unusable o (pagesOf boot \ pagesOf (x.1.cached cpus ++ x.2))).ncard * 1000 /
        (pagesOf boot \ pagesOf (x.1.cached cpus ++ x.2)).ncard := by
  have hcust := (inv_of_reachable hb h).custody
  rw [← hcust.covered_free, hcust.ok.system.unusable_eq ho, ContigPageInfo.unusableFreeIndex,
    hcust.ok.freePages_sub, hcust.ok.freePages_eq]
  exact if_congr (Set.ncard_eq_zero hcust.ok.ncard_covered.1) rfl rfl

/-- A third of the free pages are of no use for the order. -/
theorem unusableFreeIndex_spec_small :
    (fillContigPageInfo smallZone smallState.zone 2).unusableFreeIndex 2 = 333 ∧
      333 = if pagesOf smallBoot \ pagesOf [(0, 0), (0, 1)] = ∅ then 1000
        else (unusable 2 (pagesOf smallBoot \ pagesOf [(0, 0), (0, 1)])).ncard * 1000 /
          (pagesOf smallBoot \ pagesOf [(0, 0), (0, 1)]).ncard := by
  have hindex : (fillContigPageInfo smallZone smallState.zone 2).unusableFreeIndex 2 = 333 := by
    rw [show fillContigPageInfo smallZone smallState.zone 2 = ⟨6, 2, 1⟩ from rfl]
    rfl
  have hspec := unusableFreeIndex_spec (o := 2) smallBoot_boot smallState_reachable (by decide)
  have hcached : smallState.cached 2 = [] := rfl
  simp only [hcached, List.nil_append] at hspec
  exact ⟨hindex, hindex.symm.trans hspec⟩

end Mcpq.Kernel.PageAlloc
