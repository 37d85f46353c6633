import Mcpq.Kernel.PageAlloc.Custody
import Mcpq.Lib.Transition

/-!
# Runs of the page allocator

The page allocator of a zone, from the time on when the memory is handed to it: the CPUs allocate blocks
and free those that are in use, in any order, and the lists of the CPUs are drained and resized. `Step`
lists what may happen, each time as a whole: the lists of a CPU are used with its interrupts disabled, and
the zone with its lock held.

The lists of a CPU are resized in one step (`Label.highmark`), but `percpu_pagelist_fraction_sysctl_handler`
does this without a lock, and another CPU may read the old `high` and the new `batch`: what depends on the
counts of the lists is stated for the runs without that step (`Label.Sized`). No page block is isolated.

`Inv` says that every page of the zone is free, or on the list of a CPU, or part of a block in use, and that
the counters are exact. Each operation keeps it, and so it holds in every state that is reached
(`inv_of_reachable`).
-/

namespace Mcpq.Kernel.PageAlloc

/-! ## The operations -/

/-- The blocks in `U` are in use, and all other pages in `F` are free, or on the list of a CPU. -/
structure Inv (c : Config) (cpus : ℕ) (F : Set ℕ) (s : State) (U : List (ℕ × ℕ)) : Prop where
  custody : Custody c F s.zone (s.cached cpus ++ U)
  typed : s.zone.Typed
  stamped : Stamped s.zone (s.cached cpus)
  count_eq : ∀ cpu < cpus, (s.pageset cpu).count = (blocksOn (s.pageset cpu).lists).length
  batch_pos : ∀ cpu < cpus, 0 < (s.pageset cpu).batch
  batch_le : ∀ cpu < cpus, (s.pageset cpu).batch ≤ max 1 (s.pageset cpu).high
  nrFreePages_eq : s.nrFreePages = (covered s.zone.free).ncard

variable {c : Config} {cpus cpu : ℕ} {F : Set ℕ} {s s' : State} {U : List (ℕ × ℕ)} {o p t : ℕ}

theorem weight_blocksOn (lists : ℕ → List ℕ) : weight (blocksOn lists) = (blocksOn lists).length := by
  have hzero : ∀ b ∈ blocksOn lists, 2 ^ b.1 = 1 := fun b hb => by
    obtain ⟨t, -, hb⟩ := List.mem_flatMap.1 hb
    obtain ⟨p, -, rfl⟩ := List.mem_map.1 hb
    rfl
  rw [weight, List.map_congr_left hzero, List.map_const', List.sum_replicate_nat,
    Nat.mul_one]

namespace Inv

theorem perm_used (h : Inv c cpus F s U) {U' : List (ℕ × ℕ)} (hp : U.Perm U') :
    Inv c cpus F s U' :=
  ⟨h.custody.perm (hp.append_left _), h.typed, h.stamped, h.count_eq, h.batch_pos, h.batch_le,
    h.nrFreePages_eq⟩

/-- What is left to show when an operation uses the lists of one CPU only. The number of free pages
    follows from the pages that are held. -/
theorem of_pageset (h : Inv c cpus F s U) {pcp : PerCpuPages} {z : Zone} {nr : ℤ}
    {U' R : List (ℕ × ℕ)}
    (hR : ∀ s' : State, (∀ j, j ≠ cpu → s'.pageset j = s.pageset j) →
      (s'.cached cpus).Perm (blocksOn (s'.pageset cpu).lists ++ R))
    (hcust : Custody c F z (blocksOn pcp.lists ++ (R ++ U'))) (htyped : z.Typed)
    (hstamp : Stamped z (blocksOn pcp.lists)) (hpage : ∀ b ∈ R, z.page b.2 = s.zone.page b.2)
    (hcount : pcp.count = (blocksOn pcp.lists).length) (hpos : 0 < pcp.batch)
    (hle : pcp.batch ≤ max 1 pcp.high)
    (hnr : nr + ((blocksOn pcp.lists).length + weight U' : ℕ) =
      s.nrFreePages + ((blocksOn (s.pageset cpu).lists).length + weight U : ℕ)) :
    Inv c cpus F ⟨z, Function.update s.pageset cpu pcp, nr⟩ U' := by
  have hperm := hR s fun _ _ => rfl
  have hperm' := hR ⟨z, Function.update s.pageset cpu pcp, nr⟩ fun j hj =>
    Function.update_of_ne hj ..
  rw [show (State.pageset ⟨z, Function.update s.pageset cpu pcp, nr⟩ cpu).lists = pcp.lists from
    congrArg PerCpuPages.lists (Function.update_self ..)] at hperm'
  have hall : ∀ {P : PerCpuPages → Prop}, P pcp → (∀ i < cpus, P (s.pageset i)) →
      ∀ i < cpus, P (Function.update s.pageset cpu pcp i) := fun hpcp hP i hi => by
    rw [Function.update_apply]
    split_ifs
    · exact hpcp
    · exact hP i hi
  refine ⟨hcust.perm ?_, htyped, (stamped_perm hperm').2 fun b hb => ?_,
    hall (P := fun q => q.count = (blocksOn q.lists).length) hcount h.count_eq,
    hall (P := fun q => 0 < q.batch) hpos h.batch_pos,
    hall (P := fun q => q.batch ≤ max 1 q.high) hle h.batch_le, ?_⟩
  · rw [← List.append_assoc]
    exact (hperm'.append_right U').symm
  · rcases List.mem_append.1 hb with hb | hb
    · exact hstamp b hb
    · rw [hpage b hb]
      exact (stamped_perm hperm).1 h.stamped b (List.mem_append_right _ hb)
  · have hcard := hcust.ncard
    have hcard' := (h.custody.perm (hperm.append_right U)).ncard
    rw [weight_append, weight_append, weight_blocksOn] at hcard hcard'
    have := h.nrFreePages_eq
    change nr = ((covered z.free).ncard : ℤ)
    push_cast at hnr
    omega

/-- The pages of a CPU are taken off its lists, as many as there are to be freed. -/
theorem freePcppagesBulk (h : Inv c cpus F s U) (hi : cpu < cpus) {n : ℕ}
    (hn : (n : ℤ) ≤ (s.pageset cpu).count) :
    ∃ s', freePcppagesBulk c s cpu n = some s' ∧ Inv c cpus F s' U ∧
      (s'.pageset cpu).count = (s.pageset cpu).count - n ∧
      ∀ j, j ≠ cpu → s'.pageset j = s.pageset j := by
  obtain ⟨R, hR⟩ := exists_cached_perm hi s
  have hperm := hR s fun _ _ => rfl
  have hcount := h.count_eq cpu hi
  have hcust := h.custody.perm (hperm.append_right U)
  rw [List.append_assoc] at hcust
  obtain ⟨b, hb, hcust', hstamp, hlen, hflags, hpage⟩ := bulkLoop_spec (n := n)
    (s := ⟨s.zone, (s.pageset cpu).lists, 0, 0⟩) hcust (fun b hb =>
      (stamped_perm hperm).1 h.stamped b (List.mem_append_left _ hb)) (Nat.zero_lt_succ _)
    (fun hagain : false = true => absurd hagain Bool.false_ne_true) (by
      change n ≤ (blocksOn (s.pageset cpu).lists).length
      omega)
  change (blocksOn b.lists).length + n = (blocksOn (s.pageset cpu).lists).length at hlen
  rw [PageAlloc.freePcppagesBulk, hb]
  refine ⟨_, rfl, h.of_pageset hR hcust' (fun i => ?_) hstamp
    (fun b hb => hpage b (List.mem_append_left _ hb)) ?_ (h.batch_pos cpu hi) (h.batch_le cpu hi) ?_,
    ?_, fun j hj => Function.update_of_ne hj ..⟩
  · rw [hflags]
    exact h.typed i
  · change (s.pageset cpu).count - (n : ℤ) = _
    change _ = ((blocksOn b.lists).length : ℤ)
    omega
  · change s.nrFreePages + (n : ℤ) + (((blocksOn b.lists).length + weight U : ℕ) : ℤ) = _
    push_cast
    omega
  · change (Function.update s.pageset cpu _ cpu).count = _
    rw [Function.update_self]

/-- A block in use is freed to the zone. -/
theorem freePage (h : Inv c cpus F s ((o, p) :: U)) (ht : t < migrateIsolate) :
    Inv c cpus F (freePage c s p o t) U := by
  have hcust := h.custody.perm List.perm_middle
  have hfree := hcust.free ht
  refine ⟨hfree, fun i => ?_, h.stamped.of_eq fun b hb =>
    hcust.free_page_eq ht (List.mem_append_left _ hb), h.count_eq, h.batch_pos, h.batch_le, ?_⟩
  · change (freeOnePage c s.zone p o t).pageblockFlags i < _
    rw [freeOnePage_pageblockFlags]
    exact h.typed i
  · change s.nrFreePages + 2 ^ o = ((covered (freeOnePage c s.zone p o t).free).ncard : ℤ)
    rw [hcust.ncard_cons hfree, h.nrFreePages_eq]

/-- A page in use is freed to the lists of a CPU. -/
theorem freeHotColdPage (h : Inv c cpus F s ((0, p) :: U)) (hi : cpu < cpus) (cold : Bool) :
    ∃ s', freeHotColdPage c s cpu p cold = some s' ∧ Inv c cpus F s' U := by
  have hlt : getPageblockMigratetype c s.zone p < migrateIsolate := h.typed _
  obtain ⟨R, hR⟩ := exists_cached_perm hi s
  have hperm := hR s fun _ _ => rfl
  have hcust := h.custody.perm ((hperm.append_right _).trans List.perm_middle)
  rw [List.append_assoc] at hcust
  rw [PageAlloc.freeHotColdPage, if_neg hlt.ne]
  dsimp only
  generalize hm : (if migratePcptypes ≤ getPageblockMigratetype c s.zone p then migrateMovable
    else getPageblockMigratetype c s.zone p) = m
  have hmlt : m < migratePcptypes := by
    rw [← hm]
    split_ifs with hle
    · decide
    · exact not_le.1 hle
  obtain ⟨R', hR'⟩ := exists_blocksOn_perm hmlt (s.pageset cpu).lists
  have hlists := hR' ((s.pageset cpu).lists m)
  rw [Function.update_eq_self] at hlists
  -- The page is added to the list, first or last.
  generalize hl : (if cold = true then (s.pageset cpu).lists m ++ [p]
    else p :: (s.pageset cpu).lists m) = l
  have hlperm : l.Perm (p :: (s.pageset cpu).lists m) := by
    rw [← hl]
    split_ifs
    · exact List.perm_append_singleton ..
    · exact .refl _
  have hblocks : (blocksOn (Function.update (s.pageset cpu).lists m l)).Perm
      ((0, p) :: blocksOn (s.pageset cpu).lists) :=
    (hR' l).trans (((hlperm.map _).append_right R').trans (hlists.symm.cons (0, p)))
  have hset := hcust.setPagePrivate List.mem_cons_self (getPageblockMigratetype c s.zone p)
  have hpage : ∀ b ∈ blocksOn (s.pageset cpu).lists ++ (R ++ U),
      (s.zone.setPagePrivate p (getPageblockMigratetype c s.zone p)).page b.2 = s.zone.page b.2 :=
    fun b hb => Function.update_of_ne (hcust.mem_disjoint hb) ..
  have hinv : Inv c cpus F ⟨s.zone.setPagePrivate p (getPageblockMigratetype c s.zone p),
      Function.update s.pageset cpu { s.pageset cpu with
        count := (s.pageset cpu).count + 1
        lists := Function.update (s.pageset cpu).lists m l }, s.nrFreePages⟩ U := by
    have hlen := hblocks.length_eq
    rw [List.length_cons] at hlen
    have hcount := h.count_eq cpu hi
    refine h.of_pageset hR (hset.perm (hblocks.append_right _).symm) h.typed
      ((stamped_perm hblocks).2 fun b hb => ?_)
      (fun b hb => hpage b (List.mem_append_right _ (List.mem_append_left _ hb))) ?_
      (h.batch_pos cpu hi) (h.batch_le cpu hi) ?_
    · rcases List.mem_cons.1 hb with rfl | hb
      · change (Function.update s.zone.page p _ p).priv < _
        rw [Function.update_self]
        exact hlt
      · rw [hpage b (List.mem_append_left _ hb)]
        exact (stamped_perm hperm).1 h.stamped b (List.mem_append_left _ hb)
    · change (s.pageset cpu).count + 1 =
        ((blocksOn (Function.update (s.pageset cpu).lists m l)).length : ℤ)
      omega
    · change s.nrFreePages +
        (((blocksOn (Function.update (s.pageset cpu).lists m l)).length + weight U : ℕ) : ℤ) = _
      rw [weight_cons, hlen]
      push_cast
      omega
  split_ifs with hhigh
  · obtain ⟨s', hs', hinv', -⟩ := hinv.freePcppagesBulk hi (n := (s.pageset cpu).batch) (by
      change _ ≤ (Function.update s.pageset cpu _ cpu).count
      rw [Function.update_self]
      have := h.batch_le cpu hi
      have := h.count_eq cpu hi
      change ((s.pageset cpu).high : ℤ) ≤ (s.pageset cpu).count + 1 at hhigh
      change _ ≤ (s.pageset cpu).count + 1
      omega)
    exact ⟨s', hs', hinv'⟩
  · exact ⟨_, rfl, hinv⟩

/-- The last reference to a block in use is put. -/
theorem freePages (h : Inv c cpus F s ((o, p) :: U)) (hi : cpu < cpus) :
    ∃ s', freePages c s cpu p o = some s' ∧ Inv c cpus F s' U := by
  rw [PageAlloc.freePages]
  split_ifs with ho
  · subst ho
    exact h.freeHotColdPage hi false
  · exact ⟨_, rfl, h.freePage (h.typed _)⟩

/-- The list of a type is filled. -/
theorem rmqueueBulk (hc : c.Contiguous) (h : Inv c cpus F s U) (hi : cpu < cpus)
    (ht : t < migratePcptypes) (cold : Bool) : Inv c cpus F (rmqueueBulk c s cpu t cold) U := by
  obtain ⟨R, hR⟩ := exists_cached_perm hi s
  have hperm := hR s fun _ _ => rfl
  have hcust := h.custody.perm (hperm.append_right U)
  rw [List.append_assoc] at hcust
  rw [PageAlloc.rmqueueBulk]
  generalize hr : rmqueueBulkLoop c 0 t (s.pageset cpu).batch s.zone [] = r
  have hstart : Custody c F s.zone
      (([] : List ℕ).map (Prod.mk 0) ++ (blocksOn (s.pageset cpu).lists ++ (R ++ U))) := hcust
  obtain ⟨hcust', htyped, hstamp, hpage⟩ := rmqueueBulkLoop_spec hc hstart h.typed ht
    (fun b hb => absurd hb List.not_mem_nil) hr
  obtain ⟨R', hR'⟩ := exists_blocksOn_perm ht (s.pageset cpu).lists
  have hlists := hR' ((s.pageset cpu).lists t)
  rw [Function.update_eq_self] at hlists
  dsimp only
  generalize hl : (if cold = true then (s.pageset cpu).lists t ++ r.2.reverse
    else r.2 ++ (s.pageset cpu).lists t) = l
  have hlperm : l.Perm (r.2 ++ (s.pageset cpu).lists t) := by
    rw [← hl]
    split_ifs
    · exact List.perm_append_comm.trans ((List.reverse_perm _).append_right _)
    · exact .refl _
  have hblocks : (blocksOn (Function.update (s.pageset cpu).lists t l)).Perm
      (r.2.map (Prod.mk 0) ++ blocksOn (s.pageset cpu).lists) := by
    refine (hR' l).trans (((hlperm.map _).append_right R').trans ?_)
    rw [List.map_append, List.append_assoc]
    exact hlists.symm.append_left _
  have hlen := hblocks.length_eq
  rw [List.length_append, List.length_map] at hlen
  have hcount := h.count_eq cpu hi
  refine h.of_pageset hR (hcust'.perm ?_) htyped ((stamped_perm hblocks).2 fun b hb => ?_)
    (fun b hb => hpage b (List.mem_append_right _ (List.mem_append_left _ hb))) ?_
    (h.batch_pos cpu hi) (h.batch_le cpu hi) ?_
  · exact (List.Perm.of_eq (List.append_assoc ..).symm).trans (hblocks.append_right _).symm
  · rcases List.mem_append.1 hb with hb | hb
    · exact hstamp b hb
    · rw [hpage b (List.mem_append_left _ hb)]
      exact (stamped_perm hperm).1 h.stamped b (List.mem_append_left _ hb)
  · change (s.pageset cpu).count + (r.2.length : ℤ) =
      ((blocksOn (Function.update (s.pageset cpu).lists t l)).length : ℤ)
    omega
  · change s.nrFreePages - (r.2.length : ℤ) +
      (((blocksOn (Function.update (s.pageset cpu).lists t l)).length + weight U : ℕ) : ℤ) = _
    rw [hlen]
    push_cast
    omega

/-- A page of a list is in use. -/
theorem erase (h : Inv c cpus F s U) (hi : cpu < cpus) (ht : t < migratePcptypes)
    (hp : p ∈ (s.pageset cpu).lists t) :
    Inv c cpus F ⟨s.zone.setPagePrivate p 0, Function.update s.pageset cpu { s.pageset cpu with
      count := (s.pageset cpu).count - 1
      lists := Function.update (s.pageset cpu).lists t (((s.pageset cpu).lists t).erase p) },
      s.nrFreePages⟩ ((0, p) :: U) := by
  obtain ⟨R, hR⟩ := exists_cached_perm hi s
  have hperm := hR s fun _ _ => rfl
  obtain ⟨R', hR'⟩ := exists_blocksOn_perm ht (s.pageset cpu).lists
  have hlists := hR' ((s.pageset cpu).lists t)
  rw [Function.update_eq_self] at hlists
  have hblocks : (blocksOn (s.pageset cpu).lists).Perm ((0, p) :: blocksOn
      (Function.update (s.pageset cpu).lists t (((s.pageset cpu).lists t).erase p))) :=
    hlists.trans ((((List.perm_cons_erase hp).map _).append_right R').trans ((hR' _).symm.cons (0, p)))
  have hcust := h.custody.perm ((hperm.trans (hblocks.append_right R)).append_right U)
  rw [List.cons_append, List.cons_append, List.append_assoc] at hcust
  have hlen := hblocks.length_eq
  rw [List.length_cons] at hlen
  have hcount := h.count_eq cpu hi
  have hpage : ∀ b ∈ blocksOn (Function.update (s.pageset cpu).lists t
      (((s.pageset cpu).lists t).erase p)) ++ (R ++ U),
      (s.zone.setPagePrivate p 0).page b.2 = s.zone.page b.2 := fun b hb =>
    Function.update_of_ne (hcust.mem_disjoint hb) ..
  refine h.of_pageset hR ((hcust.setPagePrivate List.mem_cons_self 0).perm ?_) h.typed
    (fun b hb => ?_) (fun b hb => hpage b (List.mem_append_right _ (List.mem_append_left _ hb))) ?_
    (h.batch_pos cpu hi) (h.batch_le cpu hi) ?_
  · rw [← List.append_assoc, ← List.append_assoc]
    exact List.perm_middle.symm
  · rw [hpage b (List.mem_append_left _ hb)]
    exact (stamped_perm hperm).1 h.stamped b
      (List.mem_append_left _ (hblocks.mem_iff.2 (List.mem_cons_of_mem _ hb)))
  · change (s.pageset cpu).count - 1 = ((blocksOn (Function.update (s.pageset cpu).lists t
      (((s.pageset cpu).lists t).erase p))).length : ℤ)
    omega
  · change s.nrFreePages + (((blocksOn (Function.update (s.pageset cpu).lists t
      (((s.pageset cpu).lists t).erase p))).length + weight ((0, p) :: U) : ℕ) : ℤ) = _
    rw [weight_cons, hlen]
    push_cast
    omega

theorem takePage (h : Inv c cpus F s U) (hi : cpu < cpus) (ht : t < migratePcptypes) (cold : Bool) :
    Inv c cpus F (takePage s cpu t cold).1
      (((takePage s cpu t cold).2.map (Prod.mk 0)).toList ++ U) := by
  rw [PageAlloc.takePage]
  dsimp only
  cases hp : (if cold = true then ((s.pageset cpu).lists t).getLast?
      else ((s.pageset cpu).lists t).head?) with
  | none => exact h
  | some p =>
    have hmem : p ∈ (s.pageset cpu).lists t := by
      split_ifs at hp
      · exact List.mem_of_getLast? hp
      · exact List.mem_of_head? hp
    exact h.erase hi ht hmem

/-- A block is allocated, unless there is none. -/
theorem bufferedRmqueue (hc : c.Contiguous) (h : Inv c cpus F s U) (hi : cpu < cpus)
    (ht : t < migratePcptypes) {cold : Bool} {r : State × Option ℕ}
    (hr : bufferedRmqueue c s cpu o t cold = r) :
    Inv c cpus F r.1 ((r.2.map (Prod.mk o)).toList ++ U) := by
  rw [PageAlloc.bufferedRmqueue] at hr
  by_cases ho : o = 0
  · subst ho
    rw [if_pos rfl] at hr
    subst hr
    refine takePage ?_ hi ht cold
    split_ifs
    · exact h.rmqueueBulk hc hi ht cold
    · exact h
  · rw [if_neg ho] at hr
    cases hs : rmqueue c s.zone o t with
    | none =>
      rw [hs] at hr
      exact hr ▸ h
    | some zp =>
      rw [hs] at hr
      subst hr
      obtain ⟨z, p⟩ := zp
      have ht' : t < migrateIsolate := ht.trans (by decide)
      have ha := rmqueue_spec hc h.custody.ok ht' hs
      have hcust := h.custody.alloc ha
      have hset := (hcust.setPagePrivate List.mem_cons_self 0).perm List.perm_middle.symm
      have htyped := rmqueue_typed h.typed ht' hs
      refine ⟨hset, htyped, h.stamped.of_eq fun b hb => ?_, h.count_eq,
        h.batch_pos, h.batch_le, ?_⟩
      · have hb := List.mem_append_left U hb
        exact (Function.update_of_ne (hcust.mem_disjoint hb) ..).trans (h.custody.alloc_page_eq ha hb)
      · change s.nrFreePages - 2 ^ o = ((covered z.free).ncard : ℤ)
        rw [h.nrFreePages_eq, hcust.ncard_cons h.custody, add_sub_cancel_right]

theorem drainPages (h : Inv c cpus F s U) (hi : cpu < cpus) :
    ∃ s', drainPages c s cpu = some s' ∧ Inv c cpus F s' U ∧ (s'.pageset cpu).count = 0 ∧
      ∀ j, j ≠ cpu → s'.pageset j = s.pageset j := by
  rw [PageAlloc.drainPages]
  have hcount := h.count_eq cpu hi
  split_ifs with hne
  · obtain ⟨s', hs', hinv, hzero, hother⟩ := h.freePcppagesBulk hi
      (n := (s.pageset cpu).count.toNat) (by omega)
    exact ⟨s', hs', hinv, by omega, hother⟩
  · exact ⟨s, rfl, h, not_not.1 hne, fun _ _ => rfl⟩

/-- No page is left on the list of a CPU. -/
theorem drainAllPages (h : Inv c cpus F s U) :
    ∃ s', drainAllPages c s cpus = some s' ∧ Inv c cpus F s' U ∧ s'.cached cpus = [] := by
  -- The CPUs before the next one have been drained.
  have hloop : ∀ n ≤ cpus, ∃ s', (List.range n).foldlM (PageAlloc.drainPages c) s = some s' ∧
      Inv c cpus F s' U ∧ ∀ cpu < n, (s'.pageset cpu).count = 0 := by
    intro n hn
    induction n with
    | zero => exact ⟨s, rfl, h, fun cpu hi => absurd hi (Nat.not_lt_zero cpu)⟩
    | succ n ih =>
      obtain ⟨s₁, hs₁, hinv, hzero⟩ := ih (Nat.le_of_succ_le hn)
      obtain ⟨s', hs', hinv', hcpu, hother⟩ := hinv.drainPages hn
      refine ⟨s', ?_, hinv', fun cpu hi => ?_⟩
      · rw [List.range_succ, List.foldlM_append, hs₁]
        change (PageAlloc.drainPages c s₁ n >>= fun s => some s) = some s'
        rw [hs']
        rfl
      · rcases Nat.lt_succ_iff_lt_or_eq.1 hi with hi | rfl
        · rw [hother cpu hi.ne]
          exact hzero cpu hi
        · exact hcpu
  obtain ⟨s', hs', hinv, hzero⟩ := hloop cpus le_rfl
  refine ⟨s', hs', hinv, List.flatMap_eq_nil_iff.2 fun cpu hi => List.length_eq_zero_iff.1 ?_⟩
  have hi := List.mem_range.1 hi
  have hcount := hinv.count_eq cpu hi
  rw [hzero cpu hi] at hcount
  exact_mod_cast hcount.symm

theorem drainZonePages (h : Inv c cpus F s U) (hi : cpu < cpus) :
    ∃ s', drainZonePages c s cpu = some s' ∧ Inv c cpus F s' U := by
  rw [PageAlloc.drainZonePages]
  have hcount := h.count_eq cpu hi
  obtain ⟨s', hs', hinv, -⟩ := h.freePcppagesBulk hi (n := if ((s.pageset cpu).batch : ℤ) ≤
    (s.pageset cpu).count then (s.pageset cpu).batch else (s.pageset cpu).count.toNat)
    (by split_ifs <;> omega)
  exact ⟨s', hs', hinv⟩

/-- A block in use is used as single pages. -/
theorem splitPage (h : Inv c cpus F s ((o, p) :: U)) : Inv c cpus F s (singles o p ++ U) := by
  have hperm : (singles o p ++ (s.cached cpus ++ U)).Perm (s.cached cpus ++ (singles o p ++ U)) := by
    rw [← List.append_assoc, ← List.append_assoc]
    exact List.perm_append_comm.append_right U
  exact ⟨((h.custody.perm List.perm_middle).split).perm hperm, h.typed, h.stamped, h.count_eq,
    h.batch_pos, h.batch_le, h.nrFreePages_eq⟩

/-- The lists of a CPU are resized. -/
theorem highmark (hshift : 0 < c.pageShift) (h : Inv c cpus F s U) (hi : cpu < cpus) (high : ℕ) :
    Inv c cpus F { s with
      pageset := Function.update s.pageset cpu (setupPagelistHighmark c (s.pageset cpu) high) } U := by
  obtain ⟨R, hR⟩ := exists_cached_perm hi s
  have hperm := hR s fun _ _ => rfl
  have hcust := h.custody.perm (hperm.append_right U)
  rw [List.append_assoc] at hcust
  refine h.of_pageset hR hcust h.typed (fun b hb =>
    (stamped_perm hperm).1 h.stamped b (List.mem_append_left _ hb)) (fun _ _ => rfl)
    (h.count_eq cpu hi) ?_ ?_ rfl
  · rw [setupPagelistHighmark]
    dsimp only
    split_ifs <;> omega
  · rw [setupPagelistHighmark]
    dsimp only
    split_ifs <;> omega

/-- The free pages of a page block are moved to the lists of another type. -/
theorem retypeBlock (hc : c.Contiguous) (h : Inv c cpus F s U) (hp : c.InZone p)
    (ht : t < migrateIsolate) : Inv c cpus F (retypeBlock c s p t) U := by
  have hok : Ok c (setPageblockMigratetype c s.zone p t) :=
    ⟨h.custody.ok.system, h.custody.ok.nodup, h.custody.ok.type_eq, h.custody.ok.type_lt,
      h.custody.ok.page_eq, h.custody.ok.listed, h.custody.ok.inZone, h.custody.ok.nrFree_eq⟩
  have hmoved := moveFreepagesBlock_spec hc hok ht hp
  have hfree : (PageAlloc.retypeBlock c s p t).zone.free = s.zone.free := hmoved.free_eq
  have hpage : (PageAlloc.retypeBlock c s p t).zone.page = s.zone.page := hmoved.page_eq
  refine ⟨⟨hmoved.ok, h.custody.packing, hfree ▸ h.custody.disjoint, hfree ▸ h.custody.covered_eq,
    h.custody.inZone⟩, fun i => ?_, h.stamped.of_eq fun b _ => congrFun hpage b.2, h.count_eq,
    h.batch_pos, h.batch_le, hfree ▸ h.nrFreePages_eq⟩
  change (moveFreepagesBlock c (setPageblockMigratetype c s.zone p t) p t).1.pageblockFlags i < _
  rw [moveFreepagesBlock_pageblockFlags]
  exact h.typed.setPageblockMigratetype ht i

end Inv

/-! ## Runs -/

/-- The calls of the page allocator. -/
inductive Label
  | alloc (cpu order migratetype : ℕ) (cold : Bool)
  | free (cpu page order : ℕ)
  | freeHotCold (cpu page : ℕ) (cold : Bool)
  | splitPage (page order : ℕ)
  | drain (cpu : ℕ)
  | drainZone (cpu : ℕ)
  | highmark (cpu high : ℕ)
  | retype (page migratetype : ℕ)

/-- No list is resized. -/
def Label.Sized : Label → Prop
  | .highmark _ _ => False
  | _ => True

/-- The steps, on the state and the blocks in use. Only a block that is in use is freed or split. -/
inductive Step (c : Config) (cpus : ℕ) :
    State × List (ℕ × ℕ) → Label → State × List (ℕ × ℕ) → Prop
  | alloc {s : State} {U : List (ℕ × ℕ)} {cpu order migratetype : ℕ} {cold : Bool}
      {r : State × Option ℕ} : cpu < cpus → migratetype < migratePcptypes →
    bufferedRmqueue c s cpu order migratetype cold = r →
    Step c cpus (s, U) (.alloc cpu order migratetype cold) (r.1, (r.2.map (Prod.mk order)).toList ++ U)
  | free {s s' : State} {U : List (ℕ × ℕ)} {cpu page order : ℕ} : cpu < cpus → (order, page) ∈ U →
    freePages c s cpu page order = some s' →
    Step c cpus (s, U) (.free cpu page order) (s', U.erase (order, page))
  | freeHotCold {s s' : State} {U : List (ℕ × ℕ)} {cpu page : ℕ} {cold : Bool} : cpu < cpus →
    (0, page) ∈ U → freeHotColdPage c s cpu page cold = some s' →
    Step c cpus (s, U) (.freeHotCold cpu page cold) (s', U.erase (0, page))
  | splitPage {s : State} {U : List (ℕ × ℕ)} {page order : ℕ} : (order, page) ∈ U →
    Step c cpus (s, U) (.splitPage page order) (s, singles order page ++ U.erase (order, page))
  | drain {s s' : State} {U : List (ℕ × ℕ)} {cpu : ℕ} : cpu < cpus → drainPages c s cpu = some s' →
    Step c cpus (s, U) (.drain cpu) (s', U)
  | drainZone {s s' : State} {U : List (ℕ × ℕ)} {cpu : ℕ} : cpu < cpus →
    drainZonePages c s cpu = some s' → Step c cpus (s, U) (.drainZone cpu) (s', U)
  | highmark {s : State} {U : List (ℕ × ℕ)} {cpu high : ℕ} : cpu < cpus →
    Step c cpus (s, U) (.highmark cpu high) ({ s with
      pageset := Function.update s.pageset cpu (setupPagelistHighmark c (s.pageset cpu) high) }, U)
  | retype {s : State} {U : List (ℕ × ℕ)} {page migratetype : ℕ} : c.InZone page →
    migratetype = migrateReserve ∨ migratetype = migrateMovable →
    Step c cpus (s, U) (.retype page migratetype) (retypeBlock c s page migratetype, U)

/-- The zone before any page is freed to it. -/
structure Fresh (c : Config) (cpus : ℕ) (s : State) : Prop where
  freeList_eq : ∀ o t, s.zone.freeList o t = []
  nrFree_eq : ∀ o, s.zone.nrFree o = 0
  not_buddy : ∀ p, c.InZone p → (s.zone.page p).buddy = false
  typed : s.zone.Typed
  pageset_eq : ∀ cpu < cpus, ∃ batch, s.pageset cpu = setupPageset batch
  nrFreePages_eq : s.nrFreePages = 0

/-- The blocks that the memory is handed to the allocator in, which are pages of the zone. -/
structure Boot (c : Config) (boot : List (ℕ × ℕ)) : Prop where
  contiguous : c.Contiguous
  pageShift_pos : 0 < c.pageShift
  packing : IsPacking c.maxOrder boot
  inZone : ∀ x ∈ pagesOf boot, c.InZone x

/-- At first all blocks are in use. -/
def allocator (c : Config) (cpus : ℕ) (boot : List (ℕ × ℕ)) :
    Transition (State × List (ℕ × ℕ)) Label where
  init x := Fresh c cpus x.1 ∧ x.2 = boot
  step := Step c cpus

variable {boot : List (ℕ × ℕ)} {x : State × List (ℕ × ℕ)}

theorem Fresh.inv (hb : Boot c boot) (h : Fresh c cpus s) : Inv c cpus (pagesOf boot) s boot := by
  have hfree : s.zone.free = ∅ := Set.eq_empty_of_forall_notMem fun b ⟨t, hb⟩ => by
    rw [h.freeList_eq] at hb
    exact List.not_mem_nil hb
  have hcov : covered s.zone.free = ∅ := by
    rw [hfree]
    exact Set.eq_empty_of_forall_notMem fun _ ⟨_, _, hb, _⟩ => hb
  have hlists : ∀ cpu < cpus, blocksOn (s.pageset cpu).lists = [] := fun cpu hi => by
    obtain ⟨batch, heq⟩ := h.pageset_eq cpu hi
    rw [heq]
    rfl
  have hcached : s.cached cpus = [] :=
    List.flatMap_eq_nil_iff.2 fun cpu hi => hlists cpu (List.mem_range.1 hi)
  have hmem : ∀ {o t p}, p ∉ s.zone.freeList o t := fun {o t p} hp => by
    rw [h.freeList_eq] at hp
    exact List.not_mem_nil hp
  refine ⟨⟨⟨hfree ▸ .empty, fun o t => h.freeList_eq o t ▸ .nil, fun _ _ _ _ hp => absurd hp hmem,
    fun _ _ _ hp => absurd hp hmem, fun _ _ _ hp => absurd hp hmem, fun p hp hbuddy => ?_,
    fun x hx => ?_, fun o => ?_⟩, ?_, ?_, ?_, hb.inZone⟩, h.typed, ?_, fun cpu hi => ?_,
    fun cpu hi => ?_, fun cpu hi => ?_, ?_⟩
  · rw [h.not_buddy p hp] at hbuddy
    cases hbuddy
  · rw [hcov] at hx
    exact hx.elim
  · rw [h.nrFree_eq]
    refine (Finset.sum_eq_zero fun t _ => ?_).symm
    rw [h.freeList_eq]
    rfl
  · rw [hcached]
    exact hb.packing
  · rw [hcov]
    exact Set.empty_disjoint _
  · rw [hcov, hcached, Set.empty_union, List.nil_append]
  · rw [hcached]
    exact fun b hb => absurd hb List.not_mem_nil
  · rw [hlists cpu hi]
    obtain ⟨batch, heq⟩ := h.pageset_eq cpu hi
    rw [heq]
    rfl
  · obtain ⟨batch, heq⟩ := h.pageset_eq cpu hi
    rw [heq]
    exact Nat.lt_of_lt_of_le Nat.one_pos (Nat.le_max_left ..)
  · obtain ⟨batch, heq⟩ := h.pageset_eq cpu hi
    rw [heq]
    change max 1 batch ≤ max 1 (6 * batch)
    omega
  · rw [h.nrFreePages_eq, hcov, Set.ncard_empty]
    rfl

/-- Every step keeps the invariant. -/
theorem Inv.step (hb : Boot c boot) {i : Label} {x' : State × List (ℕ × ℕ)}
    (h : Inv c cpus F x.1 x.2) (hst : Step c cpus x i x') : Inv c cpus F x'.1 x'.2 := by
  have huse : ∀ {s : State} {U : List (ℕ × ℕ)} {b : ℕ × ℕ}, Inv c cpus F s U → b ∈ U →
      Inv c cpus F s (b :: U.erase b) := fun h hb => h.perm_used (List.perm_cons_erase hb)
  cases hst with
  | alloc hi ht hr => exact h.bufferedRmqueue hb.contiguous hi ht hr
  | free hi hp hs =>
    obtain ⟨s', hs', hinv⟩ := (huse h hp).freePages hi
    cases hs.symm.trans hs'
    exact hinv
  | freeHotCold hi hp hs =>
    obtain ⟨s', hs', hinv⟩ := (huse h hp).freeHotColdPage hi _
    cases hs.symm.trans hs'
    exact hinv
  | splitPage hp => exact (huse h hp).splitPage
  | drain hi hs =>
    obtain ⟨s', hs', hinv, -⟩ := h.drainPages hi
    cases hs.symm.trans hs'
    exact hinv
  | drainZone hi hs =>
    obtain ⟨s', hs', hinv⟩ := h.drainZonePages hi
    cases hs.symm.trans hs'
    exact hinv
  | highmark hi => exact h.highmark hb.pageShift_pos hi _
  | retype hp ht =>
    refine h.retypeBlock hb.contiguous hp ?_
    rcases ht with rfl | rfl <;> decide

theorem inv_of_reachable (hb : Boot c boot) (h : (allocator c cpus boot).Reachable x) :
    Inv c cpus (pagesOf boot) x.1 x.2 := by
  refine h.invariant (I := fun x => Inv c cpus (pagesOf boot) x.1 x.2) ?_ fun x i x' hx _ hst =>
    hx.step hb hst
  rintro ⟨s, U⟩ ⟨hs, rfl⟩
  exact hs.inv hb

/-! ### A small zone -/

/-- A zone of eight pages, which has blocks of up to four pages. -/
def smallZone : Config where
  maxOrder := 3
  pageblockOrder := 2
  zoneStartPfn := 0
  spannedPages := 8
  pageZoneId _ := 0
  pfnValidWithin p := decide (p < 8)
  pfnToBitidx p := p / 4

/-- Its memory is handed over in four blocks. -/
def smallBoot : List (ℕ × ℕ) := [(1, 2), (2, 4), (0, 0), (0, 1)]

theorem smallBoot_boot : Boot smallZone smallBoot := by
  have hpack : IsPacking smallZone.maxOrder smallBoot := by
    refine ⟨by decide, by decide, ?_⟩
    simp only [smallBoot, List.pairwise_cons, List.mem_cons, List.not_mem_nil, or_false,
      forall_eq_or_imp, forall_eq, blockOf, Set.disjoint_left, Set.mem_Ico]
    refine ⟨⟨?_, ?_, ?_⟩, ⟨?_, ?_⟩, ?_, fun _ hb => absurd hb id, .nil⟩ <;> intro x hx <;> omega
  refine ⟨fun p hp => ⟨fun _ => ⟨Nat.zero_le p, ?_⟩, fun _ => rfl⟩, by decide, hpack, ?_⟩
  · change p < 0 + 8
    rw [Nat.zero_add]
    exact of_decide_eq_true hp
  · rintro x ⟨o, p, hp, hx⟩
    refine ⟨decide_eq_true ?_, rfl⟩
    have hlt : ∀ b ∈ smallBoot, b.2 + 2 ^ b.1 ≤ 8 := by decide
    exact hx.2.trans_le (hlt (o, p) hp)

/-- Before the memory is handed over. -/
def smallFresh : State where
  pageset _ := setupPageset 1

theorem smallFresh_fresh : Fresh smallZone 2 smallFresh :=
  ⟨fun _ _ => rfl, fun _ => rfl, fun _ _ => rfl, fun _ =>
    (by decide : migrateMovable < migrateIsolate), fun _ _ => ⟨1, rfl⟩, rfl⟩

/-- Six pages are free, and two in use. -/
def smallState : State := freePage smallZone (freePage smallZone smallFresh 2 1 2) 4 2 2

theorem smallState_reachableBy : (allocator smallZone 2 smallBoot).ReachableBy (fun _ i => i.Sized)
    (smallState, [(0, 0), (0, 1)]) := by
  have hfirst : Step smallZone 2 (smallFresh, smallBoot) (.free 0 2 1)
      (freePage smallZone smallFresh 2 1 2, [(2, 4), (0, 0), (0, 1)]) :=
    .free (by decide) (by decide) rfl
  have hsecond : Step smallZone 2
      (freePage smallZone smallFresh 2 1 2, [(2, 4), (0, 0), (0, 1)]) (.free 1 4 2)
      (smallState, [(0, 0), (0, 1)]) := .free (by decide) (by decide) rfl
  have hinit : (allocator smallZone 2 smallBoot).ReachableBy (fun _ i => i.Sized)
      (smallFresh, smallBoot) := .init ⟨smallFresh_fresh, rfl⟩
  exact (hinit.step (i := Label.free 0 2 1) trivial hfirst).step (i := Label.free 1 4 2)
    trivial hsecond

theorem smallState_reachable :
    (allocator smallZone 2 smallBoot).Reachable (smallState, [(0, 0), (0, 1)]) :=
  smallState_reachableBy.reachable

end Mcpq.Kernel.PageAlloc
