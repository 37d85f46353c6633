import Mcpq.Hierarchical.Access

/-!
# Reachable states

The representation invariant holds after every call of a run (`reachable_rep`), as each call keeps
it (`Rep.step`), whatever the order in which the user chains are gone through.

* `representation_invariant`: what the invariant says of the frames, the page table, the bitmap,
  the chains and the pages of a manager;
* `evict_spec`: what `evict` does, in any state reached, when memory is full.
-/

namespace Mcpq.Hierarchical

open HierarchicalMemoryManager

/-- The call sends a page to an empty chain whose cached timestamp it leaves as it is. -/
def Call.Stale (s : HierarchicalMemoryManager) : Call → Prop
  | .link chain address => ∃ p, s.pageAt address = .ok p ∧ s.Stale chain p
  | .anchor chain address => ∃ p, s.pageAt address = .ok p ∧ s.Stale chain p
  | _ => False

namespace HierarchicalMemoryManager

variable {s s' : HierarchicalMemoryManager} {L : ℤ → List PageRef}

theorem IdsOk.ne_neg_one (hs : s.IdsOk) {id : ℤ} (hid : id ∈ s.usrChains) : id ≠ -1 := by
  have := (hs.range id hid).1
  omega

/-- After an access to the address `a`: its page `p` is in memory, on exactly one existing chain,
    with the greatest timestamp. -/
structure Accessed (s : HierarchicalMemoryManager) (a : ℤ) (p : PageRef) : Prop where
  pageAt_eq : s.pageAt a = .ok p
  timestamp_lt : ∀ q < s.heap.fresh, q ≠ p →
    (s.heap.page q).timestamp < (s.heap.page p).timestamp
  linked : ∃! id, s.IsChain id ∧ ∃ l, (s.chains id).iterate s.heap = .ok l ∧ p ∈ l

/-- A page in memory is linked to the chain it resides on, and to no other. -/
theorem Rep.linked (hs : s.Rep L) (hset : s.Settled) {p : PageRef} (hp : s.Resident p) :
    ∃! id, s.IsChain id ∧ ∃ l, (s.chains id).iterate s.heap = .ok l ∧ p ∈ l := by
  obtain ⟨hmem, hchain⟩ := hs.mem_resides hset hp
  refine ⟨_, ⟨hchain, _, hs.iterate _, hmem⟩, ?_⟩
  rintro d ⟨-, l, hl, hpl⟩
  rw [hs.iterate d] at hl
  cases hl
  exact hs.eq_of_mem hpl hmem

namespace Rep

/-- An access either ends normally, or fails because the page is assigned to a chain that does not
    exist. -/
theorem access (hs : s.Rep L) (hset : s.Settled) (hsize : 0 < s.size) {order : List ℤ}
    (ho : ∀ d, d ∈ order ↔ d ∈ s.usrChains) (a : ℤ) :
    (((∃ r, s.Resident r ∧ (s.heap.page r).address = a) ∨ s.IsChain (s.homeChain a)) ∧
      ∃ s' o L' p, s.access order a = .ok (s', o) ∧ s'.Rep L' ∧ s'.Settled ∧ s'.size = s.size ∧
        s'.Accessed a p ∧ (s.CacheValid L → s'.CacheValid L')) ∨
    ((∀ r, s.Resident r → (s.heap.page r).address ≠ a) ∧ ¬s.IsChain (s.homeChain a) ∧
      s.access order a = .error .nullPointer) := by
  by_cases hres : ∃ r, s.Resident r ∧ (s.heap.page r).address = a
  · obtain ⟨p, hp, rfl⟩ := hres
    obtain ⟨s', heq, hs', hhit, hv⟩ := hs.access_hit (hs.mem_resides hset hp).1 order
    have hp' : s'.Resident p := by rwa [Resident, hhit.memory_eq]
    have hset' : s'.Settled := fun r hr => by
      rw [hhit.resides_eq]
      rw [Resident, hhit.memory_eq] at hr
      exact hset r hr
    refine .inl ⟨.inl ⟨p, hp, rfl⟩, s', _, L, p, heq, hs', hset', by rw [hhit.rest],
      ⟨hs'.store.pageAt_eq_ok_iff.2 ⟨hp', hhit.address_eq p⟩, fun q hq hqp => ?_,
        hs'.linked hset' hp'⟩, hv⟩
    rw [hhit.fresh_eq] at hq
    rw [hhit.timestamp_eq, hhit.page_of_ne hqp]
    exact Nat.lt_succ_of_le (hs.store.stamp_le q hq)
  · push Not at hres
    by_cases hc : s.IsChain (s.homeChain a)
    · obtain ⟨s', s₁, L₁, v, p, heq, hal, hf, hs', hv⟩ :=
        hs.access_fault hset hsize ho hres hc
      have hp' : s'.Resident p := hf.resident_iff.2 (.inl rfl)
      have hset' : s'.Settled := fun r hr => by
        rw [hf.resides_eq]
        split_ifs with hrp
        · rw [hal.frees.homeChain_eq hs hres]
          exact hs.isChain_ne hc
        · exact hal.frees.settled hs hset r ((hf.resident_iff.1 hr).resolve_left hrp)
      refine .inl ⟨.inr hc, s', _, _, p, heq, hs', hset', by rw [hf.size_eq, hal.frees.size_eq],
        ⟨hs'.store.pageAt_eq_ok_iff.2 ⟨hp', hf.address_eq⟩, fun q hq hqp => ?_,
          hs'.linked hset' hp'⟩, hv⟩
      have hle := (hal.frees.rep hs).store.stamp_le q (((hf.lt_fresh_iff q).1 hq).resolve_left hqp)
      rw [hf.timestamp_of_ne hqp, hf.timestamp_eq]
      omega
    · exact .inr ⟨hres, hc, hs.access_error hset hsize ho hres hc⟩

/-- A call on live chains that ends normally keeps the invariant. It keeps the cached timestamps
    valid, unless it sends a page to a chain that was emptied with a smaller timestamp. -/
theorem step (hs : s.Rep L) (hset : s.Settled) {call : Call}
    (hst : Step s call s') :
    ∃ L', s'.Rep L' ∧ s'.Settled ∧ s'.size = s.size ∧
      (s.CacheValid L → (s'.CacheValid L' ↔ ¬call.Stale s)) := by
  obtain ⟨order, o, ho, hexec⟩ := hst.returns
  cases call with
  | access a =>
    obtain ⟨⟨s₁, o₁⟩, heq, h⟩ := map_eq_ok hexec
    cases h
    -- A manager without frames serves no access.
    have hsize : 0 < s.size := by
      refine Nat.pos_of_ne_zero fun h => ?_
      rw [hs.access_of_size_eq_zero h] at heq
      cases heq
    rcases hs.access hset hsize (fun d => ho.mem_iff) a with
      ⟨-, s₂, o₂, L', p, heq', hs', hset', hsize', -, hv⟩ | ⟨-, -, heq'⟩
    · rw [heq'] at heq
      cases heq
      exact ⟨L', hs', hset', hsize', fun h => iff_of_true (hv h) id⟩
    · rw [heq'] at heq
      cases heq
  | createMemoryChain policy =>
    cases hexec
    exact ⟨L, hs.addChain .., hset, rfl, fun h => iff_of_true (hs.cacheValid_addChain h _ _ _ _) id⟩
  | createBoundedMemoryChain policy capacity =>
    cases hexec
    exact ⟨L, hs.addChain .., hset, rfl, fun h => iff_of_true (hs.cacheValid_addChain h _ _ _ _) id⟩
  | createAnchoredMemoryChain policy capacity anchored =>
    -- The method is not supported: it throws.
    cases hexec
  | link chain a =>
    obtain ⟨s₁, heq, h⟩ := map_eq_ok hexec
    cases h
    -- The page is in memory, as the call has found it.
    have hid := hst.live chain rfl
    obtain ⟨p, hp, -⟩ := bind_eq_ok heq
    obtain ⟨hres, rfl⟩ := hs.store.pageAt_eq_ok_iff.1 hp
    obtain ⟨s₂, heq', hs', hsend, hv⟩ := hs.link_of_mem hid (hs.mem_resides hset hres).1
    rw [heq'] at heq
    cases heq
    refine ⟨_, hs', hsend.settled (hs.ids.ne_neg_one hid) hset, hsend.size_eq, fun h => ?_⟩
    simp only [hv h, Call.Stale, hp, Except.ok.injEq, exists_eq_left']
  | anchor chain a =>
    obtain ⟨s₁, heq, h⟩ := map_eq_ok hexec
    cases h
    have hid := hst.live chain rfl
    obtain ⟨p, hp, -⟩ := bind_eq_ok heq
    obtain ⟨hres, rfl⟩ := hs.store.pageAt_eq_ok_iff.1 hp
    obtain ⟨s₂, heq', hs', hsend, hv⟩ := hs.anchor_of_mem hid (hs.mem_resides hset hres).1
    rw [heq'] at heq
    cases heq
    refine ⟨_, hs', hsend.settled (hs.ids.ne_neg_one hid) hset, hsend.size_eq, fun h => ?_⟩
    simp only [hv h, Call.Stale, hp, Except.ok.injEq, exists_eq_left']
  | unlink a =>
    -- A page of the hated chain stays there, and so does one that is not in memory.
    obtain ⟨s₁, heq, h⟩ := map_eq_ok hexec
    cases h
    by_cases hres : ∃ r, s.Resident r ∧ (s.heap.page r).address = a
    · obtain ⟨p, hp, rfl⟩ := hres
      by_cases hd : (s.heap.page p).resides = SystemQueue.hated.ordinal
      · rw [hs.unlink_of_hated hset (hd ▸ (hs.mem_resides hset hp).1)] at heq
        cases heq
        exact ⟨L, hs, hset, rfl, fun h => iff_of_true h id⟩
      · obtain ⟨s₂, heq', hs', hsend, hv⟩ := hs.unlink_of_mem hset (hs.mem_resides hset hp).1 hd
        rw [heq'] at heq
        cases heq
        exact ⟨_, hs', hsend.settled (by decide) hset, hsend.size_eq,
          fun h => iff_of_true (hv h) id⟩
    · push Not at hres
      rw [hs.unlink_of_not_resident hres] at heq
      cases heq
      exact ⟨L, hs, hset, rfl, fun h => iff_of_true h id⟩
  | breakMemoryChain chain =>
    obtain ⟨s₁, heq, h⟩ := map_eq_ok hexec
    cases h
    obtain ⟨s₂, heq', hs', hsend, hv⟩ := hs.breakMemoryChain (hst.live chain rfl)
    rw [heq'] at heq
    cases heq
    exact ⟨_, hs', hsend.settled (by decide) hset, hsend.size_eq, fun h => iff_of_true (hv h) id⟩
  | releaseMemoryChain chain =>
    obtain ⟨s₁, heq, h⟩ := map_eq_ok hexec
    cases h
    obtain ⟨s₂, -, heq', hs', hsend, hv⟩ := hs.releaseMemoryChain (hst.live chain rfl)
    rw [heq'] at heq
    cases heq
    exact ⟨_, hs', hsend.settled (by decide) hset, hsend.size_eq, fun h => iff_of_true (hv h) id⟩

end Rep

end HierarchicalMemoryManager

open HierarchicalMemoryManager

variable {n : ℕ} {s s' : HierarchicalMemoryManager}

/-- The invariant holds of the states reached. -/
theorem reachable_rep {P : HierarchicalMemoryManager → Call → Prop}
    (hs : (System n).ReachableBy P s) : ∃ L, s.Rep L ∧ s.Settled ∧ s.size = n := by
  refine hs.invariant (I := fun s => ∃ L, s.Rep L ∧ s.Settled ∧ s.size = n) ?_ ?_
  · rintro _ ⟨clock, draws, rfl⟩
    exact ⟨_, .make n clock draws, Rep.settled_make n clock draws, rfl⟩
  · rintro s call s' ⟨L, hs, hset, hsize⟩ - hst
    obtain ⟨L', hs', hset', hsize', -⟩ := hs.step hset hst
    exact ⟨L', hs', hset', hsize'.trans hsize⟩

/-! ## The representation invariant -/

/-- A manager of capacity `n` is well formed. -/
structure WellFormed (n : ℕ) (s : HierarchicalMemoryManager) : Prop where
  /-- The page table maps an address to a frame exactly when the frame holds its page. -/
  mapping_iff : ∀ a (f : ℤ), s.pageTable.mapping a = some f ↔
    ∃ (i : ℕ) (p : PageRef), i < n ∧ f = i ∧ s.memory.pages[i]? = some (some p) ∧
      (s.heap.page p).address = a ∧ (s.heap.page p).frame = f
  mapping_inj : ∀ a b f, s.pageTable.mapping a = some f → s.pageTable.mapping b = some f → a = b
  /-- The bitmap tells which frames hold a page. -/
  bitmap_iff : ∀ i < n, s.memory.bitmap[i]? = some true ↔
    ∃ p, s.memory.pages[i]? = some (some p)
  /-- Chains are doubly linked lists, a page in memory is on one of them, the one it resides on, and
      a page that is not is on none. -/
  chains : ∃ L : ℤ → List PageRef, (∀ id, s.IsChain id → Holds (s.chains id) s.heap (L id)) ∧
    (∀ r, s.Resident r → s.IsChain (s.heap.page r).resides ∧
      ∀ id, s.IsChain id → (r ∈ L id ↔ id = (s.heap.page r).resides)) ∧
    ∀ r < s.heap.fresh, ¬s.Resident r → (s.heap.page r).resides = -1 ∧ s.heap.next r = none ∧
      s.heap.prev r = none ∧ ∀ id, s.IsChain id → r ∉ L id

/-- The managers reached are well formed. -/
theorem representation_invariant (hs : (System n).Reachable s) : WellFormed n s := by
  obtain ⟨L, hs, hset, hsize⟩ := reachable_rep hs
  have hlen : s.memory.pages.length = n := hs.store.length_eq.trans hsize
  refine ⟨fun a f => ?_, fun a b f ha hb => ?_, fun i hi => ?_, L, fun id _ => hs.chains.holds id,
    fun r hr => ?_, fun r hlt hr => ?_⟩
  · rw [hs.store.mapping_iff]
    constructor
    · rintro ⟨i, p, rfl, hi, ha⟩
      exact ⟨i, p, hlen ▸ (List.getElem?_eq_some_iff.1 hi).1, rfl, hi, ha,
        (hs.store.frame_eq i p hi).1⟩
    · rintro ⟨i, p, -, hf, hi, ha, -⟩
      exact ⟨i, p, hf, hi, ha⟩
  · obtain ⟨i, p, rfl, hi, rfl⟩ := (hs.store.mapping_iff a f).1 ha
    obtain ⟨j, q, hij, hj, rfl⟩ := (hs.store.mapping_iff b i).1 hb
    rw [Int.ofNat_inj.1 hij, hj] at hi
    cases hi
    rfl
  · rw [hs.store.bitmap_eq, List.getElem?_map, List.getElem?_eq_getElem (hlen ▸ hi)]
    simp [Option.isSome_iff_exists]
  · obtain ⟨hmem, hchain⟩ := hs.mem_resides hset hr
    refine ⟨hchain, fun id _ => ⟨fun h => hs.eq_of_mem h hmem, ?_⟩⟩
    rintro rfl
    exact hmem
  · have hres := hs.resides_of_not_resident hr
    obtain ⟨hn, hp⟩ := hs.chains.off r hres
    exact ⟨hres, hn, hp, fun id _ h => hr (hs.mem_resident h)⟩

/-- Two frames: a page linked to a chain stays, and the page of the default chain is evicted. -/
theorem representation_invariant_evict :
    ∃ s, (System 2).Reachable s ∧ s.usrChains = [3] ∧ (s.chains 3).size = 1 ∧ s.pageTable.lookup 8 = -1 ∧
      s.pageTable.lookup 9 = 1 ∧ WellFormed 2 s := by
  obtain ⟨s, hs, hq⟩ := exists_reachable (n := 2)
    (Q := fun s => s.usrChains = [3] ∧ (s.chains 3).size = 1 ∧ s.pageTable.lookup 8 = -1 ∧
      s.pageTable.lookup 9 = 1)
    [.createMemoryChain .lru, .access 7, .access 8, .link 3 7, .access 7, .access 9] (by decide)
  obtain ⟨husr, hsize, h8, h9⟩ := of_decide_eq_true hq
  exact ⟨s, hs, husr, hsize, h8, h9, representation_invariant hs⟩

/-! ## Accesses -/

theorem isChain_homeChain_iff {a : ℤ} : s.IsChain (s.homeChain a) ↔
    ∀ p, s.swap a = some p →
      (s.heap.page p).assigned = -1 ∨ s.IsChain (s.heap.page p).assigned := by
  have hdef : s.IsChain SystemQueue.default.ordinal := .inl (by decide)
  rw [homeChain]
  cases s.swap a with
  | none => simp [hdef]
  | some p =>
    simp only [Option.some.injEq, forall_eq']
    split_ifs with h
    · simp [h]
    · simpa [not_not.1 h] using hdef

/-- An access ends normally, with the page of the address in memory, on exactly one existing chain,
    and with the greatest timestamp, exactly when the page is in memory, or is new, or is assigned
    to no chain or to one that exists. -/
theorem access_returns_iff (hn : 0 < n) (hs : (System n).Reachable s) {order : List ℤ}
    (ho : order.Perm s.usrChains) (a : ℤ) :
    (∃ s' o p, s.access order a = .ok (s', o) ∧ s'.Accessed a p) ↔
      s.pageTable.lookup a ≠ -1 ∨ ∀ p, s.swap a = some p →
        (s.heap.page p).assigned = -1 ∨ s.IsChain (s.heap.page p).assigned := by
  obtain ⟨L, hs, hset, hsize⟩ := reachable_rep hs
  rw [← isChain_homeChain_iff, Ne, hs.store.lookup_eq_neg_one_iff]
  push Not
  rcases hs.access hset (hsize ▸ hn) (fun d => ho.mem_iff) a with
    ⟨hc, s', o, L', p, heq, -, -, -, hacc, -⟩ | ⟨hres, hc, heq⟩
  · exact iff_of_true ⟨s', o, p, heq, hacc⟩ hc
  · refine iff_of_false ?_ ?_
    · rintro ⟨s', o, p, heq', -⟩
      rw [heq] at heq'
      cases heq'
    · rintro (⟨r, hr, ha⟩ | h)
      · exact hres r hr ha
      · exact hc h

/-- A page in swap, assigned to a chain that exists. -/
theorem access_returns_iff_swap :
    ∃ s, (System 1).Reachable s ∧ s.swap 1 = some 0 ∧ (s.heap.page 0).assigned = 3 ∧
      ∃ s' o p, s.access s.usrChains 1 = .ok (s', o) ∧ s'.Accessed 1 p := by
  obtain ⟨s, hs, hq⟩ := exists_reachable (n := 1)
    (Q := fun s => s.swap 1 = some 0 ∧ (s.heap.page 0).assigned = 3 ∧ 3 ∈ s.usrChains)
    [.createMemoryChain .lru, .access 1, .link 3 1, .access 2] (by decide)
  obtain ⟨hswap, hassigned, hchain⟩ := of_decide_eq_true hq
  refine ⟨s, hs, hswap, hassigned,
    (access_returns_iff (by decide) hs (.refl _) 1).2 (.inr fun p hp => ?_)⟩
  cases hswap.symm.trans hp
  exact .inr (.inr (hassigned ▸ hchain))

/-- The access to a page that was evicted from a chain released since then fails. -/
theorem access_fails :
    ¬∀ n, 0 < n → ∀ s, (System n).Reachable s → ∀ order : List ℤ, order.Perm s.usrChains →
      ∀ a, ∃ s' o p, s.access order a = .ok (s', o) ∧ s'.Accessed a p := by
  intro h
  obtain ⟨s, hs, hq⟩ := exists_reachable (n := 1)
    (Q := fun s => (s.access s.usrChains 1).toOption.isNone)
    [.createMemoryChain .lru, .access 1, .link 3 1, .access 2, .releaseMemoryChain 3] (by decide)
  obtain ⟨s', o, p, heq, -⟩ := h 1 (by decide) s hs s.usrChains (.refl _) 1
  simp [heq, Except.toOption] at hq

/-! ## Evictions -/

/-- The timestamps `evict` compares, where there is neither a hated nor a spilled page: those of the
    pages of the default chain, and those of the user chains that hold pages. -/
def comparedTimestamps (s : HierarchicalMemoryManager) (L : ℤ → List PageRef) : Set ℕ :=
  {v | (∃ q ∈ L SystemQueue.default.ordinal, (s.heap.page q).timestamp = v) ∨
    ∃ id ∈ s.usrChains, L id ≠ [] ∧ s.HasTimestamp id v}

/-- The page `p` is a victim of the two phase page replacement. -/
structure Victim (s : HierarchicalMemoryManager) (L : ℤ → List PageRef) (p : PageRef) : Prop where
  /-- The tail of the hated chain, which was linked to it first. -/
  hated : L SystemQueue.hated.ordinal ≠ [] →
    (s.chains SystemQueue.hated.ordinal).tail = some p ∧ p ∈ L SystemQueue.hated.ordinal ∧
      ∀ q ∈ L SystemQueue.hated.ordinal, q ≠ p →
        (s.heap.page p).linkedAt < (s.heap.page q).linkedAt
  /-- Else the page of least timestamp of the spillover chain. -/
  spillover : L SystemQueue.hated.ordinal = [] → L SystemQueue.spillover.ordinal ≠ [] →
    p ∈ L SystemQueue.spillover.ordinal ∧ ∀ q ∈ L SystemQueue.spillover.ordinal, q ≠ p →
      (s.heap.page p).timestamp < (s.heap.page q).timestamp
  /-- Else a page of the default chain of least timestamp, or the page of least timestamp of a user
      chain of least timestamp. -/
  compared : L SystemQueue.hated.ordinal = [] → L SystemQueue.spillover.ordinal = [] →
    ∃ v, IsLeast (comparedTimestamps s L) v ∧
      (p ∈ L SystemQueue.default.ordinal ∧ (s.heap.page p).timestamp = v ∨
        ∃ id ∈ s.usrChains, s.HasTimestamp id v ∧ p ∈ L id ∧ ∀ q ∈ L id, q ≠ p →
          (s.heap.page p).timestamp < (s.heap.page q).timestamp)

/-- From `s` to `s'`, the page `p` is evicted, and no other page is touched. -/
structure Evicted (s s' : HierarchicalMemoryManager) (L : ℤ → List PageRef) (p : PageRef) :
    Prop where
  resident : s.Resident p
  resident_iff : ∀ r, s'.Resident r ↔ s.Resident r ∧ r ≠ p
  frame_free : ∀ f : ℕ, s.memory.pages[f]? = some (some p) →
    s'.memory.pages[f]? = some none ∧ s'.memory.bitmap[f]? = some false
  lookup_eq : s'.pageTable.lookup (s.heap.page p).address = -1
  swap_eq : s'.swap (s.heap.page p).address = some p
  assigned_eq : (s'.heap.page p).assigned = (s.heap.page p).assigned
  page_eq : ∀ q, (s'.heap.page q).core = (s.heap.page q).core
  frame_eq : ∀ (f : ℕ) r, r ≠ p →
    (s'.memory.pages[f]? = some (some r) ↔ s.memory.pages[f]? = some (some r))
  mapping_eq : ∀ a, a ≠ (s.heap.page p).address →
    s'.pageTable.mapping a = s.pageTable.mapping a
  resides_eq : ∀ q, q ≠ p → (s'.heap.page q).resides = (s.heap.page q).resides
  iterate_eq : ∀ id, (s'.chains id).iterate s'.heap = .ok ((L id).erase p)

namespace HierarchicalMemoryManager

variable {L : ℤ → List PageRef} {id : ℤ} {p : PageRef}

/-- The page of least timestamp of a chain is the only one. -/
theorem Rep.timestamp_lt (hs : s.Rep L) (hp : p ∈ L id)
    (hle : ∀ q ∈ L id, (s.heap.page p).timestamp ≤ (s.heap.page q).timestamp) :
    ∀ q ∈ L id, q ≠ p → (s.heap.page p).timestamp < (s.heap.page q).timestamp := by
  intro q hq hqp
  refine lt_of_le_of_ne (hle q hq) fun h => hqp ?_
  exact (hs.store.stamp_inj p (hs.lt_fresh hp) q (hs.lt_fresh hq) h).symm

theorem Chosen.victim (hs : s.Rep L) (h : Chosen s L id p) : Victim s L p := by
  cases h with
  | hated hp =>
    have hmem := List.mem_of_getLast? hp
    have hne := List.ne_nil_of_mem hmem
    refine ⟨fun _ => ⟨?_, hmem, fun q hq hqp => ?_⟩, fun h => absurd h hne, fun h => absurd h hne⟩
    · rw [(hs.chains.holds _).list.tail_eq hne, hp]
    · -- The pages of a chain are in the order they were linked, the last one first.
      have hord := hs.chains.ordered SystemQueue.hated.ordinal
      rw [← List.dropLast_append_getLast? p hp, List.pairwise_append] at hord
      rw [← List.dropLast_append_getLast? p hp, List.mem_append, List.mem_singleton] at hq
      exact hord.2.2 q (hq.resolve_right hqp) p (List.mem_singleton_self p)
  | spillover h0 hp hle =>
    exact ⟨fun h => absurd h0 h, fun _ _ => ⟨hp, hs.timestamp_lt hp hle⟩,
      fun _ h => absurd h (List.ne_nil_of_mem hp)⟩
  | default h0 h1 hp hle husr =>
    refine ⟨fun h => absurd h0 h, fun _ h => absurd h1 h, fun _ _ =>
      ⟨_, ⟨.inl ⟨p, hp, rfl⟩, ?_⟩, .inl ⟨hp, rfl⟩⟩⟩
    rintro v (⟨q, hq, rfl⟩ | ⟨d, hd, hne, hv⟩)
    · exact hle q hq
    · exact husr d hd hne v hv
  | user h0 h1 hd hv hp hle hdef husr =>
    refine ⟨fun h => absurd h0 h, fun _ h => absurd h1 h, fun _ _ =>
      ⟨_, ⟨.inr ⟨_, hd, List.ne_nil_of_mem hp, hv⟩, ?_⟩,
        .inr ⟨_, hd, hv, hp, hs.timestamp_lt hp hle⟩⟩⟩
    rintro w (⟨r, hr, rfl⟩ | ⟨e, he, hne, hw⟩)
    · exact hdef r hr
    · exact husr e he hne w hw

theorem Evicts.evicted (hs : s.Rep L) (h : Evicts s s' L id p) : Evicted s s' L p := by
  obtain ⟨f, hf, hpages⟩ := h.frames
  have hlt : f < s.memory.pages.length := (List.getElem?_eq_some_iff.1 hf).1
  have hmem := h.chosen.mem
  have hres : ∀ r, s'.Resident r ↔ s.Resident r ∧ r ≠ p := fun r => by
    rw [← hs.store.resident_remove hf r, Resident, Resident, hpages]
    rfl
  refine ⟨hs.mem_resident hmem, hres, fun i hi => ?_, ?_, ?_, h.assigned_eq p, h.core_eq, fun i r hr => ?_,
    fun a ha => ?_, fun q hq => ?_, fun d => ?_⟩
  · obtain rfl := hs.store.frame_inj hi hf
    have hi' : s'.memory.pages[i]? = some none := by
      rw [hpages, List.getElem?_set_self hlt]
    exact ⟨hi', by rw [h.rep.store.bitmap_eq, List.getElem?_map, hi']; rfl⟩
  · rw [PageTable.lookup, h.mapping_eq, Function.update_self]
    rfl
  · rw [h.swap_eq, Function.update_self]
  · rw [hpages, getElem?_set_some hlt]
    simp only [reduceCtorEq, and_false, false_or, and_iff_right_iff_imp]
    rintro hi rfl
    rw [hf] at hi
    exact hr (Option.some.inj (Option.some.inj hi)).symm
  · rw [h.mapping_eq, Function.update_of_ne ha]
  · rw [h.resides_eq, if_neg hq]
  · rw [h.rep.iterate]
    by_cases hd : d = id
    · rw [hd, Function.update_self]
    · rw [Function.update_of_ne hd, List.erase_of_not_mem fun hp => hd (hs.eq_of_mem hp hmem)]

end HierarchicalMemoryManager

/-- When memory is full, `evict` evicts the victim of the two phase page replacement, in whatever
    order it goes through the user chains. -/
theorem evict_spec (hn : 0 < n) (hs : (System n).Reachable s) (hfull : none ∉ s.memory.pages)
    {order : List ℤ} (ho : order.Perm s.usrChains) :
    ∃ L s' p, (∀ id, (s.chains id).iterate s.heap = .ok (L id)) ∧
      s.evict order = .ok (s', p) ∧ Victim s L p ∧ Evicted s s' L p := by
  obtain ⟨L, hs, hset, hsize⟩ := reachable_rep hs
  have hne := hs.exists_ne_nil hset (hsize ▸ hn) hfull
  obtain ⟨s', id, p, heq, he⟩ := hs.evict hne fun d => ho.mem_iff
  exact ⟨L, s', p, hs.iterate, heq, he.chosen.victim hs, he.evicted hs⟩

/-- An eviction from a manager of two frames, one of whose pages is hated. -/
theorem evict_spec_hated : ∃ s L s' p, (System 2).Reachable s ∧
    (s.chains SystemQueue.hated.ordinal).size = 1 ∧
    (∀ id, (s.chains id).iterate s.heap = .ok (L id)) ∧
      s.evict s.usrChains = .ok (s', p) ∧ Victim s L p ∧ Evicted s s' L p := by
  obtain ⟨s, hs, hq⟩ := exists_reachable (n := 2)
    (Q := fun s => none ∉ s.memory.pages ∧ (s.chains SystemQueue.hated.ordinal).size = 1)
    [.access 1, .access 2, .unlink 2] (by decide)
  obtain ⟨hfull, hsize⟩ := of_decide_eq_true hq
  obtain ⟨L, s', p, h⟩ := evict_spec (by decide) hs hfull (.refl _)
  exact ⟨s, L, s', p, hs, hsize, h⟩

end Mcpq.Hierarchical
